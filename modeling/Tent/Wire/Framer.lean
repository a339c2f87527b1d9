import Tent.Foundation.Transition
import Tent.Wire.Message

/-!
# Framing

The receive loop of `on_read` without everything that does not matter to it: a buffer, the flag that
tells handshakes from messages, and what was decoded so far.  `Tent.Agent.Receive` shows that the
loop of an agent, seen through this, is the loop of the framer.

`Stream` says what a byte string means: it is cut into frames, each as long as its own prefix says,
and the flag is raised by the first valid handshake.  `feed_stream` relates the two: whatever part
of a stream has arrived, the framer decodes the frames that are complete and keeps the rest.

`MeetsHugePrefix` singles out the byte strings on which the length arithmetic of the framer wraps
around.
-/

set_option autoImplicit false

namespace Tent

open Bytes Transition

/-- What the receive loop makes of a frame. -/
inductive Decoded where
  /-- A valid handshake: `session_event::HANDSHAKE` is raised. -/
  | handshake
  /-- A message: `handle_msg` is called. -/
  | message (msg : Message)
deriving DecidableEq, Repr

/-- The state of the receive loop. -/
structure Framer where
  /-- Whether a valid handshake was received. -/
  handshaken : Bool
  /-- The receive buffer. -/
  buffer : ByteString
  /-- What was decoded so far. -/
  decoded : List Decoded
deriving DecidableEq, Repr

/-- What a frame is decoded into; an invalid handshake gives nothing. -/
def decodeFrame (oob : Oob) (handshaken : Bool) (slice : ByteString) : List Decoded :=
  if handshaken then [.message (.ofSlice oob slice)]
  else if validateHandshake oob slice then [.handshake] else []

namespace Framer

variable (oob : Oob)

/-- The length of the frame at the front of the buffer. -/
def len (f : Framer) : ℕ := getMsgLen oob f.buffer f.handshaken

/-- The guard of the loop. -/
def ready (f : Framer) : Bool :=
  decide (4 ≤ f.buffer.length) && decide (f.len oob ≤ f.buffer.length)

/-- The body of the loop: decode the frame at the front of the buffer. -/
def advance (f : Framer) : Framer where
  handshaken := f.handshaken || validateHandshake oob (f.buffer.take (f.len oob))
  buffer := f.buffer.drop (f.len oob)
  decoded := f.decoded ++ decodeFrame oob f.handshaken (f.buffer.take (f.len oob))

/-- Append bytes to the buffer. -/
def append (bytes : ByteString) (f : Framer) : Framer :=
  { f with buffer := f.buffer ++ bytes }

/-- Append bytes and run the loop. -/
def feed (bytes : ByteString) (f : Framer) : Option Framer :=
  whileFuel (ready oob) (advance oob) ((f.append bytes).buffer.length + 1) (f.append bytes)

end Framer

/-! ### The length of a frame -/

/-- The first word of a buffer that holds it. -/
lemma peek32_eq (oob : Oob) {buffer : ByteString} (h : 4 ≤ buffer.length) :
    peek32 oob buffer = ofBE (buffer.take 4) := by
  rw [peek32, window_zero_eq_take oob h]

/-- The length of a message follows from its prefix, in 32-bit arithmetic. -/
lemma getMsgLen_true (oob : Oob) (buffer : ByteString) :
    getMsgLen oob buffer true = (peek32 oob buffer + 4) % uint32Range := rfl

/-- The length of a handshake follows from its first byte. -/
lemma getMsgLen_false (oob : Oob) (buffer : ByteString) :
    getMsgLen oob buffer false = (byteAt oob buffer 0).toNat + 49 := rfl

/-- The length of a frame depends on the first four bytes of the buffer. -/
lemma getMsgLen_congr (oob : Oob) {b b' : ByteString} (hb : 4 ≤ b.length) (hb' : 4 ≤ b'.length)
    (heq : b.take 4 = b'.take 4) (handshaken : Bool) :
    getMsgLen oob b handshaken = getMsgLen oob b' handshaken := by
  cases handshaken with
  | true => rw [getMsgLen_true, getMsgLen_true, peek32_eq oob hb, peek32_eq oob hb', heq]
  | false =>
    have hbyte : byteAt oob b 0 = byteAt oob b' 0 := by
      match b, b', hb, hb', heq with
      | x :: b, y :: b', _, _, heq =>
        rw [byteAt_zero_cons, byteAt_zero_cons]
        exact List.head_eq_of_cons_eq heq
    rw [getMsgLen_false, getMsgLen_false, hbyte]

/-- The length prefix of a message fits into 32 bits. -/
lemma ofBE_take_four_lt (buffer : ByteString) : ofBE (buffer.take 4) < uint32Range := by
  refine Nat.lt_of_lt_of_le (ofBE_lt _) ?_
  have hpow := Nat.pow_le_pow_right (show 0 < 256 by decide) (List.length_take_le 4 buffer)
  exact Nat.le_trans hpow (by decide)

/-- A prefix below `2 ^ 32 - 4` gives the length of the frame without wrapping around. -/
lemma getMsgLen_of_lt (oob : Oob) {buffer : ByteString} (h : 4 ≤ buffer.length)
    (hlt : ofBE (buffer.take 4) < uint32Range - 4) :
    getMsgLen oob buffer true = ofBE (buffer.take 4) + 4 := by
  have hrange : 4 < uint32Range := by decide
  rw [getMsgLen_true, peek32_eq oob h, Nat.mod_eq_of_lt (by omega)]

/-- A prefix from `2 ^ 32 - 4` on wraps around to a length below four. -/
lemma getMsgLen_of_ge (oob : Oob) {buffer : ByteString} (h : 4 ≤ buffer.length)
    (hge : uint32Range - 4 ≤ ofBE (buffer.take 4)) : getMsgLen oob buffer true < 4 := by
  have hrange : 4 < uint32Range := by decide
  have hlt := ofBE_take_four_lt buffer
  rw [getMsgLen_true, peek32_eq oob h, Nat.mod_eq_sub_mod (by omega), Nat.mod_eq_of_lt (by omega)]
  omega

/-- A handshake has at least 49 bytes. -/
lemma le_getMsgLen_false (oob : Oob) (buffer : ByteString) : 49 ≤ getMsgLen oob buffer false :=
  Nat.le_add_left _ _

/-! ### Streams of frames -/

/-- A byte string that is exactly as long as the framer takes it to be. -/
structure IsFrame (oob : Oob) (handshaken : Bool) (frame : ByteString) : Prop where
  /-- The length can be read off the frame. -/
  four_le : 4 ≤ frame.length
  /-- It is the length of the frame. -/
  len_eq : getMsgLen oob frame handshaken = frame.length

/-- The meaning of a byte string that consists of complete frames. -/
inductive Stream (oob : Oob) : Bool → ByteString → List Decoded → Prop where
  /-- The empty string means nothing. -/
  | nil (handshaken : Bool) : Stream oob handshaken [] []
  /-- A frame, and what follows it. -/
  | cons {handshaken : Bool} {frame rest : ByteString} {outs : List Decoded}
      (hframe : IsFrame oob handshaken frame)
      (hrest : Stream oob (handshaken || validateHandshake oob frame) rest outs) :
      Stream oob handshaken (frame ++ rest) (decodeFrame oob handshaken frame ++ outs)

namespace Framer

variable {oob : Oob}

/-- A frame is ready if its length is known and it is complete. -/
lemma ready_iff {f : Framer} :
    f.ready oob = true ↔ 4 ≤ f.buffer.length ∧ f.len oob ≤ f.buffer.length := by
  rw [ready, Bool.and_eq_true, decide_eq_true_eq, decide_eq_true_eq]

/-- The length of the frame at the front is known as soon as four of its bytes are there. -/
lemma len_of_prefix {f : Framer} {frame rest future : ByteString}
    (hframe : IsFrame oob f.handshaken frame) (h4 : 4 ≤ f.buffer.length)
    (heq : f.buffer ++ future = frame ++ rest) : f.len oob = frame.length := by
  have hbuffer : (f.buffer ++ future).take 4 = f.buffer.take 4 :=
    List.take_append_of_le_length h4
  have htake : f.buffer.take 4 = frame.take 4 := by
    rw [← hbuffer, heq,
      List.take_append_of_le_length hframe.four_le]
  unfold len
  rw [getMsgLen_congr oob h4 hframe.four_le htake, hframe.len_eq]

/-- A complete frame is taken off the front of the buffer. -/
lemma advance_of_frame {f : Framer} {frame tail : ByteString}
    (hframe : IsFrame oob f.handshaken frame) (hbuf : f.buffer = frame ++ tail) :
    f.ready oob = true ∧ f.advance oob =
      ⟨f.handshaken || validateHandshake oob frame, tail,
        f.decoded ++ decodeFrame oob f.handshaken frame⟩ := by
  have h4 : 4 ≤ f.buffer.length := by
    have := hframe.four_le
    rw [hbuf, List.length_append]
    omega
  have hlen : f.len oob = frame.length :=
    len_of_prefix hframe h4 (by rw [List.append_nil, hbuf])
  have htake : f.buffer.take (f.len oob) = frame := by
    rw [hlen, hbuf, List.take_left]
  have hdrop : f.buffer.drop (f.len oob) = tail := by
    rw [hlen, hbuf, List.drop_left]
  constructor
  · rw [ready_iff, hlen]
    refine ⟨h4, ?_⟩
    rw [hbuf, List.length_append]
    omega
  · unfold advance
    rw [htake, hdrop]

/-- The loop decodes the complete frames of a stream of which a part has arrived and stops in front
of the first incomplete one. -/
lemma whileFuel_stream {f : Framer} {future : ByteString} {outs : List Decoded}
    (h : Stream oob f.handshaken (f.buffer ++ future) outs) {n : ℕ} (hn : f.buffer.length < n) :
    ∃ f' outs₁ outs₂, whileFuel (ready oob) (advance oob) n f = some f' ∧
      outs = outs₁ ++ outs₂ ∧ f'.decoded = f.decoded ++ outs₁ ∧
      Stream oob f'.handshaken (f'.buffer ++ future) outs₂ ∧ f'.ready oob = false := by
  generalize hhs : f.handshaken = handshaken at h
  generalize hbuf : f.buffer ++ future = stream at h
  induction h generalizing f n with
  | nil handshaken =>
    have hnot : f.ready oob = false := by
      rw [List.append_eq_nil_iff] at hbuf
      simp [ready, hbuf.1]
    obtain ⟨n, rfl⟩ := Nat.exists_eq_succ_of_ne_zero (Nat.ne_of_gt (Nat.zero_lt_of_lt hn))
    refine ⟨f, [], [], by simp [whileFuel, hnot], rfl, by simp, ?_, hnot⟩
    rw [hbuf]
    exact .nil _
  | @cons handshaken frame rest outs hframe hrest ih =>
    subst hhs
    obtain ⟨n, rfl⟩ := Nat.exists_eq_succ_of_ne_zero (Nat.ne_of_gt (Nat.zero_lt_of_lt hn))
    by_cases hlong : frame.length ≤ f.buffer.length
    · obtain ⟨tail, hf, hrest'⟩ : ∃ tail, f.buffer = frame ++ tail ∧ tail ++ future = rest := by
        have hpre : frame <+: f.buffer :=
          List.prefix_of_prefix_length_le (hbuf ▸ List.prefix_append frame rest)
            (List.prefix_append f.buffer future) hlong
        obtain ⟨tail, htail⟩ := hpre
        refine ⟨tail, htail.symm, ?_⟩
        rw [← htail, List.append_assoc] at hbuf
        exact List.append_cancel_left hbuf
      obtain ⟨hready, hadv⟩ := advance_of_frame hframe hf
      have hlt : (f.advance oob).buffer.length < n := by
        have := hframe.four_le
        rw [hadv]
        rw [hf, List.length_append] at hn
        change tail.length < n
        omega
      obtain ⟨f', outs₁, outs₂, hrun, houts, hdec, hstream, hnot⟩ :=
        ih hlt (by rw [hadv]) (by rw [hadv, hrest'])
      refine ⟨f', decodeFrame oob f.handshaken frame ++ outs₁, outs₂, ?_, ?_, ?_, hstream, hnot⟩
      · simp [whileFuel, hready, hrun]
      · rw [houts, List.append_assoc]
      · rw [hdec, hadv, List.append_assoc]
    · -- the frame at the front has not arrived completely
      have hnot : f.ready oob = false := by
        by_cases h4 : 4 ≤ f.buffer.length
        · have hlen := len_of_prefix hframe h4 hbuf
          simp [ready, hlen]
          omega
        · simp [ready, h4]
      refine ⟨f, [], decodeFrame oob f.handshaken frame ++ outs, by simp [whileFuel, hnot], rfl,
        by simp, ?_, hnot⟩
      rw [hbuf]
      exact .cons hframe hrest

/-- Feeding the next bytes of a stream decodes the frames that are complete now. -/
lemma feed_stream {f : Framer} {bytes future : ByteString} {outs : List Decoded}
    (h : Stream oob f.handshaken (f.buffer ++ (bytes ++ future)) outs) :
    ∃ f' outs₁ outs₂, f.feed oob bytes = some f' ∧ outs = outs₁ ++ outs₂ ∧
      f'.decoded = f.decoded ++ outs₁ ∧
      Stream oob f'.handshaken (f'.buffer ++ future) outs₂ ∧ f'.ready oob = false := by
  rw [← List.append_assoc] at h
  exact whileFuel_stream (f := f.append bytes) h (Nat.lt_succ_self _)

/-- A stream that is completely in the buffer of a framer with nothing to do is empty. -/
lemma eq_nil_of_not_ready {f : Framer} {outs : List Decoded}
    (h : Stream oob f.handshaken f.buffer outs) (hnot : f.ready oob = false) :
    f.buffer = [] ∧ outs = [] := by
  generalize hbuf : f.buffer = stream at h
  cases h with
  | nil => exact ⟨rfl, rfl⟩
  | cons hframe _ =>
    rw [(advance_of_frame hframe hbuf).1] at hnot
    exact Bool.noConfusion hnot

/-- Feeding a stream in any chunks decodes all of it and leaves the buffer empty. -/
theorem feed_chunks_stream {f : Framer} (hnot : f.ready oob = false) {chunks : List ByteString}
    {outs : List Decoded} (h : Stream oob f.handshaken (f.buffer ++ chunks.flatten) outs) :
    ∃ f', chunks.foldlM (fun f bytes => f.feed oob bytes) f = some f' ∧
      f'.decoded = f.decoded ++ outs ∧ f'.buffer = [] := by
  induction chunks generalizing f outs with
  | nil =>
    rw [List.flatten_nil, List.append_nil] at h
    obtain ⟨hbuf, rfl⟩ := eq_nil_of_not_ready h hnot
    exact ⟨f, rfl, by simp, hbuf⟩
  | cons bytes chunks ih =>
    rw [List.flatten_cons] at h
    obtain ⟨f₁, outs₁, outs₂, hfeed, rfl, hdec, hstream, hnot₁⟩ := feed_stream h
    obtain ⟨f', hrest, hdec', hbuf⟩ := ih hnot₁ hstream
    refine ⟨f', ?_, ?_, hbuf⟩
    · rw [List.foldlM_cons, hfeed]
      exact hrest
    · rw [hdec', hdec, List.append_assoc]

end Framer

/-! ### Prefixes that wrap around -/

/-- Cutting the bytes into frames, one meets a length prefix of at least `2 ^ 32 - 4`. -/
inductive MeetsHugePrefix (oob : Oob) : Bool → ByteString → Prop where
  /-- The prefix of the next message is that large. -/
  | huge {buffer : ByteString} (h4 : 4 ≤ buffer.length)
      (hhuge : uint32Range - 4 ≤ ofBE (buffer.take 4)) : MeetsHugePrefix oob true buffer
  /-- The next message is complete, and such a prefix is met behind it. -/
  | message {buffer : ByteString} (h4 : 4 ≤ buffer.length)
      (hlen : ofBE (buffer.take 4) + 4 ≤ buffer.length)
      (hrest : MeetsHugePrefix oob true (buffer.drop (ofBE (buffer.take 4) + 4))) :
      MeetsHugePrefix oob true buffer
  /-- The handshake is complete, valid or not, and such a prefix is met behind it. -/
  | handshake {first : UInt8} {tail : ByteString}
      (hlen : first.toNat + 49 ≤ (first :: tail).length)
      (hrest : MeetsHugePrefix oob
        (validateHandshake oob ((first :: tail).take (first.toNat + 49)))
        ((first :: tail).drop (first.toNat + 49))) :
      MeetsHugePrefix oob false (first :: tail)

namespace Framer

variable {oob : Oob}

/-- The next frame of a framer that meets no huge prefix has at least four bytes, and it meets none
afterwards. -/
lemma four_le_len {f : Framer} (hready : f.ready oob = true)
    (h : ¬ MeetsHugePrefix oob f.handshaken f.buffer) :
    4 ≤ f.len oob ∧ ¬ MeetsHugePrefix oob (f.advance oob).handshaken (f.advance oob).buffer := by
  obtain ⟨handshaken, buffer, decoded⟩ := f
  obtain ⟨h4, hle⟩ := ready_iff.mp hready
  cases handshaken with
  | true =>
    have hlt : ofBE (buffer.take 4) < uint32Range - 4 := by
      by_contra hcon
      exact h (.huge h4 (Nat.not_lt.mp hcon))
    have hlen : len oob ⟨true, buffer, decoded⟩ = ofBE (buffer.take 4) + 4 :=
      getMsgLen_of_lt oob h4 hlt
    refine ⟨by omega, fun hmeet => h (.message h4 (hlen ▸ hle) ?_)⟩
    rw [← hlen]
    exact hmeet
  | false =>
    match buffer, h4 with
    | first :: tail, _ =>
      refine ⟨?_, fun hmeet => h (.handshake hle hmeet)⟩
      have := le_getMsgLen_false oob (first :: tail)
      exact Nat.le_trans (by decide) this

/-- Without huge prefixes the loop leaves, and every pass removes at least four bytes. -/
lemma terminates_of_no_huge {f : Framer} (h : ¬ MeetsHugePrefix oob f.handshaken f.buffer) :
    Terminates (ready oob) (advance oob) f ∧
      ∀ n, ((pass (ready oob) (advance oob))^[n] f).ready oob = true →
        ((pass (ready oob) (advance oob))^[n + 1] f).buffer.length + 4 ≤
          ((pass (ready oob) (advance oob))^[n] f).buffer.length := by
  have hshort : ∀ g : Framer, g.ready oob = true →
      ¬ MeetsHugePrefix oob g.handshaken g.buffer →
      (g.advance oob).buffer.length + 4 ≤ g.buffer.length := by
    intro g hready hg
    have h4 := (four_le_len hready hg).1
    rw [ready_iff] at hready
    unfold advance
    rw [List.length_drop]
    omega
  constructor
  · refine terminates_of_measure (fun g => g.buffer.length)
      (fun g => ¬ MeetsHugePrefix oob g.handshaken g.buffer) h fun g hg hready => ?_
    have := hshort g hready hg
    exact ⟨(four_le_len hready hg).2, by omega⟩
  · intro n hready
    have hinv : ¬ MeetsHugePrefix oob ((pass (ready oob) (advance oob))^[n] f).handshaken
        ((pass (ready oob) (advance oob))^[n] f).buffer := by
      clear hready
      induction n with
      | zero => exact h
      | succ n ih =>
        rw [Function.iterate_succ_apply']
        cases hr : ((pass (ready oob) (advance oob))^[n] f).ready oob with
        | true =>
          rw [pass_of_guard hr]
          exact (four_le_len hr ih).2
        | false =>
          rw [pass_of_not_guard hr]
          exact ih
    rw [Function.iterate_succ_apply', pass_of_guard hready]
    exact hshort _ hready hinv

/-- A pass over a message with a huge prefix removes less than four bytes. -/
lemma short_pass_of_huge {buffer : ByteString} (decoded : List Decoded) (h4 : 4 ≤ buffer.length)
    (hge : uint32Range - 4 ≤ ofBE (buffer.take 4)) :
    ready oob ⟨true, buffer, decoded⟩ = true ∧
      buffer.length < (advance oob ⟨true, buffer, decoded⟩).buffer.length + 4 := by
  have hlen : len oob ⟨true, buffer, decoded⟩ < 4 := getMsgLen_of_ge oob h4 hge
  constructor
  · exact ready_iff.mpr ⟨h4, Nat.le_trans (Nat.le_of_lt hlen) h4⟩
  · unfold advance
    rw [List.length_drop]
    change buffer.length < buffer.length - len oob ⟨true, buffer, decoded⟩ + 4
    omega

/-- A huge prefix that is met makes some pass of the loop remove less than four bytes. -/
lemma exists_short_pass {handshaken : Bool} {buffer : ByteString}
    (h : MeetsHugePrefix oob handshaken buffer) (decoded : List Decoded) :
    ∃ n, ((pass (ready oob) (advance oob))^[n] ⟨handshaken, buffer, decoded⟩).ready oob = true ∧
      ((pass (ready oob) (advance oob))^[n] ⟨handshaken, buffer, decoded⟩).buffer.length <
        ((pass (ready oob) (advance oob))^[n + 1] ⟨handshaken, buffer, decoded⟩).buffer.length +
          4 := by
  induction h generalizing decoded with
  | huge h4 hge =>
    obtain ⟨hready, hlt⟩ := short_pass_of_huge decoded h4 hge
    refine ⟨0, hready, ?_⟩
    rw [Function.iterate_one, pass_of_guard hready]
    exact hlt
  | @message buffer h4 hle hrest ih =>
    by_cases hge : uint32Range - 4 ≤ ofBE (buffer.take 4)
    · obtain ⟨hready, hlt⟩ := short_pass_of_huge decoded h4 hge
      refine ⟨0, hready, ?_⟩
      rw [Function.iterate_one, pass_of_guard hready]
      exact hlt
    · have hlen : len oob ⟨true, buffer, decoded⟩ = ofBE (buffer.take 4) + 4 :=
        getMsgLen_of_lt oob h4 (Nat.lt_of_not_le hge)
      have hready : ready oob ⟨true, buffer, decoded⟩ = true := by
        rw [ready_iff, hlen]
        exact ⟨h4, hle⟩
      obtain ⟨n, hn, hlt⟩ := ih (advance oob ⟨true, buffer, decoded⟩).decoded
      have hadv : advance oob ⟨true, buffer, decoded⟩ =
          ⟨true, buffer.drop (ofBE (buffer.take 4) + 4),
            (advance oob ⟨true, buffer, decoded⟩).decoded⟩ := by
        simp [advance, hlen]
      refine ⟨n + 1, ?_, ?_⟩
      · rw [Function.iterate_succ_apply, pass_of_guard hready, hadv]
        exact hn
      · rw [Function.iterate_succ_apply, Function.iterate_succ_apply, pass_of_guard hready, hadv]
        exact hlt
  | @handshake first tail hle hrest ih =>
    have hready : ready oob ⟨false, first :: tail, decoded⟩ = true :=
      ready_iff.mpr ⟨by show 4 ≤ (first :: tail).length; omega, hle⟩
    obtain ⟨n, hn, hlt⟩ := ih (advance oob ⟨false, first :: tail, decoded⟩).decoded
    refine ⟨n + 1, ?_, ?_⟩
    · rw [Function.iterate_succ_apply, pass_of_guard hready]
      exact hn
    · rw [Function.iterate_succ_apply, Function.iterate_succ_apply, pass_of_guard hready]
      exact hlt

/-- The loop leaves, and every pass removes a frame header or more, exactly when no huge prefix is
met. -/
theorem progress_iff (f : Framer) :
    (Terminates (ready oob) (advance oob) f ∧
        ∀ n, ((pass (ready oob) (advance oob))^[n] f).ready oob = true →
          ((pass (ready oob) (advance oob))^[n + 1] f).buffer.length + 4 ≤
            ((pass (ready oob) (advance oob))^[n] f).buffer.length) ↔
      ¬ MeetsHugePrefix oob f.handshaken f.buffer := by
  refine ⟨fun hprogress hmeet => ?_, terminates_of_no_huge⟩
  obtain ⟨n, hready, hlt⟩ := exists_short_pass hmeet f.decoded
  exact Nat.not_le.mpr hlt (hprogress.2 n hready)

end Framer

end Tent
