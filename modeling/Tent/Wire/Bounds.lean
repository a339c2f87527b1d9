import Tent.Wire.Chunking

/-!
# What the receive loop looks at

The decoders of `on_read` take bytes from fixed offsets of the buffers they are given.  Here are
their footprints: the reads of `get_msg_len`, of `chop`, of `set_peer_id_and_validate_handshake`, of
the constructor of `message` and of `piece_handler::received`.  They are complete: a pass of the
loop whose reads stay inside does not depend on what lies behind the ends (`pass_eq_of_inside`), and
neither does the key of a piece message (`keyOf_eq_of_inside`).

A pass of the receive loop stays inside exactly if `Framer.Good` holds, and all passes do exactly if
the bytes are `WellFramed`: each handshake has a first byte of at least 19, no length prefix wraps
around, each piece message has a payload of eight bytes, and what remains at the end still has the
bytes that its length is computed from, since the loop computes it before it looks at the size.
-/

set_option autoImplicit false

namespace Tent

open Bytes Transition

/-! ### Footprints -/

/-- The reads of `get_msg_len`. -/
def getMsgLenReads (buffer : ByteString) (handshakeReceived : Bool) : List Read :=
  if !handshakeReceived then [⟨buffer, 0, 1⟩] else [⟨buffer, 0, 4⟩]

/-- The reads of `chop`. -/
def chopReads (buffer : ByteString) (sliceLen : ℕ) : List Read := [⟨buffer, 0, sliceLen⟩]

/-- The reads of `set_peer_id_and_validate_handshake`. -/
def handshakeReads (oob : Oob) (msg : ByteString) : List Read :=
  [⟨msg, 0, 1⟩, ⟨msg, 1, (byteAt oob msg 0).toNat⟩, ⟨msg, 48, 20⟩]

/-- The reads of the constructor `message::message`. -/
def Message.reads (oob : Oob) (buffer : ByteString) : List Read :=
  if peek32 oob buffer = 0 then [⟨buffer, 0, 4⟩]
  else [⟨buffer, 0, 4⟩, ⟨buffer, 4, 1⟩, ⟨buffer, 0, 4⟩, ⟨buffer, 5, peek32 oob buffer - 1⟩]

/-- The reads of `piece_handler::received`: the two words of the key, and the block unless it is
there already. -/
def receivedReads (payload : ByteString) (known : Bool) : List Read :=
  if known then [⟨payload, 0, 4⟩, ⟨payload, 4, 4⟩]
  else [⟨payload, 0, 4⟩, ⟨payload, 4, 4⟩, ⟨payload, 8, payload.length - 8⟩]

/-- The footprint of `get_msg_len` is complete. -/
lemma getMsgLen_eq_of_inside {buffer : ByteString} {handshakeReceived : Bool}
    (h : ∀ r ∈ getMsgLenReads buffer handshakeReceived, r.Inside) (oob oob' : Oob) :
    getMsgLen oob buffer handshakeReceived = getMsgLen oob' buffer handshakeReceived := by
  cases handshakeReceived with
  | false =>
    have hfirst : Read.Inside ⟨buffer, 0, 1⟩ := h _ (List.mem_singleton_self _)
    rw [getMsgLen_false, getMsgLen_false, hfirst.byteAt_eq oob oob']
  | true =>
    have hword : Read.Inside ⟨buffer, 0, 4⟩ := h _ (List.mem_singleton_self _)
    rw [getMsgLen_true, getMsgLen_true, peek32, peek32, hword.window_eq oob oob']

/-- The footprint of `set_peer_id_and_validate_handshake` is complete. -/
lemma handshake_eq_of_inside {oob : Oob} {msg : ByteString}
    (h : ∀ r ∈ handshakeReads oob msg, r.Inside) (oob' : Oob) :
    validateHandshake oob msg = validateHandshake oob' msg ∧
      handshakePeerId oob msg = handshakePeerId oob' msg := by
  simp only [handshakeReads, List.forall_mem_cons] at h
  obtain ⟨hfirst, hproto, hid, -⟩ := h
  constructor
  · unfold validateHandshake
    dsimp only
    rw [← hfirst.byteAt_eq oob oob', hproto.window_eq oob oob']
  · exact hid.window_eq oob oob'

/-- The footprint of the constructor of `message` is complete. -/
lemma ofSlice_eq_of_inside {oob : Oob} {buffer : ByteString}
    (h : ∀ r ∈ Message.reads oob buffer, r.Inside) (oob' : Oob) :
    Message.ofSlice oob buffer = Message.ofSlice oob' buffer := by
  have hword : Read.Inside ⟨buffer, 0, 4⟩ := by
    refine h _ ?_
    unfold Message.reads
    split_ifs <;> exact List.mem_cons_self
  have hpeek : peek32 oob buffer = peek32 oob' buffer := congrArg ofBE (hword.window_eq oob oob')
  unfold Message.ofSlice
  rw [← hpeek]
  split_ifs with hzero
  · rfl
  · rw [Message.reads, if_neg hzero] at h
    simp only [List.forall_mem_cons] at h
    obtain ⟨-, hid, -, hpayload, -⟩ := h
    rw [hid.byteAt_eq oob oob', hpayload.window_eq oob oob']

/-- The footprint of `piece_handler::received` lies inside exactly if the two words do. -/
lemma receivedReads_inside_iff {payload : ByteString} {known : Bool} :
    (∀ r ∈ receivedReads payload known, r.Inside) ↔ 8 ≤ payload.length := by
  cases known with
  | true =>
    simp only [receivedReads, if_true, Read.forall_inside_cons, Read.forall_inside_nil, and_true]
    omega
  | false =>
    simp only [receivedReads, Bool.false_eq_true, if_false, Read.forall_inside_cons,
      Read.forall_inside_nil, and_true]
    omega

/-- The footprint of `piece_handler::received` is complete. -/
lemma keyOf_eq_of_inside {payload : ByteString} {known : Bool}
    (h : ∀ r ∈ receivedReads payload known, r.Inside) (oob oob' : Oob) :
    PieceHandler.keyOf oob payload = PieceHandler.keyOf oob' payload := by
  rw [receivedReads_inside_iff] at h
  have hindex : Read.Inside ⟨payload, 0, 4⟩ := .inr (by show 0 + 4 ≤ payload.length; omega)
  have hbegin : Read.Inside ⟨payload.drop 4, 0, 4⟩ :=
    .inr (by show 0 + 4 ≤ (payload.drop 4).length; rw [List.length_drop]; omega)
  unfold PieceHandler.keyOf
  rw [hindex.window_eq oob oob', hbegin.window_eq oob oob']

/-! ### The footprint of a pass -/

/-- The reads of a frame: those of the decoder that it is given to, and those of
`piece_handler::received` if it is a piece message. -/
def frameReads (oob : Oob) (handshaken known : Bool) (slice : ByteString) : List Read :=
  if !handshaken then handshakeReads oob slice
  else Message.reads oob slice ++
    if (Message.ofSlice oob slice).id = .piece then
      receivedReads (Message.ofSlice oob slice).payload known
    else []

namespace Framer

/-- The reads of a pass of the loop: the length of the frame at the front is computed whether or not
it is complete.  The flag says whether the block of a piece message is there already. -/
def reads (oob : Oob) (known : Bool) (f : Framer) : List Read :=
  getMsgLenReads f.buffer f.handshaken ++
    if f.ready oob then
      chopReads f.buffer (f.len oob) ++
        frameReads oob f.handshaken known (f.buffer.take (f.len oob))
    else []

/-- The footprint of a pass is complete: a pass that stays inside does not depend on what lies
behind the ends of the buffers. -/
theorem pass_eq_of_inside {oob : Oob} {known : Bool} {f : Framer}
    (h : ∀ r ∈ f.reads oob known, r.Inside) (oob' : Oob) :
    pass (ready oob) (advance oob) f = pass (ready oob') (advance oob') f := by
  rw [reads, List.forall_mem_append] at h
  obtain ⟨hlen, hframe⟩ := h
  have hlen' : f.len oob = f.len oob' := getMsgLen_eq_of_inside hlen oob oob'
  have hready' : f.ready oob = f.ready oob' := by
    rw [ready, ready, hlen']
  cases hready : f.ready oob with
  | false => rw [pass_of_not_guard hready, pass_of_not_guard (hready' ▸ hready)]
  | true =>
    rw [if_pos hready, List.forall_mem_append] at hframe
    rw [pass_of_guard hready, pass_of_guard (hready' ▸ hready), advance, advance, ← hlen']
    cases hhs : f.handshaken with
    | false =>
      rw [hhs] at hframe
      have hvalid := (handshake_eq_of_inside hframe.2 oob').1
      simp only [decodeFrame, hvalid, Bool.false_eq_true, if_false]
    | true =>
      rw [hhs] at hframe
      have hmsg := ofSlice_eq_of_inside (List.forall_mem_append.mp hframe.2).1 oob'
      simp only [decodeFrame, hmsg, Bool.true_or, if_true]

/-- The buffer has the bytes that the length is computed from, and the frame at the front, if it is
complete, is one that is decoded without reading behind its end. -/
structure Good (oob : Oob) (f : Framer) : Prop where
  /-- The length can be computed. -/
  header : (if f.handshaken then 4 else 1) ≤ f.buffer.length
  /-- The protocol string of a handshake has at least 19 bytes, so that the peer id lies inside. -/
  handshake : f.handshaken = false → f.ready oob = true → 19 ≤ (byteAt oob f.buffer 0).toNat
  /-- The length prefix of a message does not wrap around. -/
  message : f.handshaken = true → f.ready oob = true →
    ofBE (f.buffer.take 4) < uint32Range - 4
  /-- A piece message has an id byte and the two words of its key. -/
  piece : f.handshaken = true → f.ready oob = true → 0 < ofBE (f.buffer.take 4) →
    byteAt oob f.buffer 4 = MessageId.piece.toByte → 9 ≤ ofBE (f.buffer.take 4)

/-- The length can be computed from the bytes that are there. -/
lemma getMsgLenReads_inside_iff {buffer : ByteString} {handshaken : Bool} :
    (∀ r ∈ getMsgLenReads buffer handshaken, r.Inside) ↔
      (if handshaken then 4 else 1) ≤ buffer.length := by
  cases handshaken with
  | false =>
    simp only [getMsgLenReads, Bool.not_false, if_true, Bool.false_eq_true, if_false,
      Read.forall_inside_cons, Read.forall_inside_nil, and_true]
    omega
  | true =>
    simp only [getMsgLenReads, Bool.not_true, Bool.false_eq_true, if_false, if_true,
      Read.forall_inside_cons, Read.forall_inside_nil, and_true]
    omega

/-- A handshake that is as long as its first byte says is read inside exactly if it has 68 bytes. -/
lemma handshakeReads_inside_iff {oob : Oob} {slice : ByteString}
    (hlen : slice.length = (byteAt oob slice 0).toNat + 49) :
    (∀ r ∈ handshakeReads oob slice, r.Inside) ↔ 19 ≤ (byteAt oob slice 0).toNat := by
  simp only [handshakeReads, Read.forall_inside_cons, Read.forall_inside_nil, and_true, hlen]
  omega

/-- A message that is as long as its prefix says is read inside. -/
lemma messageReads_inside {oob : Oob} {slice : ByteString}
    (hlen : slice.length = peek32 oob slice + 4) : ∀ r ∈ Message.reads oob slice, r.Inside := by
  unfold Message.reads
  split_ifs with hzero
  · simp only [Read.forall_inside_cons, Read.forall_inside_nil, and_true]
    omega
  · simp only [Read.forall_inside_cons, Read.forall_inside_nil, and_true]
    omega

variable {oob : Oob}

/-- A message that is no keep-alive and has the id byte of a piece message is one. -/
lemma id_eq_piece_iff {slice : ByteString} :
    (Message.ofSlice oob slice).id = .piece ↔
      0 < peek32 oob slice ∧ byteAt oob slice 4 = MessageId.piece.toByte := by
  unfold Message.ofSlice
  split_ifs with hzero
  · simp [hzero]
  · have hbyte : MessageId.ofByte (byteAt oob slice 4) = .piece ↔
        byteAt oob slice 4 = MessageId.piece.toByte := by
      refine ⟨fun h => ?_, fun h => ?_⟩
      · rw [← h, MessageId.toByte_ofByte]
      · rw [h]
        rfl
    rw [hbyte]
    exact (and_iff_right (Nat.pos_of_ne_zero hzero)).symm

/-- A handshake that is taken off the front is read inside exactly if its first byte is large
enough. -/
lemma handshake_inside_iff {f : Framer} (hhs : f.handshaken = false) (hready : f.ready oob = true) :
    (∀ r ∈ handshakeReads oob (f.buffer.take (f.len oob)), r.Inside) ↔
      19 ≤ (byteAt oob f.buffer 0).toNat := by
  rw [ready_iff] at hready
  have hlen : f.len oob = (byteAt oob f.buffer 0).toNat + 49 := by
    rw [len, hhs, getMsgLen_false]
  have hfirst : byteAt oob (f.buffer.take (f.len oob)) 0 = byteAt oob f.buffer 0 :=
    byteAt_take oob (by omega) (Nat.lt_of_lt_of_le (by omega) hready.2)
  rw [handshakeReads_inside_iff, hfirst]
  rw [List.length_take, Nat.min_eq_left hready.2, hfirst, hlen]

/-- A message that is taken off the front is read inside exactly if its prefix does not wrap around
and, for a piece message, leaves room for the key. -/
lemma message_inside_iff {f : Framer} (hhs : f.handshaken = true) (hready : f.ready oob = true)
    (known : Bool) :
    (∀ r ∈ frameReads oob true known (f.buffer.take (f.len oob)), r.Inside) ↔
      ofBE (f.buffer.take 4) < uint32Range - 4 ∧
        (0 < ofBE (f.buffer.take 4) → byteAt oob f.buffer 4 = MessageId.piece.toByte →
          9 ≤ ofBE (f.buffer.take 4)) := by
  obtain ⟨h4, hle⟩ := ready_iff.mp hready
  obtain ⟨slice, hslice⟩ : ∃ slice, slice = f.buffer.take (f.len oob) := ⟨_, rfl⟩
  have hlength : slice.length = f.len oob := by
    rw [hslice, List.length_take, Nat.min_eq_left hle]
  rw [← hslice]
  by_cases hlt : ofBE (f.buffer.take 4) < uint32Range - 4
  · have hlen : f.len oob = ofBE (f.buffer.take 4) + 4 := by
      rw [len, hhs, getMsgLen_of_lt oob h4 hlt]
    have hpeek : peek32 oob slice = ofBE (f.buffer.take 4) := by
      rw [peek32_eq oob (by omega), hslice, List.take_take, Nat.min_eq_left (by omega)]
    have hmessage : ∀ r ∈ Message.reads oob slice, r.Inside :=
      messageReads_inside (by rw [hlength, hlen, hpeek])
    rw [frameReads, Bool.not_true, if_neg Bool.false_ne_true, List.forall_mem_append,
      and_iff_right hmessage, and_iff_right hlt]
    split_ifs with hpiece
    · obtain ⟨hpos, hid⟩ := id_eq_piece_iff.mp hpiece
      have hpayload : (Message.ofSlice oob slice).payload.length = peek32 oob slice - 1 := by
        rw [Message.ofSlice, if_neg (Nat.ne_of_gt hpos), length_window]
      have hbyte : byteAt oob slice 4 = byteAt oob f.buffer 4 := by
        rw [hslice]
        exact byteAt_take oob (by omega) (by omega)
      rw [receivedReads_inside_iff, hpayload, hpeek, ← hbyte, hid]
      rw [hpeek] at hpos
      simp only [hpos, forall_const]
      omega
    · refine iff_of_true (by simp) fun hpos hid => absurd (id_eq_piece_iff.mpr ?_) hpiece
      refine ⟨hpeek ▸ hpos, ?_⟩
      rw [hslice, byteAt_take oob (by omega) (by omega), hid]
  · have hshort : f.len oob < 4 := by
      rw [len, hhs]
      exact getMsgLen_of_ge oob h4 (Nat.not_lt.mp hlt)
    refine iff_of_false (fun hinside => ?_) fun hgood => hlt hgood.1
    have hword : Read.Inside ⟨slice, 0, 4⟩ := by
      refine hinside _ (List.mem_append_left _ ?_)
      unfold Message.reads
      split_ifs <;> exact List.mem_cons_self
    rw [Read.inside_iff (by omega), hlength] at hword
    omega

/-- A pass of the loop stays inside exactly if the frame at the front is good. -/
theorem reads_inside_iff (oob : Oob) (known : Bool) (f : Framer) :
    (∀ r ∈ f.reads oob known, r.Inside) ↔ f.Good oob := by
  rw [reads, List.forall_mem_append, getMsgLenReads_inside_iff]
  cases hready : f.ready oob with
  | false =>
    refine ⟨fun h => ⟨h.1, ?_, ?_, ?_⟩, fun h => ⟨h.header, by simp⟩⟩
    all_goals simp [hready]
  | true =>
    have hchop : ∀ r ∈ chopReads f.buffer (f.len oob), r.Inside := by
      rw [ready_iff] at hready
      simp [chopReads, Read.Inside, hready.2]
    rw [if_pos rfl, List.forall_mem_append, and_iff_right hchop]
    cases hhs : f.handshaken with
    | false =>
      rw [frameReads, Bool.not_false, if_pos rfl, handshake_inside_iff hhs hready]
      refine ⟨fun h => ⟨?_, fun _ _ => h.2, ?_, ?_⟩, fun h => ⟨?_, h.handshake hhs hready⟩⟩
      · rw [hhs]
        exact h.1
      · simp [hhs]
      · simp [hhs]
      · have hheader := h.header
        rwa [hhs] at hheader
    | true =>
      rw [message_inside_iff hhs hready known]
      refine ⟨fun h => ⟨?_, ?_, fun _ _ => h.2.1, fun _ _ => h.2.2⟩,
        fun h => ⟨?_, h.message hhs hready, h.piece hhs hready⟩⟩
      · rw [hhs]
        exact h.1
      · simp [hhs]
      · have hheader := h.header
        rwa [hhs] at hheader

end Framer

/-! ### All passes -/

/-- Bytes that the receive loop takes apart without looking behind an end: cut into frames, and a
part of another one that has at least the bytes its length is computed from. -/
inductive WellFramed (oob : Oob) : Bool → ByteString → Prop where
  /-- A part of a handshake. -/
  | partialHandshake {first : UInt8} {tail : ByteString}
      (hshort : (first :: tail).length < first.toNat + 49) : WellFramed oob false (first :: tail)
  /-- A handshake, valid or not, whose protocol string has at least 19 bytes. -/
  | handshake {first : UInt8} {tail : ByteString} (hproto : 19 ≤ first.toNat)
      (hlen : first.toNat + 49 ≤ (first :: tail).length)
      (hrest : WellFramed oob (validateHandshake oob ((first :: tail).take (first.toNat + 49)))
        ((first :: tail).drop (first.toNat + 49))) : WellFramed oob false (first :: tail)
  /-- A part of a message, with the whole length prefix. -/
  | partialMessage {buffer : ByteString} (h4 : 4 ≤ buffer.length)
      (hlt : ofBE (buffer.take 4) < uint32Range - 4)
      (hshort : buffer.length < ofBE (buffer.take 4) + 4) : WellFramed oob true buffer
  /-- A message; if it is a piece message, its payload has room for the key. -/
  | message {buffer : ByteString} (h4 : 4 ≤ buffer.length)
      (hlt : ofBE (buffer.take 4) < uint32Range - 4)
      (hlen : ofBE (buffer.take 4) + 4 ≤ buffer.length)
      (hpiece : 0 < ofBE (buffer.take 4) →
        byteAt oob buffer 4 = MessageId.piece.toByte → 9 ≤ ofBE (buffer.take 4))
      (hrest : WellFramed oob true (buffer.drop (ofBE (buffer.take 4) + 4))) :
      WellFramed oob true buffer

namespace Framer

variable {oob : Oob}

/-- All passes of the loop are good. -/
def AllGood (oob : Oob) (f : Framer) : Prop :=
  ∀ n, ((pass (ready oob) (advance oob))^[n] f).Good oob

/-- All passes are good if the first one and the passes after it are. -/
lemma allGood_iff {f : Framer} :
    f.AllGood oob ↔ f.Good oob ∧ (f.ready oob = true → (f.advance oob).AllGood oob) := by
  constructor
  · intro h
    refine ⟨h 0, fun hready n => ?_⟩
    have hnext := h (n + 1)
    rwa [Function.iterate_succ_apply, pass_of_guard hready] at hnext
  · rintro ⟨hhere, hnext⟩ n
    cases hready : f.ready oob with
    | false =>
      rw [iterate_pass_of_not_guard hready]
      exact hhere
    | true =>
      cases n with
      | zero => exact hhere
      | succ n =>
        rw [Function.iterate_succ_apply, pass_of_guard hready]
        exact hnext hready n

/-- A good frame has at least four bytes. -/
lemma Good.four_le_len {f : Framer} (h : f.Good oob) (hready : f.ready oob = true) :
    4 ≤ f.len oob := by
  have h4 := ready_iff.mp hready
  cases hhs : f.handshaken with
  | false =>
    have hlong := le_getMsgLen_false oob f.buffer
    rw [len, hhs]
    omega
  | true =>
    rw [len, hhs, getMsgLen_of_lt oob h4.1 (h.message hhs hready)]
    omega

/-- Taking a part of a handshake or a handshake off the front. -/
lemma wellFramed_false_iff {f : Framer} (hhs : f.handshaken = false) :
    WellFramed oob false f.buffer ↔
      f.Good oob ∧ (f.ready oob = true →
        WellFramed oob (f.advance oob).handshaken (f.advance oob).buffer) := by
  obtain ⟨handshaken, buffer, decoded⟩ := f
  obtain rfl : handshaken = false := hhs
  cases buffer with
  | nil =>
    refine iff_of_false (fun h => ?_) fun h => ?_
    · cases h
    · exact absurd h.1.header (by simp)
  | cons first tail =>
    have hlen : len oob ⟨false, first :: tail, decoded⟩ = first.toNat + 49 := rfl
    have hready : ready oob ⟨false, first :: tail, decoded⟩ = true ↔
        first.toNat + 49 ≤ (first :: tail).length := by
      rw [ready_iff, hlen]
      refine and_iff_right_of_imp fun hle => ?_
      exact Nat.le_trans (Nat.le_trans (by decide) (Nat.le_add_left 49 _)) hle
    rw [hready]
    constructor
    · intro h
      cases h with
      | partialHandshake hshort =>
        have hnot := Nat.not_le.mpr hshort
        exact ⟨⟨by simp, fun _ hr => absurd (hready.mp hr) hnot, by simp, by simp⟩,
          fun hle => absurd hle hnot⟩
      | handshake hproto hle hrest =>
        exact ⟨⟨by simp, fun _ _ => hproto, by simp, by simp⟩, fun _ => hrest⟩
    · rintro ⟨hgood, hnext⟩
      by_cases hle : first.toNat + 49 ≤ (first :: tail).length
      · exact .handshake (hgood.handshake rfl (hready.mpr hle)) hle (hnext hle)
      · exact .partialHandshake (Nat.lt_of_not_le hle)

/-- Taking a part of a message or a message off the front. -/
lemma wellFramed_true_iff {f : Framer} (hhs : f.handshaken = true) :
    WellFramed oob true f.buffer ↔
      f.Good oob ∧ (f.ready oob = true →
        WellFramed oob (f.advance oob).handshaken (f.advance oob).buffer) := by
  obtain ⟨handshaken, buffer, decoded⟩ := f
  obtain rfl : handshaken = true := hhs
  by_cases h4 : 4 ≤ buffer.length
  · by_cases hlt : ofBE (buffer.take 4) < uint32Range - 4
    · have hlen : len oob ⟨true, buffer, decoded⟩ = ofBE (buffer.take 4) + 4 :=
        getMsgLen_of_lt oob h4 hlt
      have hready : ready oob ⟨true, buffer, decoded⟩ = true ↔
          ofBE (buffer.take 4) + 4 ≤ buffer.length := by
        rw [ready_iff, hlen]
        exact and_iff_right h4
      have hadvance : (advance oob ⟨true, buffer, decoded⟩).buffer =
          buffer.drop (ofBE (buffer.take 4) + 4) := by
        rw [advance, hlen]
      rw [hready, hadvance]
      constructor
      · intro h
        cases h with
        | partialMessage _ _ hshort =>
          have hnot := Nat.not_le.mpr hshort
          exact ⟨⟨h4, by simp, fun _ _ => hlt, fun _ hr => absurd (hready.mp hr) hnot⟩,
            fun hle => absurd hle hnot⟩
        | message _ _ hle hpiece hrest =>
          exact ⟨⟨h4, by simp, fun _ _ => hlt, fun _ _ => hpiece⟩, fun _ => hrest⟩
      · rintro ⟨hgood, hnext⟩
        by_cases hle : ofBE (buffer.take 4) + 4 ≤ buffer.length
        · exact .message h4 hlt hle (hgood.piece rfl (hready.mpr hle)) (hnext hle)
        · exact .partialMessage h4 hlt (Nat.lt_of_not_le hle)
    · refine iff_of_false (fun h => ?_) fun h => hlt (h.1.message rfl ?_)
      · cases h with
        | partialMessage _ hlt' _ => exact hlt hlt'
        | message _ hlt' _ _ _ => exact hlt hlt'
      · have hshort := getMsgLen_of_ge oob h4 (Nat.not_lt.mp hlt)
        exact ready_iff.mpr ⟨h4, Nat.le_trans (Nat.le_of_lt hshort) h4⟩
  · refine iff_of_false (fun h => ?_) fun h => h4 h.1.header
    cases h with
    | partialMessage h4' _ _ => exact h4 h4'
    | message h4' _ _ _ _ => exact h4 h4'

/-- Well-framed bytes are those that all passes of the loop are good on. -/
theorem allGood_iff_wellFramed (f : Framer) :
    f.AllGood oob ↔ WellFramed oob f.handshaken f.buffer := by
  induction hn : f.buffer.length using Nat.strong_induction_on generalizing f with
  | _ n ih =>
    have hunroll : WellFramed oob f.handshaken f.buffer ↔
        f.Good oob ∧ (f.ready oob = true →
          WellFramed oob (f.advance oob).handshaken (f.advance oob).buffer) := by
      cases hhs : f.handshaken with
      | false => exact wellFramed_false_iff hhs
      | true => exact wellFramed_true_iff hhs
    rw [allGood_iff, hunroll]
    refine and_congr_right fun hgood => forall_congr' fun hready => ?_
    have h4 := hgood.four_le_len hready
    refine ih _ ?_ (f.advance oob) rfl
    rw [ready_iff] at hready
    rw [advance, List.length_drop]
    omega

/-- A complete good frame stays good when more bytes arrive. -/
lemma good_append {f : Framer} (h : f.Good oob) (hready : f.ready oob = true) (more : ByteString) :
    (f.append more).Good oob := by
  obtain ⟨h4, hle⟩ := ready_iff.mp hready
  have hbyte : ∀ {i : ℕ}, i < f.buffer.length →
      byteAt oob (f.append more).buffer i = byteAt oob f.buffer i := by
    intro i hi
    simp [append, byteAt, List.getElem?_append_left hi, List.getElem?_eq_getElem hi]
  have htake : (f.append more).buffer.take 4 = f.buffer.take 4 :=
    List.take_append_of_le_length h4
  refine ⟨?_, fun hhs _ => ?_, fun hhs _ => ?_, fun hhs _ => ?_⟩
  · refine Nat.le_trans h.header ?_
    rw [append, List.length_append]
    exact Nat.le_add_right _ _
  · rw [hbyte (by omega)]
    exact h.handshake hhs hready
  · rw [htake]
    exact h.message hhs hready
  · have hhs' : f.handshaken = true := hhs
    have hlen : f.len oob = ofBE (f.buffer.take 4) + 4 := by
      rw [len, hhs', getMsgLen_of_lt oob h4 (h.message hhs' hready)]
    rw [htake]
    intro hpos hid
    rw [hbyte (by omega)] at hid
    exact h.piece hhs hready hpos hid

/-- Bytes that arrive later are well framed together with what is there exactly if they are together
with what the passes leave of it. -/
lemma allGood_append_iff {f : Framer} (h : f.AllGood oob) (more : ByteString) (n : ℕ) :
    (f.append more).AllGood oob ↔
      (((pass (ready oob) (advance oob))^[n] f).append more).AllGood oob := by
  induction n generalizing f with
  | zero => rfl
  | succ n ih =>
    rw [Function.iterate_succ_apply]
    obtain ⟨hgood, hnext⟩ := allGood_iff.mp h
    cases hready : f.ready oob with
    | false =>
      rw [pass_of_not_guard hready]
      exact ih h
    | true =>
      obtain ⟨hready', hadvance⟩ := advance_append hready more
      rw [pass_of_guard hready, ← ih (hnext hready), allGood_iff, hadvance]
      exact ⟨fun hall => hall.2 hready', fun hall => ⟨good_append hgood hready more, fun _ => hall⟩⟩

end Framer

/-- No length prefix in well-framed bytes wraps around. -/
lemma WellFramed.not_meetsHugePrefix {oob : Oob} {handshaken : Bool} {buffer : ByteString}
    (h : WellFramed oob handshaken buffer) : ¬ MeetsHugePrefix oob handshaken buffer := by
  induction h with
  | partialHandshake hshort =>
    intro hmeet
    cases hmeet with
    | handshake hlen _ => exact Nat.not_le.mpr hshort hlen
  | handshake _ _ _ ih =>
    intro hmeet
    cases hmeet with
    | handshake _ hrest => exact ih hrest
  | partialMessage _ hlt hshort =>
    intro hmeet
    cases hmeet with
    | huge _ hhuge => exact Nat.not_le.mpr hlt hhuge
    | message _ hlen _ => exact Nat.not_le.mpr hshort hlen
  | message _ hlt _ _ _ ih =>
    intro hmeet
    cases hmeet with
    | huge _ hhuge => exact Nat.not_le.mpr hlt hhuge
    | message _ _ hrest => exact ih hrest

end Tent
