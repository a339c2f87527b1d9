import Tent.Wire.Framer

/-!
# Splitting a stream

The framer does not notice how a stream is split into chunks.  A pass of its loop looks at the bytes
of one frame, so bytes that arrive behind a complete frame do not change the pass
(`advance_append`), and feeding two chunks is feeding their concatenation (`feed_append`).  The one
exception are length prefixes that wrap around, on which the loop need not end.

The framer computes the length of a frame before it looks at the size of the buffer, so it may read
behind the end.  Nothing depends on what it finds there: `feed_oracle` exchanges the oracle.
-/

set_option autoImplicit false

namespace Tent

open Bytes Transition

/-! ### Reads behind the end do not matter -/

/-- The first byte of a buffer that has one. -/
lemma byteAt_zero_oracle (oob oob' : Oob) {buffer : ByteString} (h : buffer ≠ []) :
    byteAt oob buffer 0 = byteAt oob' buffer 0 := by
  obtain ⟨first, rest, rfl⟩ := List.exists_cons_of_ne_nil h
  rfl

/-- The length of a frame of which four bytes are there does not depend on the oracle. -/
lemma getMsgLen_oracle (oob oob' : Oob) {buffer : ByteString} (h : 4 ≤ buffer.length)
    (handshaken : Bool) : getMsgLen oob buffer handshaken = getMsgLen oob' buffer handshaken := by
  cases handshaken with
  | true => rw [getMsgLen_true, getMsgLen_true, peek32_eq oob h, peek32_eq oob' h]
  | false =>
    have hne : buffer ≠ [] := List.ne_nil_of_length_pos (by omega)
    rw [getMsgLen_false, getMsgLen_false, byteAt_zero_oracle oob oob' hne]

/-- The protocol string is compared only if the length of the slice is right, and then it lies
inside. -/
lemma validateHandshake_oracle (oob oob' : Oob) (slice : ByteString) :
    validateHandshake oob slice = validateHandshake oob' slice := by
  by_cases hne : slice = []
  · subst hne
    simp [validateHandshake]
  · unfold validateHandshake
    rw [byteAt_zero_oracle oob oob' hne]
    dsimp only
    by_cases hlen : slice.length = (byteAt oob' slice 0).toNat + 49
    · have hin : 1 + (byteAt oob' slice 0).toNat ≤ slice.length := by omega
      rw [window_eq_of_le oob hin, window_eq_of_le oob' hin]
    · rw [beq_eq_false_iff_ne.mpr hlen, Bool.false_and, Bool.false_and]

/-- A slice that is as long as its prefix says is parsed without reading behind its end. -/
lemma ofSlice_oracle (oob oob' : Oob) {slice : ByteString} (h4 : 4 ≤ slice.length)
    (hlen : ofBE (slice.take 4) + 4 ≤ slice.length) :
    Message.ofSlice oob slice = Message.ofSlice oob' slice := by
  unfold Message.ofSlice
  rw [peek32_eq oob h4, peek32_eq oob' h4]
  split_ifs with hzero
  · rfl
  · have hbyte : byteAt oob slice 4 = byteAt oob' slice 4 := by
      have hlt : 4 < slice.length := by omega
      simp [byteAt, hlt]
    have hin : 5 + (ofBE (slice.take 4) - 1) ≤ slice.length := by omega
    rw [hbyte, window_eq_of_le oob hin, window_eq_of_le oob' hin]

/-- Whether a huge prefix is met does not depend on the oracle. -/
lemma MeetsHugePrefix.oracle {oob : Oob} {handshaken : Bool} {buffer : ByteString}
    (h : MeetsHugePrefix oob handshaken buffer) (oob' : Oob) :
    MeetsHugePrefix oob' handshaken buffer := by
  induction h with
  | huge h4 hhuge => exact .huge h4 hhuge
  | message h4 hlen _ ih => exact .message h4 hlen ih
  | handshake hlen _ ih =>
    refine .handshake hlen ?_
    rw [validateHandshake_oracle oob' oob]
    exact ih

namespace Framer

/-- The guard of the loop does not depend on the oracle. -/
lemma ready_oracle (oob oob' : Oob) (f : Framer) : f.ready oob = f.ready oob' := by
  unfold ready
  by_cases h4 : 4 ≤ f.buffer.length
  · rw [len, len, getMsgLen_oracle oob oob' h4]
  · simp [h4]

/-- A pass over a frame without a huge prefix does not depend on the oracle. -/
lemma advance_oracle (oob oob' : Oob) {f : Framer} (hready : f.ready oob = true)
    (h : ¬ MeetsHugePrefix oob f.handshaken f.buffer) : f.advance oob = f.advance oob' := by
  obtain ⟨h4, hle⟩ := ready_iff.mp hready
  have hlen : f.len oob = f.len oob' := getMsgLen_oracle oob oob' h4 f.handshaken
  have hslice4 : 4 ≤ (f.buffer.take (f.len oob)).length := by
    rw [List.length_take]
    exact Nat.le_min.mpr ⟨(four_le_len hready h).1, h4⟩
  have hdecode : decodeFrame oob f.handshaken (f.buffer.take (f.len oob)) =
      decodeFrame oob' f.handshaken (f.buffer.take (f.len oob)) := by
    unfold decodeFrame
    cases hhs : f.handshaken with
    | false =>
      rw [if_neg Bool.false_ne_true, if_neg Bool.false_ne_true, validateHandshake_oracle oob oob']
    | true =>
      have hlt : ofBE (f.buffer.take 4) < uint32Range - 4 := by
        by_contra hcon
        rw [hhs] at h
        exact h (.huge h4 (Nat.not_lt.mp hcon))
      have hfull : f.len oob = ofBE (f.buffer.take 4) + 4 := by
        rw [len, hhs, getMsgLen_of_lt oob h4 hlt]
      have htake : (f.buffer.take (f.len oob)).take 4 = f.buffer.take 4 := by
        rw [List.take_take, Nat.min_eq_left (by omega)]
      have hmsg := ofSlice_oracle oob oob' hslice4 (by
        rw [htake, List.length_take]
        omega)
      rw [if_pos rfl, if_pos rfl, hmsg]
  unfold advance
  rw [← hlen, hdecode, validateHandshake_oracle oob oob']

/-- Feeding bytes among which no huge prefix is met does not depend on the oracle. -/
theorem feed_oracle (oob oob' : Oob) {f : Framer} {bytes : ByteString}
    (h : ¬ MeetsHugePrefix oob f.handshaken (f.buffer ++ bytes)) :
    f.feed oob bytes = f.feed oob' bytes := by
  refine whileFuel_congr (I := fun f => ¬ MeetsHugePrefix oob f.handshaken f.buffer)
    (fun f _ => ready_oracle oob oob' f) ?_ _ h
  intro f hf hready
  exact ⟨advance_oracle oob oob' hready hf, (four_le_len hready hf).2⟩

end Framer

/-! ### Bytes that arrive later -/

/-- A huge prefix that is met in some bytes is met in every continuation of them. -/
lemma MeetsHugePrefix.append {oob : Oob} {handshaken : Bool} {buffer : ByteString}
    (h : MeetsHugePrefix oob handshaken buffer) (more : ByteString) :
    MeetsHugePrefix oob handshaken (buffer ++ more) := by
  induction h with
  | @huge buffer h4 hhuge =>
    refine .huge (by rw [List.length_append]; omega) ?_
    rwa [List.take_append_of_le_length h4]
  | @message buffer h4 hlen _ ih =>
    refine .message (by rw [List.length_append]; omega) ?_ ?_
    · rw [List.take_append_of_le_length h4, List.length_append]
      omega
    · rwa [List.take_append_of_le_length h4, List.drop_append_of_le_length hlen]
  | @handshake first tail hlen _ ih =>
    rw [List.cons_append]
    refine .handshake ?_ ?_
    · rw [List.length_cons, List.length_append]
      rw [List.length_cons] at hlen
      omega
    · rwa [← List.cons_append, List.take_append_of_le_length hlen,
        List.drop_append_of_le_length hlen]

namespace Framer

variable {oob : Oob}

/-- Bytes behind a complete frame do not change the pass that takes it off. -/
lemma advance_append {f : Framer} (hready : f.ready oob = true) (more : ByteString) :
    (f.append more).ready oob = true ∧
      (f.append more).advance oob = (f.advance oob).append more := by
  obtain ⟨h4, hle⟩ := ready_iff.mp hready
  have h4' : 4 ≤ (f.append more).buffer.length := by
    change 4 ≤ (f.buffer ++ more).length
    rw [List.length_append]
    omega
  have hlen : (f.append more).len oob = f.len oob :=
    getMsgLen_congr oob h4' h4 (List.take_append_of_le_length h4) f.handshaken
  have htake : (f.append more).buffer.take (f.len oob) = f.buffer.take (f.len oob) :=
    List.take_append_of_le_length hle
  have hdrop : (f.append more).buffer.drop (f.len oob) = f.buffer.drop (f.len oob) ++ more :=
    List.drop_append_of_le_length hle
  constructor
  · rw [ready_iff, hlen]
    refine ⟨h4', ?_⟩
    change f.len oob ≤ (f.buffer ++ more).length
    rw [List.length_append]
    omega
  · unfold advance
    rw [hlen, htake, hdrop]
    rfl

variable (oob) in
/-- The passes over some bytes are passes over every continuation of them. -/
lemma iterate_append (f : Framer) (more : ByteString) (n : ℕ) :
    ∃ k, (pass (ready oob) (advance oob))^[k] (f.append more) =
      ((pass (ready oob) (advance oob))^[n] f).append more := by
  induction n generalizing f with
  | zero => exact ⟨0, rfl⟩
  | succ n ih =>
    rw [Function.iterate_succ_apply]
    cases hready : f.ready oob with
    | false =>
      rw [pass_of_not_guard hready]
      exact ih f
    | true =>
      obtain ⟨hready', hadvance⟩ := advance_append hready more
      obtain ⟨k, hk⟩ := ih (f.advance oob)
      refine ⟨k + 1, ?_⟩
      rw [Function.iterate_succ_apply, pass_of_guard hready', hadvance, pass_of_guard hready, hk]

/-- The passes over bytes without huge prefixes do not come upon one in a continuation without. -/
lemma not_meets_iterate {f : Framer} {more : ByteString}
    (h : ¬ MeetsHugePrefix oob f.handshaken (f.buffer ++ more)) (n : ℕ) :
    ¬ MeetsHugePrefix oob ((pass (ready oob) (advance oob))^[n] f).handshaken
      (((pass (ready oob) (advance oob))^[n] f).buffer ++ more) := by
  induction n generalizing f with
  | zero => exact h
  | succ n ih =>
    rw [Function.iterate_succ_apply]
    cases hready : f.ready oob with
    | false =>
      rw [pass_of_not_guard hready]
      exact ih h
    | true =>
      obtain ⟨hready', hadvance⟩ := advance_append hready more
      rw [pass_of_guard hready]
      refine ih ?_
      have hnext := (four_le_len hready' h).2
      rw [hadvance] at hnext
      exact hnext

/-- Feeding bytes among which no huge prefix is met returns, with nothing left to do. -/
lemma feed_returns {f : Framer} {bytes : ByteString}
    (h : ¬ MeetsHugePrefix oob f.handshaken (f.buffer ++ bytes)) :
    ∃ f', f.feed oob bytes = some f' ∧ f'.ready oob = false := by
  obtain ⟨-, hprogress⟩ := terminates_of_no_huge (f := f.append bytes) h
  refine whileFuel_of_measure (fun f : Framer => f.buffer.length) fun n hready => ?_
  have hshorter := hprogress n hready
  omega

/-- Feeding two chunks is feeding their concatenation. -/
theorem feed_append {f : Framer} {a b : ByteString}
    (h : ¬ MeetsHugePrefix oob f.handshaken (f.buffer ++ (a ++ b))) :
    f.feed oob (a ++ b) = (f.feed oob a).bind fun f' => f'.feed oob b := by
  rw [← List.append_assoc] at h
  obtain ⟨f₁, hfeed₁, -⟩ := feed_returns fun hmeet => h (hmeet.append b)
  obtain ⟨f₂, hfeed₂, hnot₂⟩ : ∃ f₂, f₁.feed oob b = some f₂ ∧ f₂.ready oob = false := by
    obtain ⟨n, -, rfl, -⟩ := whileFuel_eq_some_iff.mp hfeed₁
    exact feed_returns (not_meets_iterate (f := f.append a) h n)
  have hall : ¬ MeetsHugePrefix oob f.handshaken (f.buffer ++ (a ++ b)) := by
    rwa [← List.append_assoc]
  obtain ⟨f₃, hfeed₃, -⟩ := feed_returns hall
  rw [hfeed₁, hfeed₃]
  change some f₃ = f₁.feed oob b
  rw [hfeed₂]
  -- both loops run over the same bytes until nothing is left to do
  obtain ⟨n, -, hn, -⟩ := whileFuel_eq_some_iff.mp hfeed₁
  obtain ⟨k, hk⟩ := iterate_append oob (f.append a) b n
  obtain ⟨m, -, hm, -⟩ := whileFuel_eq_some_iff.mp hfeed₂
  have hboth : (pass (ready oob) (advance oob))^[m + k] (f.append (a ++ b)) = f₂ := by
    have hassoc : f.append (a ++ b) = (f.append a).append b := by
      unfold append
      rw [List.append_assoc]
    rw [hassoc, Function.iterate_add_apply, hk, hn, hm]
  have hlong : whileFuel (ready oob) (advance oob) (m + k + 1) (f.append (a ++ b)) = some f₂ :=
    whileFuel_eq_some_iff.mpr ⟨m + k, Nat.lt_succ_self _, hboth, hnot₂⟩
  exact congrArg some (whileFuel_unique hfeed₃ hlong)

/-- Feeding chunks, at least one, is feeding their concatenation. -/
theorem feed_chunks {f : Framer} {chunks : List ByteString} (hne : chunks ≠ [])
    (h : ¬ MeetsHugePrefix oob f.handshaken (f.buffer ++ chunks.flatten)) :
    chunks.foldlM (fun f bytes => f.feed oob bytes) f = f.feed oob chunks.flatten := by
  induction chunks generalizing f with
  | nil => exact absurd rfl hne
  | cons bytes chunks ih =>
    rw [List.flatten_cons] at h
    rw [List.foldlM_cons, List.flatten_cons]
    by_cases hlast : chunks = []
    · subst hlast
      rw [List.flatten_nil, List.append_nil]
      cases f.feed oob bytes with
      | none => rfl
      | some f' => rfl
    · rw [feed_append h]
      have hfirst : ¬ MeetsHugePrefix oob f.handshaken (f.buffer ++ bytes) := fun hmeet =>
        h (by rw [← List.append_assoc]; exact hmeet.append _)
      obtain ⟨f', hfeed, -⟩ := feed_returns hfirst
      have hnext : ¬ MeetsHugePrefix oob f'.handshaken (f'.buffer ++ chunks.flatten) := by
        obtain ⟨n, -, rfl, -⟩ := whileFuel_eq_some_iff.mp hfeed
        rw [← List.append_assoc] at h
        exact not_meets_iterate (f := f.append bytes) h n
      rw [hfeed]
      exact ih hlast hnext

end Framer

end Tent
