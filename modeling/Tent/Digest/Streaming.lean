import Mathlib.Tactic.SplitIfs
import Tent.Digest.Transform

/-!
# Updates of any length

A context *represents* a message (`Represents`) if its state has absorbed the whole blocks of the
message, its buffer begins with the rest and its two counters hold the number of bits.  An update
appends to the message (`sha1Update_represents`), wherever the data are split, and the digest of a
context is that of the message (`sha1Final_represents`).

The counters are right up to one slip: the carry of the lower one is found by comparing it with the
number of bits of the update, which is a `size_t`, and an update of 2^29 bytes or more is taken to
carry even if it does not (`Overcounted`).  `hasherDigest_of_updates` says what is computed for
every sequence of updates, and `hasherDigest_eq_sha1` that it is SHA-1 when all of them are
shorter.
-/

set_option autoImplicit false

namespace Tent

open Bytes SecureHash Absorb

/-! ### The number of bits -/

/-- The number of bits in two halves. -/
def countOf (count0 count1 : Word) : ℕ := count1.toNat * 2 ^ 32 + count0.toNat

/-- An update that counts 2^32 bits too many, given how many bytes came before. -/
def Overcounted (before len : ℕ) : Prop :=
  2 ^ 32 ≤ 8 * len % 2 ^ 64 ∧ 8 * before % 2 ^ 32 + 8 * len % 2 ^ 32 < 2 ^ 32

instance (before len : ℕ) : Decidable (Overcounted before len) :=
  inferInstanceAs (Decidable (_ ∧ _))

/-- A short update is counted right. -/
lemma not_overcounted {before len : ℕ} (h : len < 2 ^ 29) : ¬ Overcounted before len := by
  rintro ⟨hlarge, -⟩
  omega

/-- The number of bits after an update. -/
lemma countOf_countUpdate {before len : ℕ} {count0 count1 : Word}
    (hcount : count0.toNat = 8 * before % 2 ^ 32) :
    countOf (countUpdate len count0 count1).1 (countUpdate len count0 count1).2 =
      (countOf count0 count1 + 8 * len + if Overcounted before len then 2 ^ 32 else 0) %
        2 ^ 64 := by
  have hlow : (count0 + BitVec.ofNat 32 (len * 8 % 2 ^ 64)).toNat =
      (count0.toNat + len * 8 % 2 ^ 64 % 2 ^ 32) % 2 ^ 32 := by
    rw [BitVec.toNat_add, BitVec.toNat_ofNat]
  have hhigh : ∀ c : Word, (c + BitVec.ofNat 32 (len / 2 ^ 29)).toNat =
      (c.toNat + len / 2 ^ 29 % 2 ^ 32) % 2 ^ 32 := by
    intro c
    rw [BitVec.toNat_add, BitVec.toNat_ofNat]
  have hone : (count1 + 1).toNat = (count1.toNat + 1) % 2 ^ 32 := BitVec.toNat_add _ _
  have h₀ := count0.isLt
  have h₁ := count1.isLt
  by_cases hover : Overcounted before len
  · rw [if_pos hover]
    unfold Overcounted at hover
    unfold countUpdate countOf
    simp only [hlow, hhigh]
    split_ifs
    · rw [hone]
      omega
    · omega
  · rw [if_neg hover]
    unfold Overcounted at hover
    unfold countUpdate countOf
    simp only [hlow, hhigh]
    split_ifs
    · rw [hone]
      omega
    · omega

/-- The lower half after an update. -/
lemma countUpdate_fst_toNat {before len : ℕ} {count0 count1 : Word}
    (hcount : count0.toNat = 8 * before % 2 ^ 32) :
    (countUpdate len count0 count1).1.toNat = 8 * (before + len) % 2 ^ 32 := by
  unfold countUpdate
  simp only [BitVec.toNat_add, BitVec.toNat_ofNat, hcount]
  omega

/-! ### Contexts and messages -/

/-- A context after the updates whose data make up a message, with 2^32 bits too many counted
`surplus` times. -/
structure Represents (message : ByteString) (surplus : ℕ) (ctx : Sha1Ctx) : Prop where
  /-- The whole blocks are absorbed. -/
  state_eq : ctx.state = absorb compress 64 initial message
  /-- The buffer begins with what is behind them. -/
  buffer_eq : ctx.buffer.bytes.take (message.length % 64) = rest 64 message
  /-- The lower half of the number of bits is right. -/
  count0_eq : ctx.count0.toNat = 8 * message.length % 2 ^ 32
  /-- The number of bits. -/
  count_eq : countOf ctx.count0 ctx.count1 = (8 * message.length + 2 ^ 32 * surplus) % 2 ^ 64

/-- A context that was initialised represents the empty message. -/
lemma represents_init (buffer : Sha1Buffer) : Represents [] 0 (sha1Init buffer) where
  state_eq := (absorb_of_lt (by decide)).symm
  buffer_eq := rfl
  count0_eq := show (0 : Word).toNat = 8 * 0 % 2 ^ 32 by decide
  count_eq := show countOf 0 0 = (8 * 0 + 2 ^ 32 * 0) % 2 ^ 64 by decide

/-- A copy that fits. -/
lemma Sha1Buffer.memcpy_eq (buffer : Sha1Buffer) {j : ℕ} {src : ByteString}
    (h : j + src.length ≤ 64) :
    ∃ buffer', buffer.memcpy j src = some buffer' ∧
      buffer'.bytes = buffer.bytes.take j ++ src ++ buffer.bytes.drop (j + src.length) := by
  unfold Sha1Buffer.memcpy
  rw [dif_pos h]
  exact ⟨_, rfl, rfl⟩

section Update

variable (endian : Endian)

/-- The loop over whole blocks absorbs them. -/
lemma transformLoop_eq {fuel : ℕ} {state : Chain} {data : ByteString} (hfuel : data.length < fuel) :
    transformLoop endian fuel state data = some (absorb compress 64 state data, rest 64 data) := by
  induction fuel generalizing state data with
  | zero => omega
  | succ fuel ih =>
    rw [transformLoop]
    split_ifs with hlong
    · have hblock : (data.take 64).length = 64 := take_block hlong
      rw [ih (by rw [List.length_drop]; omega), sha1Transform_eq_compress endian state hblock,
        ← absorb_block_append (by decide) hblock, ← rest_block_append (by decide) hblock,
        List.take_append_drop]
    · rw [absorb_of_lt (by omega), rest_of_lt (by omega)]

variable {message : ByteString} {surplus : ℕ} {ctx : Sha1Ctx}

/-- Where the next byte goes. -/
lemma Represents.index_eq (h : Represents message surplus ctx) :
    (ctx.count0 >>> 3 &&& 63).toNat = message.length % 64 := by
  have hand : ∀ n, n &&& 63 = n % 64 := fun n => Nat.and_two_pow_sub_one_eq_mod n 6
  rw [BitVec.toNat_and, BitVec.toNat_ushiftRight, h.count0_eq, Nat.shiftRight_eq_div_pow]
  change _ &&& 63 = _
  rw [hand]
  omega

/-- An update appends its data to the message. -/
lemma sha1Update_represents (h : Represents message surplus ctx) (data : ByteString) :
    ∃ ctx', sha1Update endian ctx data = some ctx' ∧
      Represents (message ++ data)
        (surplus + if Overcounted message.length data.length then 1 else 0) ctx' := by
  have hlt : message.length % 64 < 64 := Nat.mod_lt _ (by decide)
  have hlength : (rest 64 message).length = message.length % 64 := length_rest
  have hcount0 : (countUpdate data.length ctx.count0 ctx.count1).1.toNat =
      8 * (message ++ data).length % 2 ^ 32 := by
    rw [countUpdate_fst_toNat h.count0_eq, List.length_append]
  have hcount : countOf (countUpdate data.length ctx.count0 ctx.count1).1
      (countUpdate data.length ctx.count0 ctx.count1).2 = (8 * (message ++ data).length + 2 ^ 32 *
        (surplus + if Overcounted message.length data.length then 1 else 0)) % 2 ^ 64 := by
    rw [countOf_countUpdate h.count0_eq, h.count_eq, List.length_append]
    split_ifs <;> omega
  unfold sha1Update
  simp only [h.index_eq]
  by_cases hfull : 63 < message.length % 64 + data.length
  · rw [if_pos hfull]
    -- the buffer is filled and compressed, and the loop takes over
    have htake : (data.take (64 - message.length % 64)).length = 64 - message.length % 64 := by
      rw [List.length_take]
      omega
    have hblock : (rest 64 message ++ data.take (64 - message.length % 64)).length = 64 := by
      rw [List.length_append, htake, hlength]
      omega
    obtain ⟨buffer, hbuffer, hbytes⟩ := ctx.buffer.memcpy_eq
      (show message.length % 64 + (data.take (64 - message.length % 64)).length ≤ 64 by omega)
    rw [h.buffer_eq, List.drop_eq_nil_of_le (by rw [ctx.buffer.length_bytes]; omega),
      List.append_nil] at hbytes
    have hloop := @transformLoop_eq endian (data.length + 1)
      (sha1Transform endian ctx.state buffer.bytes) (data.drop (64 - message.length % 64))
      (by rw [List.length_drop]; omega)
    rw [hbytes, sha1Transform_eq_compress endian _ hblock] at hloop
    have hrest := @length_rest _ 64 (data.drop (64 - message.length % 64))
    have hmod := Nat.mod_lt (data.drop (64 - message.length % 64)).length (show 64 > 0 by decide)
    obtain ⟨buffer', hbuffer', hbytes'⟩ := buffer.memcpy_eq
      (show 0 + (rest 64 (data.drop (64 - message.length % 64))).length ≤ 64 by omega)
    rw [hbuffer, Option.bind_some, hbytes, sha1Transform_eq_compress endian _ hblock, hloop,
      Option.bind_some, hbuffer', Option.map_some]
    have hsplit : rest 64 message ++ data =
        rest 64 message ++ data.take (64 - message.length % 64) ++
          data.drop (64 - message.length % 64) := by
      rw [List.append_assoc, List.take_append_drop]
    have hnew : rest 64 (message ++ data) = rest 64 (data.drop (64 - message.length % 64)) := by
      rw [rest_append (by decide), hsplit, rest_block_append (by decide) hblock]
    refine ⟨_, rfl, ?_, ?_, hcount0, hcount⟩
    · rw [absorb_append (by decide), hsplit, absorb_block_append (by decide) hblock, h.state_eq]
    · rw [← @length_rest _ 64 (message ++ data), hnew]
      dsimp only
      rw [hbytes', List.take_zero, List.nil_append, List.take_left]
  · rw [if_neg hfull]
    -- the data stay in the buffer
    obtain ⟨buffer, hbuffer, hbytes⟩ := ctx.buffer.memcpy_eq
      (show message.length % 64 + data.length ≤ 64 by omega)
    have hshort : (rest 64 message ++ data).length < 64 := by
      rw [List.length_append, hlength]
      omega
    have hnew : rest 64 (message ++ data) = rest 64 message ++ data := by
      rw [rest_append (by decide), rest_of_lt hshort]
    rw [hbuffer, Option.map_some]
    refine ⟨_, rfl, ?_, ?_, hcount0, hcount⟩
    · rw [absorb_append (by decide), absorb_of_lt hshort, h.state_eq]
    · rw [← @length_rest _ 64 (message ++ data), hnew]
      dsimp only
      rw [hbytes, h.buffer_eq, List.take_left]

/-- An update of less than 2^29 bytes. -/
lemma sha1Update_represents_short (h : Represents message surplus ctx) {data : ByteString}
    (hshort : data.length < 2 ^ 29) :
    ∃ ctx', sha1Update endian ctx data = some ctx' ∧
      Represents (message ++ data) surplus ctx' := by
  have hupdate := sha1Update_represents endian h data
  rwa [if_neg (not_overcounted hshort), Nat.add_zero] at hupdate

/-! ### The padding -/

/-- The loop over zeros ends when eight bytes are left of a block. -/
lemma Represents.count0_and (h : Represents message surplus ctx) :
    ctx.count0 &&& 504 = 448 ↔ message.length % 64 = 56 := by
  have hand : ∀ n, n &&& 63 = n % 64 := fun n => Nat.and_two_pow_sub_one_eq_mod n 6
  have hmask : (ctx.count0 &&& 504).toNat = 8 * (message.length % 64) := by
    have hlow : ctx.count0.toNat = (message.length % 2 ^ 29) <<< 3 := by
      rw [h.count0_eq, Nat.shiftLeft_eq]
      omega
    have hshift := @Nat.shiftLeft_and_distrib 3 (message.length % 2 ^ 29) 63
    rw [BitVec.toNat_and, hlow]
    change _ &&& 63 <<< 3 = _
    rw [← hshift, hand, Nat.shiftLeft_eq]
    omega
  rw [← BitVec.toNat_inj, hmask]
  change _ = 448 ↔ _
  omega

/-- The zeros that go behind some number of bytes. -/
def zerosBehind (length : ℕ) : ℕ := (120 - length % 64) % 64

/-- The loop appends the zeros of the padding. -/
lemma zerosLoop_represents {fuel : ℕ} (h : Represents message surplus ctx)
    (hfuel : zerosBehind message.length < fuel) :
    ∃ ctx', zerosLoop endian fuel ctx = some ctx' ∧
      Represents (message ++ List.replicate (zerosBehind message.length) 0) surplus ctx' := by
  induction fuel generalizing message ctx with
  | zero => omega
  | succ fuel ih =>
    have hcond := h.count0_and
    rw [zerosLoop]
    by_cases hdone : message.length % 64 = 56
    · have hzeros : zerosBehind message.length = 0 := by
        unfold zerosBehind
        omega
      rw [if_neg (not_not.mpr (hcond.mpr hdone)), hzeros, List.replicate_zero, List.append_nil]
      exact ⟨ctx, rfl, h⟩
    · obtain ⟨ctx', hupdate, h'⟩ := sha1Update_represents_short endian h
        (show ([0] : ByteString).length < 2 ^ 29 by decide)
      have hlength : (message ++ [0]).length = message.length + 1 := List.length_append
      have hzeros : zerosBehind message.length = zerosBehind (message ++ [0]).length + 1 := by
        unfold zerosBehind
        omega
      obtain ⟨ctx'', hloop, h''⟩ := ih h' (by omega)
      rw [if_pos fun heq => hdone (hcond.mp heq), hupdate, Option.bind_some, hzeros,
        List.replicate_succ, List.append_cons]
      exact ⟨ctx'', hloop, h''⟩

end Update

/-! ### Words as bytes -/

/-- A byte of a word. -/
lemma ofBitVec_byte (w : Word) (k : ℕ) :
    UInt8.ofBitVec ((w >>> (k * 8) &&& 255).setWidth 8) =
      UInt8.ofNat (w.toNat / 256 ^ k % 256) := by
  have hand : ∀ n, n &&& 255 = n % 256 := fun n => Nat.and_two_pow_sub_one_eq_mod n 8
  have hpow : 2 ^ (k * 8) = 256 ^ k := by
    rw [Nat.mul_comm, pow_mul]
    rfl
  apply UInt8.toNat_inj.mp
  rw [UInt8.toNat_ofBitVec, BitVec.toNat_setWidth, BitVec.toNat_and, BitVec.toNat_ushiftRight,
    UInt8.toNat_ofNat', Nat.shiftRight_eq_div_pow, hpow]
  change (_ &&& 255) % 256 = _ % 256
  rw [hand]

/-- The bytes of words, the highest first. -/
lemma map_byteOfWords (ws : List Word) :
    (List.range (4 * ws.length)).map (byteOfWords ws) = ws.flatMap fun w => toBE 4 w.toNat := by
  induction ws with
  | nil => rfl
  | cons w ws ih =>
    have hand : ∀ n, n &&& 3 = n % 4 := fun n => Nat.and_two_pow_sub_one_eq_mod n 2
    have hfirst : (List.range 4).map (byteOfWords (w :: ws)) = toBE 4 w.toNat := by
      change [UInt8.ofBitVec ((w >>> (3 * 8) &&& 255).setWidth 8),
        UInt8.ofBitVec ((w >>> (2 * 8) &&& 255).setWidth 8),
        UInt8.ofBitVec ((w >>> (1 * 8) &&& 255).setWidth 8),
        UInt8.ofBitVec ((w >>> (0 * 8) &&& 255).setWidth 8)] = _
      rw [ofBitVec_byte, ofBitVec_byte, ofBitVec_byte, ofBitVec_byte]
      rfl
    have hothers : (List.range (4 * ws.length)).map (byteOfWords (w :: ws) ∘ (4 + ·)) =
        (List.range (4 * ws.length)).map (byteOfWords ws) := by
      refine List.map_congr_left fun i _ => ?_
      have hword : (4 + i) / 2 ^ 2 = i / 2 ^ 2 + 1 := by omega
      have hbyte : (4 + i) % 4 = i % 4 := by omega
      rw [Function.comp_apply, byteOfWords, byteOfWords, hand, hand, hbyte,
        Nat.shiftRight_eq_div_pow, Nat.shiftRight_eq_div_pow, hword, List.getD_cons_succ]
    rw [List.length_cons, Nat.mul_succ, Nat.add_comm, List.range_add, List.map_append, List.map_map,
      hfirst, hothers, ih, List.flatMap_cons]

/-- The two counters as bytes. -/
lemma bytes_of_counts (count0 count1 : Word) :
    (List.range 8).map (byteOfWords [count1, count0]) = toBE 8 (countOf count0 count1) := by
  have hmap : (List.range 8).map (byteOfWords [count1, count0]) =
      toBE 4 count1.toNat ++ (toBE 4 count0.toNat ++ []) := map_byteOfWords [count1, count0]
  have hlt := count0.isLt
  have hhigh : countOf count0 count1 / 256 ^ 4 = count1.toNat := by
    unfold countOf
    omega
  have hlow : countOf count0 count1 % 256 ^ 4 = count0.toNat := by
    unfold countOf
    omega
  rw [hmap, List.append_nil, toBE_add 4 4, hhigh, ← toBE_mod (Nat.le_refl 4) (countOf _ _), hlow]

/-! ### Digests -/

/-- The digest of a context is that of its message, up to the number of bits. -/
lemma sha1Final_represents (endian : Endian) {message : ByteString} {surplus : ℕ} {ctx : Sha1Ctx}
    (h : Represents message surplus ctx) :
    sha1Final endian ctx = some (absorb compress 64 initial (message ++
      padding message.length (8 * message.length + 2 ^ 32 * surplus))).digest := by
  have hcounts : (List.range 8).map (byteOfWords [ctx.count1, ctx.count0]) =
      toBE 8 (8 * message.length + 2 ^ 32 * surplus) := by
    rw [bytes_of_counts, h.count_eq]
    exact toBE_mod (Nat.le_refl 8) _
  obtain ⟨ctx₁, hone, h₁⟩ := sha1Update_represents_short endian h
    (show ([0x80] : ByteString).length < 2 ^ 29 by decide)
  have hlength : (message ++ [0x80]).length = message.length + 1 := List.length_append
  have hzeros : zerosBehind (message ++ [0x80]).length = (119 - message.length % 64) % 64 := by
    unfold zerosBehind
    omega
  obtain ⟨ctx₂, hloop, h₂⟩ := zerosLoop_represents endian h₁
    (show zerosBehind (message ++ [0x80]).length < 64 from Nat.mod_lt _ (by decide))
  obtain ⟨ctx₃, hlast, h₃⟩ := sha1Update_represents_short endian h₂
    (show (toBE 8 (8 * message.length + 2 ^ 32 * surplus)).length < 2 ^ 29 by
      rw [length_toBE]
      decide)
  have hmessage : message ++ [0x80] ++ List.replicate (zerosBehind (message ++ [0x80]).length) 0 ++
      toBE 8 (8 * message.length + 2 ^ 32 * surplus) =
        message ++ padding message.length (8 * message.length + 2 ^ 32 * surplus) := by
    rw [hzeros, padding, List.append_assoc, List.append_assoc, List.singleton_append,
      List.cons_append]
  have hdigest : ∀ s : Chain, (List.range 20).map (byteOfWords [s.a, s.b, s.c, s.d, s.e]) =
      s.digest := fun s => map_byteOfWords [s.a, s.b, s.c, s.d, s.e]
  unfold sha1Final
  simp only [hcounts, hone, hloop, hlast, Option.bind_some, Option.map_some, hdigest]
  rw [h₃.state_eq, hmessage]

/-- `lt::hasher` on data that come in parts: the constructor, `update` for each of them, `final`. -/
def hasherDigest (endian : Endian) (buffer : Sha1Buffer) (parts : List ByteString) :
    Option ByteString :=
  (parts.foldlM (sha1Update endian) (sha1Init buffer)).bind (sha1Final endian)

/-- How many updates count 2^32 bits too many. -/
def surplusOf : ℕ → List ByteString → ℕ
  | _, [] => 0
  | before, data :: parts =>
    (if Overcounted before data.length then 1 else 0) + surplusOf (before + data.length) parts

/-- Short updates are counted right. -/
lemma surplusOf_eq_zero {before : ℕ} {parts : List ByteString}
    (hshort : ∀ data ∈ parts, data.length < 2 ^ 29) : surplusOf before parts = 0 := by
  induction parts generalizing before with
  | nil => rfl
  | cons data parts ih =>
    obtain ⟨hdata, hparts⟩ := List.forall_mem_cons.mp hshort
    rw [surplusOf, if_neg (not_overcounted hdata), ih hparts]

/-- A context after some updates. -/
lemma foldlM_represents (endian : Endian) {message : ByteString} {surplus : ℕ} {ctx : Sha1Ctx}
    (h : Represents message surplus ctx) (parts : List ByteString) :
    ∃ ctx', parts.foldlM (sha1Update endian) ctx = some ctx' ∧
      Represents (message ++ parts.flatten) (surplus + surplusOf message.length parts) ctx' := by
  induction parts generalizing message surplus ctx with
  | nil => exact ⟨ctx, rfl, by rwa [List.flatten_nil, List.append_nil]⟩
  | cons data parts ih =>
    obtain ⟨ctx', hupdate, h'⟩ := sha1Update_represents endian h data
    obtain ⟨ctx'', hrun, h''⟩ := ih h'
    refine ⟨ctx'', by rw [List.foldlM_cons, hupdate]; exact hrun, ?_⟩
    rwa [List.append_assoc, Nat.add_assoc, List.length_append] at h''

/-- The digest of data in parts of any length. -/
lemma hasherDigest_eq (endian : Endian) (buffer : Sha1Buffer) (parts : List ByteString) :
    hasherDigest endian buffer parts =
      some (absorb compress 64 initial (parts.flatten ++ padding parts.flatten.length
        (8 * parts.flatten.length + 2 ^ 32 * surplusOf 0 parts))).digest := by
  obtain ⟨ctx, hrun, h⟩ := foldlM_represents endian (represents_init buffer) parts
  rw [List.nil_append, Nat.zero_add] at h
  rw [hasherDigest, hrun, Option.bind_some, sha1Final_represents endian h]
  rfl

/-- The digest of data in short parts. -/
lemma hasherDigest_of_short (endian : Endian) (buffer : Sha1Buffer) {parts : List ByteString}
    (hshort : ∀ data ∈ parts, data.length < 2 ^ 29) :
    hasherDigest endian buffer parts = some (sha1 parts.flatten) := by
  rw [hasherDigest_eq, surplusOf_eq_zero hshort]
  rfl

/-- Data in parts of any length: the digest is SHA-1 but for the number of bits, of which every
update of 2^29 bytes or more that does not carry counts 2^32 too many. -/
theorem hasherDigest_of_updates (endian : Endian) (buffer : Sha1Buffer)
    (parts : List ByteString) :
    hasherDigest endian buffer parts =
      some (Absorb.absorb compress 64 initial (parts.flatten ++ padding parts.flatten.length
        (8 * parts.flatten.length + 2 ^ 32 * surplusOf 0 parts))).digest :=
  hasherDigest_eq endian buffer parts

/-- Data in parts of less than 2^29 bytes: the digest is SHA-1 of them all, however they are
split. -/
theorem hasherDigest_eq_sha1 (endian : Endian) (buffer : Sha1Buffer) {parts : List ByteString}
    (hshort : ∀ data ∈ parts, data.length < 2 ^ 29) :
    hasherDigest endian buffer parts = some (sha1 parts.flatten) :=
  hasherDigest_of_short endian buffer hshort

/-- The bytes `abc` in two parts. -/
theorem hasherDigest_eq_sha1_sample :
    hasherDigest .little ⟨List.replicate 64 7, rfl⟩ [[97], [98, 99]] =
      some (sha1 [[97], [98, 99]].flatten) :=
  hasherDigest_eq_sha1 .little ⟨List.replicate 64 7, rfl⟩ (by decide)

end Tent
