import Mathlib.Data.List.Basic
import Mathlib.Data.List.TakeDrop
import Mathlib.Tactic.Ring

/-!
# Byte strings

Byte strings are lists of octets.  This file collects what a program that reads and writes raw
buffers needs from them: big-endian words (`toBE`, `ofBE`), reads of a window of a buffer
(`window`), and writes into the middle of a file image (`overwrite`).

A read past the end of a buffer is not an error here.  It returns the bytes of an arbitrary
*out-of-bounds oracle*, so that a statement proved for every oracle holds whatever memory happens
to lie behind the buffer.  `window_eq_of_le` says that a read that stays inside never consults the
oracle.  `Read` records which bytes a program looks at, and `Read.Inside` that they are there.
-/

set_option autoImplicit false

namespace Bytes

/-- A byte string. -/
abbrev ByteString := List UInt8

/-- What lies behind the end of a buffer: the byte found at each offset. -/
abbrev Oob := ByteString → ℕ → UInt8

/-! ### Big-endian words -/

/-- The `w` big-endian bytes of `n`; bits above `8 * w` are dropped. -/
def toBE : ℕ → ℕ → ByteString
  | 0, _ => []
  | w + 1, n => UInt8.ofNat (n / 256 ^ w % 256) :: toBE w n

/-- The natural number with the given big-endian bytes. -/
def ofBE (b : ByteString) : ℕ :=
  b.foldl (fun acc x => acc * 256 + x.toNat) 0

/-- A `w`-byte word has `w` bytes. -/
@[simp] lemma length_toBE (w n : ℕ) : (toBE w n).length = w := by
  induction w with
  | zero => rfl
  | succ w ih => simp [toBE, ih]

/-- Decoding with an accumulator shifts the accumulator by the length of the input. -/
lemma foldl_ofBE (b : ByteString) (acc : ℕ) :
    b.foldl (fun acc x => acc * 256 + x.toNat) acc = acc * 256 ^ b.length + ofBE b := by
  induction b generalizing acc with
  | nil => simp [ofBE]
  | cons x b ih =>
    rw [ofBE, List.foldl_cons, List.foldl_cons, ih, ih (0 * 256 + x.toNat), List.length_cons,
      pow_succ]
    ring

/-- The leading byte carries the highest weight. -/
lemma ofBE_cons (x : UInt8) (b : ByteString) :
    ofBE (x :: b) = x.toNat * 256 ^ b.length + ofBE b := by
  rw [ofBE, List.foldl_cons, foldl_ofBE]
  simp

/-- A word is bounded by its width. -/
lemma ofBE_lt (b : ByteString) : ofBE b < 256 ^ b.length := by
  induction b with
  | nil => simp [ofBE]
  | cons x b ih =>
    have hx : x.toNat + 1 ≤ 256 := x.toNat_lt
    calc ofBE (x :: b) = x.toNat * 256 ^ b.length + ofBE b := ofBE_cons x b
      _ < x.toNat * 256 ^ b.length + 256 ^ b.length := by omega
      _ = (x.toNat + 1) * 256 ^ b.length := by ring
      _ ≤ 256 * 256 ^ b.length := Nat.mul_le_mul_right _ hx
      _ = 256 ^ (x :: b).length := by rw [List.length_cons, pow_succ]; ring

/-- Decoding an encoded number gives it back modulo the width. -/
lemma ofBE_toBE (w n : ℕ) : ofBE (toBE w n) = n % 256 ^ w := by
  induction w with
  | zero => simp [toBE, ofBE, Nat.mod_one]
  | succ w ih =>
    have hbyte : (UInt8.ofNat (n / 256 ^ w % 256)).toNat = n / 256 ^ w % 256 := by
      rw [UInt8.toNat_ofNat']
      exact Nat.mod_eq_of_lt (Nat.mod_lt _ (by decide))
    rw [toBE, ofBE_cons, ih, length_toBE, hbyte, pow_succ, Nat.mod_mul]
    ring

/-- Decoding an encoded number that fits gives it back. -/
lemma ofBE_toBE_of_lt {w n : ℕ} (h : n < 256 ^ w) : ofBE (toBE w n) = n := by
  rw [ofBE_toBE, Nat.mod_eq_of_lt h]

/-- The bytes of a word do not depend on what stands above it. -/
lemma toBE_mod {w m : ℕ} (h : w ≤ m) (n : ℕ) : toBE w (n % 256 ^ m) = toBE w n := by
  induction w with
  | zero => rfl
  | succ w ih =>
    have hdigit : n % 256 ^ m / 256 ^ w % 256 = n / 256 ^ w % 256 := by
      have hsplit : 256 ^ m = 256 ^ w * 256 ^ (m - w) := by
        rw [← pow_add, Nat.add_sub_cancel' (by omega)]
      have hdvd : 256 ∣ 256 ^ (m - w) := dvd_pow_self 256 (by omega)
      rw [hsplit, Nat.mod_mul_right_div_self, Nat.mod_mod_of_dvd _ hdvd]
    rw [toBE, toBE, hdigit, ih (by omega)]

/-- A word is its upper bytes in front of its lower ones. -/
lemma toBE_add (w v n : ℕ) : toBE (w + v) n = toBE w (n / 256 ^ v) ++ toBE v n := by
  induction w with
  | zero => rw [Nat.zero_add, toBE, List.nil_append]
  | succ w ih =>
    rw [Nat.succ_add, toBE, ih, toBE, Nat.div_div_eq_div_mul, ← pow_add, Nat.add_comm v w,
      List.cons_append]

/-- Encoding a decoded word gives its bytes back. -/
lemma toBE_ofBE (b : ByteString) : toBE b.length (ofBE b) = b := by
  induction b with
  | nil => rfl
  | cons x b ih =>
    have hlt := ofBE_lt b
    have hhigh : ofBE (x :: b) / 256 ^ b.length % 256 = x.toNat := by
      rw [ofBE_cons, Nat.mul_comm, Nat.mul_add_div (Nat.pow_pos (by decide)), Nat.div_eq_of_lt hlt,
        Nat.add_zero, Nat.mod_eq_of_lt x.toNat_lt]
    have hlow : ofBE (x :: b) % 256 ^ b.length = ofBE b := by
      rw [ofBE_cons, Nat.mul_add_mod', Nat.mod_eq_of_lt hlt]
    rw [List.length_cons, toBE, hhigh, UInt8.ofNat_toNat, ← toBE_mod (Nat.le_refl _), hlow, ih]

/-! ### Reading a window of a buffer -/

/-- The byte at offset `i`, or what the oracle holds there when the buffer is shorter. -/
def byteAt (oob : Oob) (b : ByteString) (i : ℕ) : UInt8 :=
  b.getD i (oob b i)

/-- The `n` bytes from offset `off` on. -/
def window (oob : Oob) (b : ByteString) (off n : ℕ) : ByteString :=
  (List.range n).map fun j => byteAt oob b (off + j)

/-- The front of a buffer has the bytes of the buffer. -/
lemma byteAt_take (oob : Oob) {b : ByteString} {i n : ℕ} (hn : i < n) (hb : i < b.length) :
    byteAt oob (b.take n) i = byteAt oob b i := by
  simp [byteAt, List.getElem?_take_of_lt hn, hb]

/-- A window has the requested length, whether or not the buffer holds that many bytes. -/
@[simp] lemma length_window (oob : Oob) (b : ByteString) (off n : ℕ) :
    (window oob b off n).length = n := by
  simp [window]

/-- A window that lies inside the buffer is a part of the buffer. -/
lemma window_eq_of_le (oob : Oob) {b : ByteString} {off n : ℕ} (h : off + n ≤ b.length) :
    window oob b off n = (b.drop off).take n := by
  apply List.ext_getElem
  · simp [window]; omega
  · intro i h₁ h₂
    have hi : i < n := by simpa using h₁
    have hlt : off + i < b.length := by omega
    simp [window, byteAt, hlt]

/-- The first byte of a non-empty buffer. -/
@[simp] lemma byteAt_zero_cons (oob : Oob) (x : UInt8) (b : ByteString) :
    byteAt oob (x :: b) 0 = x := rfl

/-- A window at the front that lies inside the buffer. -/
lemma window_zero_eq_take (oob : Oob) {b : ByteString} {n : ℕ} (h : n ≤ b.length) :
    window oob b 0 n = b.take n := by
  rw [window_eq_of_le oob (by omega), List.drop_zero]

/-- A window that skips exactly a known head and ends inside what follows. -/
lemma window_append_right (oob : Oob) {a b : ByteString} {off n : ℕ} (hoff : a.length = off)
    (hn : n ≤ b.length) : window oob (a ++ b) off n = b.take n := by
  subst hoff
  rw [window_eq_of_le oob (by simpa using hn), List.drop_left]

/-! ### Footprints -/

/-- A read of a number of bytes from an offset of a buffer. -/
structure Read where
  /-- The buffer. -/
  buffer : ByteString
  /-- The offset of the first byte. -/
  offset : ℕ
  /-- The number of bytes. -/
  count : ℕ
deriving DecidableEq, Repr

namespace Read

/-- Every byte that is read lies inside the buffer. -/
def Inside (r : Read) : Prop := r.count = 0 ∨ r.offset + r.count ≤ r.buffer.length

instance (r : Read) : Decidable r.Inside := inferInstanceAs (Decidable (_ ∨ _))

/-- A read of at least one byte. -/
lemma inside_iff {b : ByteString} {off n : ℕ} (h : 0 < n) :
    Inside ⟨b, off, n⟩ ↔ off + n ≤ b.length :=
  or_iff_right (Nat.ne_of_gt h)

/-- No reads stay inside. -/
lemma forall_inside_nil : (∀ r ∈ ([] : List Read), r.Inside) ↔ True :=
  iff_true_intro (List.forall_mem_nil _)

/-- A read and further reads stay inside. -/
lemma forall_inside_cons {b : ByteString} {off n : ℕ} {rs : List Read} :
    (∀ r ∈ ⟨b, off, n⟩ :: rs, r.Inside) ↔
      (n = 0 ∨ off + n ≤ b.length) ∧ ∀ r ∈ rs, r.Inside :=
  List.forall_mem_cons

/-- What a read inside the buffer finds does not depend on what lies behind. -/
lemma Inside.window_eq {b : ByteString} {off n : ℕ} (h : Inside ⟨b, off, n⟩) (oob oob' : Oob) :
    window oob b off n = window oob' b off n := by
  rcases h with hzero | hle
  · obtain rfl : n = 0 := hzero
    rfl
  · rw [window_eq_of_le oob hle, window_eq_of_le oob' hle]

/-- A byte inside the buffer does not depend on what lies behind. -/
lemma Inside.byteAt_eq {b : ByteString} {i : ℕ} (h : Inside ⟨b, i, 1⟩) (oob oob' : Oob) :
    byteAt oob b i = byteAt oob' b i := by
  have hlt : i < b.length := (inside_iff Nat.one_pos).mp h
  simp [byteAt, hlt]

end Read

/-! ### Writing into a file image -/

variable {α : Type*}

/-- Write `bs` at offset `p` of the image `c`, extending the image with `pad` when `p` lies behind
its end. -/
def overwrite (pad : α) (image : List α) (p : ℕ) (bs : List α) : List α :=
  (image ++ List.replicate (p - image.length) pad).take p ++ bs ++ image.drop (p + bs.length)

/-- A write that lies inside the image does not change its length. -/
lemma length_overwrite (pad : α) {image : List α} {p : ℕ} {bs : List α}
    (h : p + bs.length ≤ image.length) : (overwrite pad image p bs).length = image.length := by
  simp [overwrite]
  omega

/-- What a write puts into its range does not depend on the image. -/
lemma getElem?_overwrite_of_mem (pad : α) (image : List α) {p i : ℕ} {bs : List α} (hp : p ≤ i)
    (hi : i < p + bs.length) : (overwrite pad image p bs)[i]? = bs[i - p]? := by
  have hfront : ((image ++ List.replicate (p - image.length) pad).take p).length = p := by
    simp
    omega
  rw [overwrite, List.append_assoc, List.getElem?_append_right (by omega), hfront,
    List.getElem?_append_left (by omega)]

/-- A write changes nothing of the image outside of its range. -/
lemma getElem?_overwrite_of_notMem (pad : α) {image : List α} {p i : ℕ} {bs : List α}
    (himage : i < image.length) (hi : ¬ (p ≤ i ∧ i < p + bs.length)) :
    (overwrite pad image p bs)[i]? = image[i]? := by
  have hfront : ((image ++ List.replicate (p - image.length) pad).take p).length = p := by
    simp
    omega
  rw [overwrite, List.append_assoc]
  by_cases hlo : i < p
  · rw [List.getElem?_append_left (by omega), List.getElem?_take_of_lt hlo,
      List.getElem?_append_left himage]
  · rw [List.getElem?_append_right (by omega), hfront, List.getElem?_append_right (by omega),
      List.getElem?_drop]
    congr 1
    omega

/-- A write that lies inside the image changes exactly the bytes of its range. -/
lemma getElem?_overwrite (pad : α) {image : List α} {p : ℕ} {bs : List α}
    (h : p + bs.length ≤ image.length) (i : ℕ) :
    (overwrite pad image p bs)[i]? =
      if p ≤ i ∧ i < p + bs.length then bs[i - p]? else image[i]? := by
  by_cases hin : p ≤ i ∧ i < p + bs.length
  · rw [if_pos hin, getElem?_overwrite_of_mem pad image hin.1 hin.2]
  · rw [if_neg hin]
    by_cases himage : i < image.length
    · exact getElem?_overwrite_of_notMem pad himage hin
    · have hlen := length_overwrite pad h
      rw [List.getElem?_eq_none (by omega), List.getElem?_eq_none (by omega)]

/-- Two writes that agree on every image of a length put the same values in the same places: what
the first one puts somewhere, the second one puts there too. -/
lemma mem_range_of_overwrite_eq [Nontrivial α] (pad : α) {n p q : ℕ} {bs cs : List α}
    (hbs : p + bs.length ≤ n) (hcs : q + cs.length ≤ n)
    (h : ∀ image, image.length = n → overwrite pad image p bs = overwrite pad image q cs) {i : ℕ}
    (hi : i < bs.length) :
    q ≤ p + i ∧ p + i < q + cs.length ∧ bs[i]? = cs[p + i - q]? := by
  -- over an image of another value than the one put there
  rcases exists_ne bs[i] with ⟨x, hx⟩
  have hlen : (List.replicate n x).length = n := List.length_replicate
  have heq := congrArg (fun l => l[p + i]?) (h (List.replicate n x) hlen)
  simp only [getElem?_overwrite pad (hlen.symm ▸ hbs), getElem?_overwrite pad (hlen.symm ▸ hcs),
    if_pos (show p ≤ p + i ∧ p + i < p + bs.length by omega), Nat.add_sub_cancel_left] at heq
  by_cases hin : q ≤ p + i ∧ p + i < q + cs.length
  · rw [if_pos hin] at heq
    exact ⟨hin.1, hin.2, heq⟩
  · rw [if_neg hin, List.getElem?_replicate_of_lt (by omega), List.getElem?_eq_getElem hi] at heq
    exact absurd (Option.some.inj heq).symm hx

/-- Two writes that agree on every image of a length, the first one of something, are the same. -/
lemma overwrite_inj [Nontrivial α] (pad : α) {n p q : ℕ} {bs cs : List α} (hne : bs ≠ [])
    (hbs : p + bs.length ≤ n) (hcs : q + cs.length ≤ n)
    (h : ∀ image, image.length = n → overwrite pad image p bs = overwrite pad image q cs) :
    p = q ∧ bs = cs := by
  have hfirst : 0 < bs.length := List.length_pos_of_ne_nil hne
  have hto := fun i hi => mem_range_of_overwrite_eq pad hbs hcs h (i := i) hi
  have hfrom := fun i hi => mem_range_of_overwrite_eq pad hcs hbs
    (fun image himage => (h image himage).symm) (i := i) hi
  rcases hto 0 hfirst with ⟨hqp, hpcs, -⟩
  rcases hfrom 0 (by omega) with ⟨hpq, -, -⟩
  obtain rfl : p = q := by omega
  refine ⟨rfl, List.ext_getElem? fun i => ?_⟩
  by_cases hi : i < bs.length
  · rw [(hto i hi).2.2, Nat.add_sub_cancel_left]
  · have hcs' : ¬ i < cs.length := fun hi' => by
      have hmem := (hfrom i hi').2.1
      omega
    rw [List.getElem?_eq_none (Nat.not_lt.mp hi), List.getElem?_eq_none (Nat.not_lt.mp hcs')]

/-- A write does not shorten an image. -/
lemma length_le_length_overwrite (pad : α) (image : List α) (p : ℕ) (bs : List α) :
    image.length ≤ (overwrite pad image p bs).length := by
  simp [overwrite]
  omega

end Bytes
