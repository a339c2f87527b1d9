import Mathlib

/-!
# Whole numbers in `float`

The mantissa of a `float` has 24 bits, so whole numbers below `2 ^ 24` are exact, and so are their
products and quotients as long as these are such numbers again.  `Scaled` says how far a number is
shifted to fill the mantissa, and `IsWhole` that a `float` is the number; products, quotients and
conversions keep to it (`IsWhole.mul`, `IsWhole.div`, `isWhole_toFloat32`).
-/

set_option autoImplicit false

namespace Tent

namespace Binary32

open Float.Model UnpackedFloat

/-- Shifted by `k`, the number has 24 bits. -/
structure Scaled (m k : ℕ) : Prop where
  /-- It has at least that many. -/
  le : 2 ^ 23 ≤ m * 2 ^ k
  /-- It has no more than that. -/
  lt : m * 2 ^ k < 2 ^ 24

/-- A number of at most 24 bits is shifted by what is left of its mantissa. -/
lemma scaled_log2 {m : ℕ} (hpos : 0 < m) (hlog : m.log2 ≤ 23) : Scaled m (23 - m.log2) := by
  have hle := Nat.log2_self_le hpos.ne'
  have hlt := Nat.lt_log2_self (n := m)
  constructor
  · calc 2 ^ 23 = 2 ^ m.log2 * 2 ^ (23 - m.log2) := by rw [← Nat.pow_add]; congr 1; omega
      _ ≤ m * 2 ^ (23 - m.log2) := Nat.mul_le_mul_right _ hle
  · calc m * 2 ^ (23 - m.log2) < 2 ^ (m.log2 + 1) * 2 ^ (23 - m.log2) :=
        Nat.mul_lt_mul_of_pos_right hlt (Nat.two_pow_pos _)
      _ = 2 ^ 24 := by rw [← Nat.pow_add]; congr 1; omega

/-- Every positive number of at most 24 bits can be shifted so. -/
lemma exists_scaled {m : ℕ} (hpos : 0 < m) (hlt : m < 2 ^ 24) : ∃ k, Scaled m k :=
  ⟨_, scaled_log2 hpos (Nat.le_of_lt_succ ((Nat.log2_lt hpos.ne').mpr hlt))⟩

namespace Scaled

variable {m k : ℕ} (h : Scaled m k)
include h

/-- The mantissa is positive. -/
lemma pos : 0 < m * 2 ^ k := lt_of_lt_of_le (by decide) h.le

/-- No number is shifted by more than 23 bits. -/
lemma le_23 : k ≤ 23 := by
  have hm : 0 < m := Nat.pos_of_mul_pos_right h.pos
  have hpow : 2 ^ k < 2 ^ 24 := lt_of_le_of_lt (Nat.le_mul_of_pos_left _ hm) h.lt
  have := (Nat.pow_lt_pow_iff_right (by decide : 1 < 2)).mp hpow
  omega

/-- The mantissa shifted on by `i`. -/
lemma log2_eq (i : ℕ) : (m * 2 ^ k * 2 ^ i).log2 = 23 + i := by
  have hpow := Nat.two_pow_pos i
  refine (Nat.log2_eq_iff (Nat.mul_pos h.pos hpow).ne').mpr ⟨?_, ?_⟩
  · rw [Nat.pow_add]
    exact Nat.mul_le_mul_right _ h.le
  · rw [show 23 + i + 1 = 24 + i by omega, Nat.pow_add]
    exact Nat.mul_lt_mul_of_pos_right h.lt hpow

/-- A number is shifted in one way only. -/
lemma le_of_scaled {j : ℕ} (hj : Scaled m j) : k ≤ j := by
  by_contra hlt
  obtain ⟨i, rfl⟩ := Nat.exists_eq_add_of_lt (Nat.lt_of_not_le hlt)
  have hle : m * 2 ^ j * 2 ≤ m * 2 ^ (j + i + 1) := by
    rw [Nat.mul_assoc, ← Nat.pow_succ]
    exact Nat.mul_le_mul_left m (Nat.pow_le_pow_right (by decide) (by omega))
  have := h.lt
  have := hj.le
  omega

end Scaled

/-- The number `m`, shifted by `k`. -/
def whole {m k : ℕ} (h : Scaled m k) : UnpackedFloat :=
  .finite .positive (m * 2 ^ k) (-(k : ℤ)) h.pos

/-! ### Rounding -/

/-- Shifting back loses nothing. -/
lemma repeat_shiftRightOne (n x : ℕ) :
    n.repeat ExtendedMantissa.shiftRightOne ⟨x * 2 ^ n, false, false⟩ = ⟨x, false, false⟩ := by
  induction n generalizing x with
  | zero => simp [Nat.repeat]
  | succ n ih =>
    rw [Nat.repeat, Nat.pow_succ', ← Nat.mul_assoc, ih (x * 2)]
    simp [ExtendedMantissa.shiftRightOne]

variable {m k : ℕ}

/-- A mantissa that is shifted too far is shifted back. -/
lemma shift_whole (h : Scaled m k) (i : ℕ) :
    shiftToTargetExponent .binary32 (m * 2 ^ k * 2 ^ i) (-(k : ℤ) - i) .exact =
      (⟨m * 2 ^ k, false, false⟩, -(k : ℤ)) := by
  have hk := h.le_23
  have htarget : Format.binary32.targetExponent
      (totalExponent (m * 2 ^ k * 2 ^ i) (-(k : ℤ) - i)) = -(k : ℤ) := by
    simp only [Format.targetExponent, totalExponent, h.log2_eq, Format.mantissaBits,
      Format.minExponent]
    omega
  have hshift : (-(k : ℤ) - (-(k : ℤ) - i)).toNat = i := by omega
  unfold shiftToTargetExponent shiftToExponent
  rw [htarget]
  dsimp only
  rw [hshift]
  refine Prod.ext (repeat_shiftRightOne i (m * 2 ^ k)) ?_
  dsimp only
  omega

/-- Rounding a number of at most 24 bits is exact. -/
lemma round_whole (h : Scaled m k) (i : ℕ) :
    roundWithAccuracy .binary32 .positive (m * 2 ^ k * 2 ^ i) (-(k : ℤ) - i) .exact = whole h := by
  have hagain : shiftToTargetExponent .binary32 (m * 2 ^ k) (-(k : ℤ)) .exact =
      (⟨m * 2 ^ k, false, false⟩, -(k : ℤ)) := by
    simpa using shift_whole h 0
  have hrounded : (⟨m * 2 ^ k, false, false⟩ : ExtendedMantissa).roundedMantissa = m * 2 ^ k := rfl
  unfold roundWithAccuracy
  simp only [shift_whole h i, hrounded, hagain]
  exact dif_neg h.pos.ne'

/-! ### Packing -/

/-- The sign of what was packed. -/
lemma unpackSign_packComponents {spec : Format} {sign : Sign} {exponent : BitVec spec.exponentBits}
    {mantissa : BitVec spec.mantissaBitsWithoutImplicit} :
    unpackSign (packComponents spec sign exponent mantissa) = sign.toBitVec := by
  ext i hi
  obtain rfl := Nat.lt_one_iff.mp hi
  simp [unpackSign, packComponents, BitVec.getLsbD_append, BitVec.getElem_append]

/-- What is packed is unpacked again. -/
lemma unpack_pack_whole (h : Scaled m k) :
    Float32.Model.unpack (Float32.Model.pack (whole h)) = whole h := by
  have hk := h.le_23
  have hlog : (m * 2 ^ k).log2 = 23 := by simpa using h.log2_eq 0
  have hle := h.le
  have hlt := h.lt
  have hexp : (-(k : ℤ) + 127 + 23).toNat = 150 - k := by omega
  have hpack : UnpackedFloat.pack .binary32 (whole h) =
      packComponents .binary32 .positive (BitVec.ofNat 8 (150 - k))
        (BitVec.ofNat 23 (m * 2 ^ k)) := by
    unfold UnpackedFloat.pack whole
    simp only [hlog, Format.exponentBias, Format.mantissaBits]
    norm_num [hexp]
    omega
  unfold Float32.Model.unpack Float32.Model.pack
  simp only [hpack]
  unfold UnpackedFloat.unpack
  simp only [unpackExponent_packComponents, unpackMantissa_packComponents,
    unpackSign_packComponents]
  have hmax : BitVec.ofNat 8 (150 - k) ≠ -1#8 := by
    intro heq
    have := congrArg BitVec.toNat heq
    simp at this
    omega
  have hzero : BitVec.ofNat 8 (150 - k) ≠ 0#8 := by
    intro heq
    have := congrArg BitVec.toNat heq
    simp at this
    omega
  rw [if_neg hmax, if_neg hzero]
  have hmantissa : (1#1 ++ BitVec.ofNat 23 (m * 2 ^ k)).toNat = m * 2 ^ k := by
    rw [BitVec.toNat_append, BitVec.toNat_ofNat, BitVec.toNat_ofNat,
      ← Nat.shiftLeft_add_eq_or_of_lt (Nat.mod_lt _ (by decide))]
    omega
  have hexponent : ((BitVec.ofNat 8 (150 - k)).toNat : ℤ) -
      (Format.binary32.exponentBias + 23) = -(k : ℤ) := by
    rw [BitVec.toNat_ofNat]
    simp only [Format.exponentBias]
    omega
  unfold whole
  simp only [hmantissa]
  rw [UnpackedFloat.finite.injEq]
  exact ⟨rfl, rfl, hexponent⟩

/-! ### Operations -/

/-- A `float` is a positive whole number of at most 24 bits. -/
def IsWhole (x : Float32) (m : ℕ) : Prop :=
  ∃ (k : ℕ) (h : Scaled m k), x.toModel = Float32.Model.pack (whole h)

/-- Only one `float` is the number. -/
lemma IsWhole.eq {x y : Float32} (hx : IsWhole x m) (hy : IsWhole y m) : x = y := by
  obtain ⟨k, hk, hx⟩ := hx
  obtain ⟨j, hj, hy⟩ := hy
  obtain rfl := Nat.le_antisymm (hk.le_of_scaled hj) (hj.le_of_scaled hk)
  cases x
  cases y
  exact congrArg Float32.ofModel (hx.trans hy.symm)

/-- Products are exact. -/
lemma IsWhole.mul {x y : Float32} {a b : ℕ} (hx : IsWhole x a) (hy : IsWhole y b)
    (hlt : a * b < 2 ^ 24) : IsWhole (x * y) (a * b) := by
  obtain ⟨i, ha, hx⟩ := hx
  obtain ⟨j, hb, hy⟩ := hy
  have hpos : 0 < a * b :=
    Nat.mul_pos (Nat.pos_of_mul_pos_right ha.pos) (Nat.pos_of_mul_pos_right hb.pos)
  obtain ⟨k, hab⟩ := exists_scaled hpos hlt
  have hshift : a * 2 ^ i * (b * 2 ^ j) = a * b * 2 ^ (i + j) := by
    rw [Nat.pow_add, Nat.mul_mul_mul_comm]
  have hle : k ≤ i + j := by
    by_contra hgt
    have hpow : a * b * 2 ^ (i + j) ≤ a * b * 2 ^ k :=
      Nat.mul_le_mul_left _ (Nat.pow_le_pow_right (by decide) (by omega))
    have hbig : 2 ^ 23 * 2 ^ 23 ≤ a * 2 ^ i * (b * 2 ^ j) := Nat.mul_le_mul ha.le hb.le
    have := hab.lt
    omega
  obtain ⟨n, hn⟩ := Nat.exists_eq_add_of_le hle
  refine ⟨k, hab, ?_⟩
  have hround := round_whole hab n
  rw [Nat.mul_assoc (a * b), ← Nat.pow_add, ← hn, ← hshift,
    show -(k : ℤ) - n = -(i : ℤ) + -(j : ℤ) by omega] at hround
  change Float32.Model.pack (UnpackedFloat.mul .binary32 x.toModel.unpack y.toModel.unpack) = _
  rw [hx, hy, unpack_pack_whole, unpack_pack_whole]
  exact congrArg Float32.Model.pack hround

/-- The mantissa of a product, shifted by 24 bits, is a multiple of that of a factor. -/
lemma Scaled.mul_shift {b j : ℕ} (hb : Scaled b j) (a i : ℕ) :
    a * b * 2 ^ i * 2 ^ 24 = a * 2 ^ (i + 24 - j) * (b * 2 ^ j) := by
  have hj := hb.le_23
  have hpow : 2 ^ i * 2 ^ 24 = 2 ^ (i + 24 - j) * 2 ^ j := by
    rw [← Nat.pow_add, ← Nat.pow_add]
    congr 1
    omega
  rw [Nat.mul_assoc (a * b), hpow, Nat.mul_mul_mul_comm]

section Quotient

variable {a b i j : ℕ} (hab : Scaled (a * b) i) (hb : Scaled b j)
include hab hb

/-- The quotient has all the bits of its mantissa. -/
lemma Scaled.le_quotient {k : ℕ} (ha : Scaled a k) : k ≤ i + 24 - j := by
  by_contra hgt
  have hpow : a * 2 ^ (i + 24 - j) * 2 ≤ a * 2 ^ k := by
    rw [Nat.mul_assoc, ← Nat.pow_succ]
    exact Nat.mul_le_mul_left _ (Nat.pow_le_pow_right (by decide) (by omega))
  have hsmall : a * 2 ^ (i + 24 - j) < 2 ^ 23 := by
    have := ha.lt
    omega
  have hprod : a * 2 ^ (i + 24 - j) * (b * 2 ^ j) < 2 ^ 23 * 2 ^ 24 :=
    Nat.mul_lt_mul'' hsmall hb.lt
  have hnum := hb.mul_shift a i
  have := hab.le
  omega

/-- The division leaves no remainder. -/
lemma divCore_whole :
    divCore .binary32 (a * b * 2 ^ i) (-(i : ℤ)) (b * 2 ^ j) (-(j : ℤ)) =
      (a * 2 ^ (i + 24 - j), -((i + 24 - j : ℕ) : ℤ), .exact) := by
  have hi := hab.le_23
  have hj := hb.le_23
  have hlogab : (a * b * 2 ^ i).log2 = 23 := by simpa using hab.log2_eq 0
  have hlogb : (b * 2 ^ j).log2 = 23 := by simpa using hb.log2_eq 0
  have htarget : min (-(i : ℤ) - -(j : ℤ)) (Format.binary32.targetExponent
      (totalExponent (a * b * 2 ^ i) (-(i : ℤ)) - totalExponent (b * 2 ^ j) (-(j : ℤ)))) =
      -((i + 24 - j : ℕ) : ℤ) := by
    simp only [Format.targetExponent, totalExponent, hlogab, hlogb, Format.mantissaBits,
      Format.minExponent]
    omega
  have hshift : (-(i : ℤ) - -(j : ℤ) - -((i + 24 - j : ℕ) : ℤ)).toNat = 24 := by omega
  unfold divCore
  rw [htarget]
  dsimp only
  rw [hshift, Nat.shiftLeft_eq, hb.mul_shift a i, Nat.mul_div_cancel _ hb.pos,
    Nat.mul_mod_left]
  rfl

end Quotient

/-- Quotients are exact. -/
lemma IsWhole.div {x y : Float32} {a b : ℕ} (hx : IsWhole x (a * b)) (hy : IsWhole y b) :
    IsWhole (x / y) a := by
  obtain ⟨i, hab, hx⟩ := hx
  obtain ⟨j, hb, hy⟩ := hy
  have hbpos : 0 < b := Nat.pos_of_mul_pos_right hb.pos
  have hapos : 0 < a := Nat.pos_of_mul_pos_right (Nat.pos_of_mul_pos_right hab.pos)
  have hlt : a < 2 ^ 24 :=
    calc a ≤ a * b := Nat.le_mul_of_pos_right a hbpos
      _ ≤ a * b * 2 ^ i := Nat.le_mul_of_pos_right _ (Nat.two_pow_pos i)
      _ < 2 ^ 24 := hab.lt
  obtain ⟨k, ha⟩ := exists_scaled hapos hlt
  obtain ⟨n, hn⟩ := Nat.exists_eq_add_of_le (hab.le_quotient hb ha)
  refine ⟨k, ha, ?_⟩
  have hround := round_whole ha n
  rw [Nat.mul_assoc, ← Nat.pow_add, ← hn,
    show -(k : ℤ) - n = -((i + 24 - j : ℕ) : ℤ) by omega] at hround
  set core := divCore .binary32 (a * b * 2 ^ i) (-(i : ℤ)) (b * 2 ^ j) (-(j : ℤ)) with hcore
  have hdiv : UnpackedFloat.div .binary32 (whole hab) (whole hb) =
      roundWithAccuracy .binary32 .positive core.1 core.2.1 core.2.2 := rfl
  rw [divCore_whole hab hb] at hcore
  rw [hcore] at hdiv
  change Float32.Model.pack (UnpackedFloat.div .binary32 x.toModel.unpack y.toModel.unpack) = _
  rw [hx, hy, unpack_pack_whole, unpack_pack_whole]
  exact congrArg Float32.Model.pack (hdiv.trans hround)

/-- The conversion of a `UInt64` is exact. -/
lemma isWhole_toFloat32_toUInt64 {n : ℕ} (hpos : 0 < n) (hlt : n < 2 ^ 24) :
    IsWhole n.toUInt64.toFloat32 n := by
  have hlog : n.log2 ≤ 23 := Nat.le_of_lt_succ ((Nat.log2_lt hpos.ne').mpr hlt)
  obtain ⟨k, hk⟩ := Nat.exists_eq_add_of_le hlog
  have h : Scaled n k := by
    have h := scaled_log2 hpos hlog
    rwa [hk, Nat.add_sub_cancel_left] at h
  refine ⟨k, h, congrArg Float32.Model.pack ?_⟩
  have hword : n.toUInt64.toNat = n := by
    rw [Nat.toUInt64_eq, UInt64.toNat_ofNat']
    omega
  have hcompare : compare (n : ℤ) 0 = .gt := by
    rw [Int.compare_eq_gt]
    omega
  have htarget : Format.binary32.targetExponent (totalExponent n 0) = -(k : ℤ) := by
    simp only [Format.targetExponent, totalExponent, Format.mantissaBits, Format.minExponent]
    omega
  have hshift : ((0 : ℤ) - -(k : ℤ)).toNat = k := by omega
  unfold UnpackedFloat.ofUInt64 UnpackedFloat.ofNat UnpackedFloat.ofInt UnpackedFloat.normalize
  rw [hword, hcompare]
  dsimp only
  unfold UnpackedFloat.round decreaseExponent
  rw [Int.toNat_natCast, htarget]
  dsimp only
  rw [hshift, Nat.shiftLeft_eq]
  simpa using round_whole h 0

/-- Conversions are exact. -/
lemma isWhole_toFloat32 {n : ℕ} (hpos : 0 < n) (hlt : n < 2 ^ 23) : IsWhole n.toFloat32 n := by
  have hone : IsWhole (Float32.ofBits 0x3F800000) 1 := ⟨23, ⟨by decide, by decide⟩, by decide⟩
  have hmul := (isWhole_toFloat32_toUInt64 hpos (by omega)).mul hone (by omega)
  rw [Nat.mul_one] at hmul
  have heq : n.toFloat32 = n.toUInt64.toFloat32 * Float32.ofBits 0x3F800000 := by
    unfold Nat.toFloat32 Float32.ofNat
    exact dif_pos ⟨hlt, by decide⟩
  rwa [heq]

/-- A product of small numbers divided by one of them is the other. -/
theorem mul_div_cancel {a b : ℕ} (ha : 0 < a) (hb : 0 < b) (ha' : a < 2 ^ 23) (hb' : b < 2 ^ 23)
    (hlt : a * b < 2 ^ 24) : a.toFloat32 * b.toFloat32 / b.toFloat32 = a.toFloat32 :=
  (((isWhole_toFloat32 ha ha').mul (isWhole_toFloat32 hb hb') hlt).div
    (isWhole_toFloat32 hb hb')).eq (isWhole_toFloat32 ha ha')

end Binary32

end Tent
