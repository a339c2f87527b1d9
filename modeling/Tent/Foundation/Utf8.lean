import Mathlib.Data.List.Infix
import Tent.Foundation.Bytes

/-!
# UTF-8

The encoding of Unicode scalar values in one to four bytes.  A byte below 128 stands for itself
wherever it occurs (`eq_of_mem_encode`), so that a program may look for separators byte by byte.
-/

set_option autoImplicit false

namespace Utf8

open Bytes

/-- The code points that are not surrogates. -/
def Scalar (cp : ℕ) : Prop := cp < 0xD800 ∨ 0xE000 ≤ cp ∧ cp < 0x110000

instance (cp : ℕ) : Decidable (Scalar cp) := inferInstanceAs (Decidable (_ ∨ _))

/-- The bytes of a code point. -/
def encode (cp : ℕ) : ByteString :=
  if cp < 0x80 then [UInt8.ofNat cp]
  else if cp < 0x800 then [UInt8.ofNat (0xC0 + cp / 64), UInt8.ofNat (0x80 + cp % 64)]
  else if cp < 0x10000 then
    [UInt8.ofNat (0xE0 + cp / 4096), UInt8.ofNat (0x80 + cp / 64 % 64),
      UInt8.ofNat (0x80 + cp % 64)]
  else
    [UInt8.ofNat (0xF0 + cp / 262144), UInt8.ofNat (0x80 + cp / 4096 % 64),
      UInt8.ofNat (0x80 + cp / 64 % 64), UInt8.ofNat (0x80 + cp % 64)]

/-- A byte that fits. -/
lemma toNat_ofNat_of_lt {n : ℕ} (h : n < 256) : (UInt8.ofNat n).toNat = n := by
  rw [UInt8.toNat_ofNat']
  exact Nat.mod_eq_of_lt h

/-- A byte is the one of its value. -/
lemma ofNat_eq {n : ℕ} {b : UInt8} (h : n = b.toNat) : UInt8.ofNat n = b := by
  rw [h, UInt8.ofNat_toNat]

/-- A code point has one to four bytes. -/
lemma length_encode (cp : ℕ) : 0 < (encode cp).length ∧ (encode cp).length ≤ 4 := by
  unfold encode
  split_ifs <;> simp

/-- A byte with the highest bit is not low. -/
lemma not_low {n : ℕ} (hhigh : 0x80 ≤ n) (hn : n < 256) : ¬ (UInt8.ofNat n).toNat < 0x80 := by
  rw [toNat_ofNat_of_lt hn]
  omega

/-- Bytes below 128 stand for themselves. -/
lemma eq_of_mem_encode {cp : ℕ} (hcp : Scalar cp) {b : UInt8} (hb : b ∈ encode cp)
    (hlow : b.toNat < 0x80) : b.toNat = cp := by
  unfold Scalar at hcp
  unfold encode at hb
  split_ifs at hb with h₁ h₂ h₃
  · rw [List.mem_singleton] at hb
    rw [hb, toNat_ofNat_of_lt (by omega)]
  all_goals
    simp only [List.mem_cons, List.not_mem_nil, or_false] at hb
  · rcases hb with rfl | rfl <;> exact absurd hlow (not_low (by omega) (by omega))
  · rcases hb with rfl | rfl | rfl <;> exact absurd hlow (not_low (by omega) (by omega))
  · rcases hb with rfl | rfl | rfl | rfl <;> exact absurd hlow (not_low (by omega) (by omega))

end Utf8
