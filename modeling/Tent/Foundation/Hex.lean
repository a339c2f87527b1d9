import Tent.Foundation.Bytes

/-!
# Hexadecimal digits

Printing a byte string in lowercase hexadecimal digits (`toHex`), and the decoding of percent
escapes (`percentDecode`).  An escape is a percent sign in front of two digits of either case; a
percent sign without them stands for itself.

`percentDecode_flatMap_escape` is the round trip: escaping every byte and decoding gives the bytes
back.
-/

set_option autoImplicit false

namespace Bytes

/-! ### Digits -/

/-- The lowercase digits. -/
def hexChars : ByteString :=
  [48, 49, 50, 51, 52, 53, 54, 55, 56, 57, 97, 98, 99, 100, 101, 102]

/-- The uppercase digits. -/
def upperHexChars : ByteString :=
  [48, 49, 50, 51, 52, 53, 54, 55, 56, 57, 65, 66, 67, 68, 69, 70]

/-- The lowercase digit with the given value. -/
def hexDigit (d : ℕ) : UInt8 := hexChars.getD d 0

/-- The value of a digit of either case; none for everything else. -/
def hexValue (x : UInt8) : Option ℕ := (hexChars.idxOf? x).or (upperHexChars.idxOf? x)

/-- The two digits of a byte, the higher one first. -/
def hexPair (x : UInt8) : ByteString := [hexDigit (x.toNat / 16), hexDigit (x.toNat % 16)]

/-- A byte string in lowercase digits. -/
def toHex (b : ByteString) : ByteString := b.flatMap hexPair

/-- A digit has the value that it was printed for. -/
lemma hexValue_hexDigit {d : ℕ} (hd : d < 16) : hexValue (hexDigit d) = some d := by
  have hall : ∀ e ∈ List.range 16, hexValue (hexDigit e) = some e := by decide
  exact hall d (List.mem_range.mpr hd)

/-- The digits that are printed are digits. -/
lemma hexDigit_mem_hexChars {d : ℕ} (hd : d < 16) : hexDigit d ∈ hexChars := by
  have hall : ∀ e ∈ List.range 16, hexDigit e ∈ hexChars := by decide
  exact hall d (List.mem_range.mpr hd)

/-- A byte is put together from the values of its two digits. -/
lemma ofNat_halves (x : UInt8) : UInt8.ofNat (16 * (x.toNat / 16) + x.toNat % 16) = x := by
  rw [Nat.div_add_mod, UInt8.ofNat_toNat]

/-- The higher digit of a byte is one. -/
lemma toNat_div_lt (x : UInt8) : x.toNat / 16 < 16 := by
  have hx := x.toNat_lt
  omega

/-- The lower digit of a byte is one. -/
lemma toNat_mod_lt (x : UInt8) : x.toNat % 16 < 16 := Nat.mod_lt _ (by decide)

/-! ### Percent escapes -/

/-- The escape of a byte. -/
def escape (x : UInt8) : ByteString := 37 :: hexPair x

/-- Decode the escapes of a string. -/
def percentDecode : ByteString → ByteString
  | x :: hi :: lo :: rest =>
    match x == 37, hexValue hi, hexValue lo with
    | true, some a, some b => UInt8.ofNat (16 * a + b) :: percentDecode rest
    | _, _, _ => x :: percentDecode (hi :: lo :: rest)
  | rest => rest

/-- An escape is decoded as the byte that it stands for. -/
lemma percentDecode_escape_append (x : UInt8) (rest : ByteString) :
    percentDecode (escape x ++ rest) = x :: percentDecode rest := by
  have hhi := hexValue_hexDigit (toNat_div_lt x)
  have hlo := hexValue_hexDigit (toNat_mod_lt x)
  rw [escape, hexPair, List.cons_append, List.cons_append, List.singleton_append, percentDecode]
  simp only [beq_self_eq_true, hhi, hlo]
  rw [ofNat_halves]

/-- Escaped bytes are decoded as these bytes. -/
lemma percentDecode_flatMap_escape (b : ByteString) : percentDecode (b.flatMap escape) = b := by
  induction b with
  | nil => rfl
  | cons x b ih => rw [List.flatMap_cons, percentDecode_escape_append, ih]

/-- In an escaped string are percent signs and digits only. -/
lemma mem_flatMap_escape {b : ByteString} {x : UInt8} (hx : x ∈ b.flatMap escape) :
    x = 37 ∨ x ∈ hexChars := by
  rcases List.mem_flatMap.mp hx with ⟨y, -, hy⟩
  simp only [escape, hexPair, List.mem_cons, List.not_mem_nil, or_false] at hy
  rcases hy with rfl | rfl | rfl
  · exact .inl rfl
  · exact .inr (hexDigit_mem_hexChars (toNat_div_lt y))
  · exact .inr (hexDigit_mem_hexChars (toNat_mod_lt y))

end Bytes
