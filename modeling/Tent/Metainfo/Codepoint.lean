import Tent.Foundation.Utf8

/-!
# Code points

`parse_utf8_codepoint` and `isLegalUTF8`: the length of a sequence is read off its first byte, the
bytes behind it are checked from the last to the first, and the code point is summed up with all the
marker bits, which are subtracted at the end.  It finds a code point exactly in front of a string
that begins with the UTF-8 of a scalar value (`parseUtf8Codepoint_eq_iff`).
-/

set_option autoImplicit false

namespace Tent

open Bytes Utf8

/-- `trailingBytesForUTF8`. -/
def trailingBytesForUTF8 (b : ℕ) : ℕ :=
  if b < 0xC0 then 0 else if b < 0xE0 then 1 else if b < 0xF0 then 2 else if b < 0xF8 then 3
  else if b < 0xFC then 4 else 5

/-- `offsetsFromUTF8`. -/
def offsetsFromUTF8 : List ℕ := [0, 0x3080, 0xE2080, 0x3C82080, 0xFA082080, 0x82082080]

/-- A byte that does not begin a sequence. -/
def isTrailing (a : ℕ) : Bool := !(a < 0x80 || 0xBF < a)

/-- The inner `switch`: what the first byte asks of the second. -/
def secondLegal (source a : ℕ) : Bool :=
  if source = 0xE0 then !(a < 0xA0)
  else if source = 0xED then !(0x9F < a)
  else if source = 0xF0 then !(a < 0x90)
  else if source = 0xF4 then !(0x8F < a)
  else true

/-- The last two checks, which are about the first byte only. -/
def firstLegal (source : ℕ) : Bool := !(0x80 ≤ source && source < 0xC2) && !(0xF4 < source)

/-- `isLegalUTF8`, given that there are as many bytes. -/
def isLegalUTF8 (str : ByteString) (length : ℕ) : Bool :=
  let byte (k : ℕ) : ℕ := (str.getD k 0).toNat
  match length with
  | 1 => firstLegal (byte 0)
  | 2 => isTrailing (byte 1) && secondLegal (byte 0) (byte 1) && firstLegal (byte 0)
  | 3 => isTrailing (byte 2) && isTrailing (byte 1) && secondLegal (byte 0) (byte 1) &&
      firstLegal (byte 0)
  | 4 => isTrailing (byte 3) && isTrailing (byte 2) && isTrailing (byte 1) &&
      secondLegal (byte 0) (byte 1) && firstLegal (byte 0)
  | _ => false

/-- The code point of a sequence, a `uint32_t`: the bytes are summed up and the offset is
subtracted. -/
def codepointOf (bytes : ByteString) : ℕ :=
  let sum := bytes.foldl (fun ch b => (ch * 64 + b.toNat) % 2 ^ 32) 0
  (sum + (2 ^ 32 - offsetsFromUTF8.getD (bytes.length - 1) 0)) % 2 ^ 32

/-- `parse_utf8_codepoint`: the code point, or -1, and the length of the sequence. -/
def parseUtf8Codepoint (str : ByteString) : ℤ × ℕ :=
  let sequenceLen := trailingBytesForUTF8 (str.getD 0 0).toNat + 1
  if str.length < sequenceLen then (-1, str.length)
  else if 4 < sequenceLen then (-1, sequenceLen)
  else if !isLegalUTF8 str sequenceLen then (-1, sequenceLen)
  else if 0x7FFFFFFF < codepointOf (str.take sequenceLen) then (-1, sequenceLen)
  else (codepointOf (str.take sequenceLen), sequenceLen)

/-- The sequence is not empty, and ends inside the string. -/
lemma parseUtf8Codepoint_length {str : ByteString} (h : str ≠ []) :
    0 < (parseUtf8Codepoint str).2 ∧ (parseUtf8Codepoint str).2 ≤ str.length := by
  have hpos : 0 < str.length := List.length_pos_iff.mpr h
  unfold parseUtf8Codepoint
  dsimp only
  split_ifs with hshort
  · exact ⟨hpos, Nat.le_refl _⟩
  all_goals exact ⟨Nat.succ_pos _, Nat.not_lt.mp hshort⟩

/-! ### The checks as ranges -/

/-- The bytes that do not begin a sequence. -/
lemma isTrailing_iff {a : ℕ} : isTrailing a = true ↔ 0x80 ≤ a ∧ a ≤ 0xBF := by
  simp [isTrailing]

/-- What the first byte asks of the second. -/
lemma secondLegal_iff {source a : ℕ} : secondLegal source a = true ↔
    (source = 0xE0 → 0xA0 ≤ a) ∧ (source = 0xED → a ≤ 0x9F) ∧ (source = 0xF0 → 0x90 ≤ a) ∧
      (source = 0xF4 → a ≤ 0x8F) := by
  unfold secondLegal
  split_ifs <;> simp <;> omega

/-- What is asked of the first byte alone. -/
lemma firstLegal_iff {source : ℕ} :
    firstLegal source = true ↔ (source < 0x80 ∨ 0xC2 ≤ source) ∧ source ≤ 0xF4 := by
  simp only [firstLegal, Bool.and_eq_true, Bool.not_eq_true', Bool.and_eq_false_iff,
    decide_eq_false_iff_not, not_le, not_lt]

/-- Legal sequences have one to four bytes. -/
lemma length_le_of_isLegalUTF8 {str : ByteString} {n : ℕ} (h : isLegalUTF8 str n = true) :
    n ≤ 4 := by
  unfold isLegalUTF8 at h
  split at h <;> first | omega | exact absurd h Bool.false_ne_true

/-- A code point is found in front of a legal sequence. -/
lemma parseUtf8Codepoint_eq_natCast {str : ByteString} {cp n : ℕ} :
    parseUtf8Codepoint str = ((cp : ℤ), n) ↔
      n = trailingBytesForUTF8 (str.getD 0 0).toNat + 1 ∧ n ≤ str.length ∧
        isLegalUTF8 str n = true ∧ cp = codepointOf (str.take n) ∧ cp ≤ 0x7FFFFFFF := by
  have hfail : ∀ m : ℕ, ((-1 : ℤ), m) ≠ ((cp : ℤ), n) := by
    intro m h
    have hneg := (Prod.mk.inj h).1
    omega
  unfold parseUtf8Codepoint
  dsimp only
  split_ifs with hshort hlong hlegal hlarge
  · exact iff_of_false (hfail _) (by omega)
  · refine iff_of_false (hfail _) ?_
    rintro ⟨rfl, -, hlegal, -⟩
    exact absurd (length_le_of_isLegalUTF8 hlegal) (not_le.mpr hlong)
  · refine iff_of_false (hfail _) ?_
    rintro ⟨rfl, -, htrue, -⟩
    rw [htrue] at hlegal
    exact absurd hlegal (by decide)
  · refine iff_of_false (hfail _) ?_
    rintro ⟨rfl, -, -, rfl, hle⟩
    omega
  · rw [Prod.mk.injEq, Nat.cast_inj]
    constructor
    · rintro ⟨rfl, rfl⟩
      exact ⟨rfl, not_lt.mp hshort, by simpa using hlegal, rfl, not_lt.mp hlarge⟩
    · rintro ⟨rfl, -, -, rfl, -⟩
      exact ⟨rfl, rfl⟩

/-- The number of bytes behind a first byte. -/
lemma trailingBytesForUTF8_eq {a k : ℕ} (hk : k < 4) :
    trailingBytesForUTF8 a = k ↔
      k = 0 ∧ a < 0xC0 ∨ k = 1 ∧ 0xC0 ≤ a ∧ a < 0xE0 ∨ k = 2 ∧ 0xE0 ≤ a ∧ a < 0xF0 ∨
        k = 3 ∧ 0xF0 ≤ a ∧ a < 0xF8 := by
  unfold trailingBytesForUTF8
  constructor
  · intro h
    split_ifs at h <;> omega
  · intro h
    split_ifs <;> omega

/-! ### Values -/

section Values

variable (a b c d : UInt8)

/-- The code point of one byte. -/
lemma codepointOf_one : codepointOf [a] = a.toNat := by
  have ha := a.toNat_lt
  change ((0 * 64 + a.toNat) % 2 ^ 32 + (2 ^ 32 - 0)) % 2 ^ 32 = _
  omega

/-- The code point of two bytes. -/
lemma codepointOf_two (ha : 0xC0 ≤ a.toNat) (hb : 0x80 ≤ b.toNat) :
    codepointOf [a, b] = (a.toNat - 0xC0) * 64 + (b.toNat - 0x80) := by
  have ha' := a.toNat_lt
  have hb' := b.toNat_lt
  change (((0 * 64 + a.toNat) % 2 ^ 32 * 64 + b.toNat) % 2 ^ 32 + (2 ^ 32 - 0x3080)) % 2 ^ 32 = _
  omega

/-- The code point of three bytes. -/
lemma codepointOf_three (ha : 0xE0 ≤ a.toNat) (hb : 0x80 ≤ b.toNat) (hc : 0x80 ≤ c.toNat) :
    codepointOf [a, b, c] =
      (a.toNat - 0xE0) * 4096 + (b.toNat - 0x80) * 64 + (c.toNat - 0x80) := by
  have ha' := a.toNat_lt
  have hb' := b.toNat_lt
  have hc' := c.toNat_lt
  change ((((0 * 64 + a.toNat) % 2 ^ 32 * 64 + b.toNat) % 2 ^ 32 * 64 + c.toNat) % 2 ^ 32 +
    (2 ^ 32 - 0xE2080)) % 2 ^ 32 = _
  omega

/-- The code point of four bytes. -/
lemma codepointOf_four (ha : 0xF0 ≤ a.toNat) (hb : 0x80 ≤ b.toNat) (hc : 0x80 ≤ c.toNat)
    (hd : 0x80 ≤ d.toNat) :
    codepointOf [a, b, c, d] = (a.toNat - 0xF0) * 262144 + (b.toNat - 0x80) * 4096 +
      (c.toNat - 0x80) * 64 + (d.toNat - 0x80) := by
  have ha' := a.toNat_lt
  have hb' := b.toNat_lt
  have hc' := c.toNat_lt
  have hd' := d.toNat_lt
  change (((((0 * 64 + a.toNat) % 2 ^ 32 * 64 + b.toNat) % 2 ^ 32 * 64 + c.toNat) % 2 ^ 32 * 64 +
    d.toNat) % 2 ^ 32 + (2 ^ 32 - 0x3C82080)) % 2 ^ 32 = _
  omega

variable {a b c d}

/-- One byte that is the UTF-8 of its code point. -/
lemma encode_one (ha : a.toNat < 0x80) : Scalar a.toNat ∧ encode a.toNat = [a] := by
  refine ⟨Or.inl (by omega), ?_⟩
  rw [encode, if_pos ha, UInt8.ofNat_toNat]

/-- Two bytes that are the UTF-8 of their code point. -/
lemma encode_two (ha : 0xC2 ≤ a.toNat) (ha' : a.toNat < 0xE0) (hb : 0x80 ≤ b.toNat)
    (hb' : b.toNat ≤ 0xBF) {cp : ℕ} (hcp : cp = (a.toNat - 0xC0) * 64 + (b.toNat - 0x80)) :
    Scalar cp ∧ encode cp = [a, b] := by
  refine ⟨Or.inl (by omega), ?_⟩
  rw [encode, if_neg (by omega), if_pos (by omega), ofNat_eq (b := a) (by omega),
    ofNat_eq (b := b) (by omega)]

/-- Three bytes that are the UTF-8 of their code point. -/
lemma encode_three (ha : 0xE0 ≤ a.toNat) (ha' : a.toNat < 0xF0) (hb : 0x80 ≤ b.toNat)
    (hb' : b.toNat ≤ 0xBF) (hc : 0x80 ≤ c.toNat) (hc' : c.toNat ≤ 0xBF)
    (hsecond : secondLegal a.toNat b.toNat = true) {cp : ℕ}
    (hcp : cp = (a.toNat - 0xE0) * 4096 + (b.toNat - 0x80) * 64 + (c.toNat - 0x80)) :
    Scalar cp ∧ encode cp = [a, b, c] := by
  obtain ⟨hlow, hsurrogate, -, -⟩ := secondLegal_iff.mp hsecond
  have hmin : 0x800 ≤ cp := by
    by_cases hfirst : a.toNat = 0xE0
    · have := hlow hfirst
      omega
    · omega
  refine ⟨?_, ?_⟩
  · by_cases hfirst : a.toNat = 0xED
    · have := hsurrogate hfirst
      exact Or.inl (by omega)
    · by_cases hbelow : a.toNat < 0xED
      · exact Or.inl (by omega)
      · exact Or.inr ⟨by omega, by omega⟩
  · rw [encode, if_neg (by omega), if_neg (by omega), if_pos (by omega),
      ofNat_eq (b := a) (by omega), ofNat_eq (b := b) (by omega), ofNat_eq (b := c) (by omega)]

/-- Four bytes that are the UTF-8 of their code point. -/
lemma encode_four (ha : 0xF0 ≤ a.toNat) (ha' : a.toNat ≤ 0xF4) (hb : 0x80 ≤ b.toNat)
    (hb' : b.toNat ≤ 0xBF) (hc : 0x80 ≤ c.toNat) (hc' : c.toNat ≤ 0xBF) (hd : 0x80 ≤ d.toNat)
    (hd' : d.toNat ≤ 0xBF) (hsecond : secondLegal a.toNat b.toNat = true) {cp : ℕ}
    (hcp : cp = (a.toNat - 0xF0) * 262144 + (b.toNat - 0x80) * 4096 + (c.toNat - 0x80) * 64 +
      (d.toNat - 0x80)) :
    Scalar cp ∧ encode cp = [a, b, c, d] := by
  obtain ⟨-, -, hlow, hhigh⟩ := secondLegal_iff.mp hsecond
  have hmin : 0x10000 ≤ cp := by
    by_cases hfirst : a.toNat = 0xF0
    · have := hlow hfirst
      omega
    · omega
  have hmax : cp < 0x110000 := by
    by_cases hfirst : a.toNat = 0xF4
    · have := hhigh hfirst
      omega
    · omega
  refine ⟨Or.inr ⟨by omega, hmax⟩, ?_⟩
  rw [encode, if_neg (by omega), if_neg (by omega), if_neg (by omega), ofNat_eq (b := a) (by omega),
    ofNat_eq (b := b) (by omega), ofNat_eq (b := c) (by omega), ofNat_eq (b := d) (by omega)]

end Values

/-- A code point that is found is a scalar value, and the string begins with its UTF-8. -/
lemma exists_encode_of_parse {str : ByteString} {cp n : ℕ}
    (h : parseUtf8Codepoint str = ((cp : ℤ), n)) :
    Scalar cp ∧ encode cp = str.take n ∧ n ≤ str.length := by
  obtain ⟨hn, hlength, hlegal, hcp, -⟩ := parseUtf8Codepoint_eq_natCast.mp h
  have hle := length_le_of_isLegalUTF8 hlegal
  have hrange := (trailingBytesForUTF8_eq (k := n - 1) (by omega)).mp
    (show trailingBytesForUTF8 (str.getD 0 0).toNat = n - 1 by omega)
  rcases hrange with ⟨h, hlow⟩ | ⟨h, hlow, hhigh⟩ | ⟨h, hlow, hhigh⟩ | ⟨h, hlow, hhigh⟩
  · obtain rfl : n = 1 := by omega
    obtain ⟨a, rest, rfl⟩ := List.exists_cons_of_length_pos hlength
    have hfirst := firstLegal_iff.mp (show firstLegal a.toNat = true from hlegal)
    have hvalue : cp = a.toNat := hcp.trans (codepointOf_one a)
    have ha : a.toNat < 0xC0 := hlow
    obtain ⟨hscalar, hencode⟩ := encode_one (a := a) (by omega)
    exact ⟨hvalue ▸ hscalar, hvalue ▸ hencode, hlength⟩
  · obtain rfl : n = 2 := by omega
    obtain ⟨a, rest, rfl⟩ := List.exists_cons_of_length_pos (Nat.lt_of_lt_of_le two_pos hlength)
    obtain ⟨b, rest, rfl⟩ := List.exists_cons_of_length_pos (Nat.le_of_succ_le_succ hlength)
    have hchecks : (isTrailing b.toNat && secondLegal a.toNat b.toNat && firstLegal a.toNat) =
        true := hlegal
    simp only [Bool.and_eq_true, isTrailing_iff, firstLegal_iff] at hchecks
    obtain ⟨⟨⟨hb, hb'⟩, -⟩, hfirst, -⟩ := hchecks
    have ha : 0xC0 ≤ a.toNat := hlow
    have hvalue := hcp.trans (codepointOf_two a b ha hb)
    obtain ⟨hscalar, hencode⟩ := encode_two (a := a) (by omega) hhigh hb hb' hvalue
    exact ⟨hscalar, hencode, hlength⟩
  · obtain rfl : n = 3 := by omega
    obtain ⟨a, rest, rfl⟩ := List.exists_cons_of_length_pos (Nat.lt_of_lt_of_le three_pos hlength)
    obtain ⟨b, rest, rfl⟩ := List.exists_cons_of_length_pos
      (Nat.lt_of_lt_of_le two_pos (Nat.le_of_succ_le_succ hlength))
    obtain ⟨c, rest, rfl⟩ := List.exists_cons_of_length_pos
      (Nat.le_of_succ_le_succ (Nat.le_of_succ_le_succ hlength))
    have hchecks : (isTrailing c.toNat && isTrailing b.toNat && secondLegal a.toNat b.toNat &&
        firstLegal a.toNat) = true := hlegal
    simp only [Bool.and_eq_true, isTrailing_iff] at hchecks
    obtain ⟨⟨⟨⟨hc, hc'⟩, hb, hb'⟩, hsecond⟩, -⟩ := hchecks
    have hvalue := hcp.trans (codepointOf_three a b c hlow hb hc)
    obtain ⟨hscalar, hencode⟩ := encode_three hlow hhigh hb hb' hc hc' hsecond hvalue
    exact ⟨hscalar, hencode, hlength⟩
  · obtain rfl : n = 4 := by omega
    obtain ⟨a, rest, rfl⟩ := List.exists_cons_of_length_pos (Nat.lt_of_lt_of_le four_pos hlength)
    obtain ⟨b, rest, rfl⟩ := List.exists_cons_of_length_pos
      (Nat.lt_of_lt_of_le three_pos (Nat.le_of_succ_le_succ hlength))
    obtain ⟨c, rest, rfl⟩ := List.exists_cons_of_length_pos
      (Nat.lt_of_lt_of_le two_pos (Nat.le_of_succ_le_succ (Nat.le_of_succ_le_succ hlength)))
    obtain ⟨d, rest, rfl⟩ := List.exists_cons_of_length_pos
      (Nat.le_of_succ_le_succ (Nat.le_of_succ_le_succ (Nat.le_of_succ_le_succ hlength)))
    have hchecks : (isTrailing d.toNat && isTrailing c.toNat && isTrailing b.toNat &&
        secondLegal a.toNat b.toNat && firstLegal a.toNat) = true := hlegal
    simp only [Bool.and_eq_true, isTrailing_iff, firstLegal_iff] at hchecks
    obtain ⟨⟨⟨⟨⟨hd, hd'⟩, hc, hc'⟩, hb, hb'⟩, hsecond⟩, -, hfirst⟩ := hchecks
    have hvalue := hcp.trans (codepointOf_four a b c d hlow hb hc hd)
    obtain ⟨hscalar, hencode⟩ := encode_four hlow hfirst hb hb' hc hc' hd hd' hsecond hvalue
    exact ⟨hscalar, hencode, hlength⟩

/-- The UTF-8 of a scalar value is found in front of any rest. -/
lemma parseUtf8Codepoint_encode {cp : ℕ} (hcp : Scalar cp) (rest : ByteString) :
    parseUtf8Codepoint (encode cp ++ rest) = ((cp : ℤ), (encode cp).length) := by
  unfold Scalar at hcp
  rw [parseUtf8Codepoint_eq_natCast]
  by_cases h₁ : cp < 0x80
  · have hencode : encode cp = [UInt8.ofNat cp] := by rw [encode, if_pos h₁]
    have ha : (UInt8.ofNat cp).toNat = cp := toNat_ofNat_of_lt (by omega)
    generalize UInt8.ofNat cp = a at hencode ha
    have htrailing := (trailingBytesForUTF8_eq (a := a.toNat) (show 0 < 4 by decide)).mpr (by omega)
    rw [hencode]
    refine ⟨congrArg (· + 1) htrailing.symm, Nat.le_add_left _ _, ?_, ?_, by omega⟩
    · change firstLegal a.toNat = true
      rw [firstLegal_iff]
      omega
    · exact ha.symm.trans (codepointOf_one a).symm
  by_cases h₂ : cp < 0x800
  · have hencode : encode cp =
        [UInt8.ofNat (0xC0 + cp / 64), UInt8.ofNat (0x80 + cp % 64)] := by
      rw [encode, if_neg h₁, if_pos h₂]
    have ha := toNat_ofNat_of_lt (show 0xC0 + cp / 64 < 256 by omega)
    have hb := toNat_ofNat_of_lt (show 0x80 + cp % 64 < 256 by omega)
    generalize UInt8.ofNat (0xC0 + cp / 64) = a at hencode ha
    generalize UInt8.ofNat (0x80 + cp % 64) = b at hencode hb
    have htrailing := (trailingBytesForUTF8_eq (a := a.toNat) (show 1 < 4 by decide)).mpr (by omega)
    have hvalue := codepointOf_two a b (by omega) (by omega)
    rw [hencode]
    refine ⟨congrArg (· + 1) htrailing.symm, Nat.le_add_left _ _, ?_, ?_, by omega⟩
    · change (isTrailing b.toNat && secondLegal a.toNat b.toNat && firstLegal a.toNat) = true
      simp only [Bool.and_eq_true, isTrailing_iff, secondLegal_iff, firstLegal_iff]
      omega
    · exact (hvalue.trans (by omega)).symm
  by_cases h₃ : cp < 0x10000
  · have hencode : encode cp = [UInt8.ofNat (0xE0 + cp / 4096),
        UInt8.ofNat (0x80 + cp / 64 % 64), UInt8.ofNat (0x80 + cp % 64)] := by
      rw [encode, if_neg h₁, if_neg h₂, if_pos h₃]
    have ha := toNat_ofNat_of_lt (show 0xE0 + cp / 4096 < 256 by omega)
    have hb := toNat_ofNat_of_lt (show 0x80 + cp / 64 % 64 < 256 by omega)
    have hc := toNat_ofNat_of_lt (show 0x80 + cp % 64 < 256 by omega)
    generalize UInt8.ofNat (0xE0 + cp / 4096) = a at hencode ha
    generalize UInt8.ofNat (0x80 + cp / 64 % 64) = b at hencode hb
    generalize UInt8.ofNat (0x80 + cp % 64) = c at hencode hc
    have htrailing := (trailingBytesForUTF8_eq (a := a.toNat) (show 2 < 4 by decide)).mpr (by omega)
    have hvalue := codepointOf_three a b c (by omega) (by omega) (by omega)
    rw [hencode]
    refine ⟨congrArg (· + 1) htrailing.symm, Nat.le_add_left _ _, ?_, ?_, by omega⟩
    · change (isTrailing c.toNat && isTrailing b.toNat && secondLegal a.toNat b.toNat &&
        firstLegal a.toNat) = true
      simp only [Bool.and_eq_true, isTrailing_iff, secondLegal_iff, firstLegal_iff]
      omega
    · exact (hvalue.trans (by omega)).symm
  · have hencode : encode cp = [UInt8.ofNat (0xF0 + cp / 262144),
        UInt8.ofNat (0x80 + cp / 4096 % 64), UInt8.ofNat (0x80 + cp / 64 % 64),
        UInt8.ofNat (0x80 + cp % 64)] := by
      rw [encode, if_neg h₁, if_neg h₂, if_neg h₃]
    have ha := toNat_ofNat_of_lt (show 0xF0 + cp / 262144 < 256 by omega)
    have hb := toNat_ofNat_of_lt (show 0x80 + cp / 4096 % 64 < 256 by omega)
    have hc := toNat_ofNat_of_lt (show 0x80 + cp / 64 % 64 < 256 by omega)
    have hd := toNat_ofNat_of_lt (show 0x80 + cp % 64 < 256 by omega)
    generalize UInt8.ofNat (0xF0 + cp / 262144) = a at hencode ha
    generalize UInt8.ofNat (0x80 + cp / 4096 % 64) = b at hencode hb
    generalize UInt8.ofNat (0x80 + cp / 64 % 64) = c at hencode hc
    generalize UInt8.ofNat (0x80 + cp % 64) = d at hencode hd
    have htrailing := (trailingBytesForUTF8_eq (a := a.toNat) (show 3 < 4 by decide)).mpr (by omega)
    have hvalue := codepointOf_four a b c d (by omega) (by omega) (by omega) (by omega)
    rw [hencode]
    refine ⟨congrArg (· + 1) htrailing.symm, Nat.le_add_left _ _, ?_, ?_, by omega⟩
    · change (isTrailing d.toNat && isTrailing c.toNat && isTrailing b.toNat &&
        secondLegal a.toNat b.toNat && firstLegal a.toNat) = true
      simp only [Bool.and_eq_true, isTrailing_iff, secondLegal_iff, firstLegal_iff]
      omega
    · exact (hvalue.trans (by omega)).symm

/-- A code point is found exactly in front of a string that begins with the UTF-8 of a scalar
value. -/
theorem parseUtf8Codepoint_eq_iff {str : ByteString} {cp n : ℕ} :
    parseUtf8Codepoint str = ((cp : ℤ), n) ↔
      Scalar cp ∧ n = (encode cp).length ∧ ∃ rest, str = encode cp ++ rest := by
  constructor
  · intro h
    obtain ⟨hscalar, hencode, hlength⟩ := exists_encode_of_parse h
    refine ⟨hscalar, ?_, str.drop n, ?_⟩
    · rw [hencode, List.length_take, Nat.min_eq_left hlength]
    · rw [hencode, List.take_append_drop]
  · rintro ⟨hscalar, rfl, rest, rfl⟩
    exact parseUtf8Codepoint_encode hscalar rest

end Tent
