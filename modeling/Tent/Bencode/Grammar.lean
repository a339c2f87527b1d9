import Tent.Bencode.Bdecode
import Tent.Foundation.Hedge

/-!
# Bencoded items

What `bdecode` accepts, as a grammar.  An integer is an `i`, an optional minus sign, between one and
twenty digits and an `e`; a string is its length in at most eight digits, a colon and as many
bytes; a list or a dictionary is a letter, a row of items and an `e`; in a dictionary strings, the
keys, take turns with values.  Leading zeros are allowed, keys may come in any order and more than
once.

A row of items is a hedge: its leaves are integers and strings, its nodes lists and dictionaries.
`bytes` is what it looks like in a buffer, and `tokens` are the tokens that stand for it.
-/

set_option autoImplicit false

namespace Tent

open Bytes

/-! ### Numbers -/

/-- The number that is read when digits follow the ones of `val`. -/
def accValue (val : ℕ) (digits : ByteString) : ℕ :=
  digits.foldl (fun acc c => acc * 10 + digitOf c) val

/-- The value of a number whose first digit was read. -/
lemma digitsValue_cons (t : UInt8) (digits : ByteString) :
    digitsValue (t :: digits) = accValue (digitOf t) digits := by
  simp only [digitsValue, accValue, List.foldl_cons, Nat.zero_mul, Nat.zero_add, digitOf]

/-- A digit is at most nine. -/
lemma digitOf_le {c : UInt8} (hc : numeric c = true) : digitOf c ≤ 9 := by
  simp only [numeric, Bool.and_eq_true, decide_eq_true_eq] at hc
  unfold digitOf
  omega

/-- More digits do not make a number smaller. -/
lemma le_accValue (val : ℕ) (digits : ByteString) : val ≤ accValue val digits := by
  induction digits generalizing val with
  | nil => exact le_rfl
  | cons c digits ih =>
    calc val ≤ val * 10 + digitOf c := by omega
      _ ≤ accValue val (c :: digits) := ih _

/-- What stands in front of a delimiter begins with the first byte, unless that is one. -/
lemma exists_cons_of_append {delimiter c : UInt8} {rest digits left : ByteString}
    (hc : c ≠ delimiter) (hrest : c :: rest = digits ++ left)
    (hleft : left = [] ∨ left.head? = some delimiter) :
    ∃ tail, digits = c :: tail ∧ rest = tail ++ left := by
  cases digits with
  | nil =>
    rw [List.nil_append] at hrest
    subst hrest
    rcases hleft with hleft | hleft
    · exact absurd hleft (List.cons_ne_nil _ _)
    · exact absurd (Option.some.inj hleft) hc
  | cons d tail =>
    obtain ⟨rfl, htail⟩ := List.cons.inj hrest
    exact ⟨tail, rfl, htail⟩

/-- The two comparisons of `parse_int` notice exactly the numbers that do not fit. -/
lemma overflow_iff (val : ℕ) {c : UInt8} (hc : numeric c = true) :
    (int64Max / 10 < val ∨ int64Max - digitOf c < val * 10) ↔
      int64Max < val * 10 + digitOf c := by
  have hdigit := digitOf_le hc
  have hmax : 9 ≤ int64Max := by decide
  omega

/-- What `parse_int` reads up to a delimiter that is no digit: digits, as long as the number fits
into an `int64_t`. -/
lemma parseInt_eq_ok_iff {delimiter : UInt8} (hd : numeric delimiter = false)
    {rest left : ByteString} {val n : ℕ} (hval : val ≤ int64Max) :
    parseInt delimiter rest val = .ok (n, left) ↔
      ∃ digits, rest = digits ++ left ∧ (∀ c ∈ digits, numeric c = true) ∧
        n = accValue val digits ∧ n ≤ int64Max ∧ (left = [] ∨ left.head? = some delimiter) := by
  induction rest generalizing val with
  | nil =>
    constructor
    · intro h
      obtain ⟨rfl, rfl⟩ := Prod.mk.inj (Except.ok.inj h)
      exact ⟨[], rfl, by simp, rfl, hval, Or.inl rfl⟩
    · rintro ⟨digits, hrest, -, rfl, -⟩
      obtain ⟨rfl, rfl⟩ := List.append_eq_nil_iff.mp hrest.symm
      rfl
  | cons c rest ih =>
    rw [parseInt]
    by_cases hc : c = delimiter
    · rw [if_pos hc]
      constructor
      · intro h
        obtain ⟨rfl, rfl⟩ := Prod.mk.inj (Except.ok.inj h)
        exact ⟨[], rfl, by simp, rfl, hval, Or.inr (by rw [List.head?_cons, hc])⟩
      · rintro ⟨digits, hrest, hnum, rfl, -⟩
        cases digits with
        | nil => rw [hrest]; rfl
        | cons d digits =>
          obtain ⟨rfl, -⟩ := List.cons.inj hrest
          exact absurd (hnum c (by simp)) (by simp [hc, hd])
    rw [if_neg hc]
    by_cases hnum : numeric c = true
    · have hover := overflow_iff val hnum
      rw [if_neg (by simp [hnum])]
      by_cases hfit : val * 10 + digitOf c ≤ int64Max
      · rw [if_neg (by omega), if_neg (by omega), ih hfit]
        constructor
        · rintro ⟨digits, rfl, hdigits, hn, hle, hleft⟩
          exact ⟨c :: digits, rfl, List.forall_mem_cons.mpr ⟨hnum, hdigits⟩, hn, hle, hleft⟩
        · rintro ⟨digits, hrest, hdigits, hn, hle, hleft⟩
          obtain ⟨tail, rfl, htail⟩ := exists_cons_of_append hc hrest hleft
          exact ⟨tail, htail, (List.forall_mem_cons.mp hdigits).2, hn, hle, hleft⟩
      · refine iff_of_false ?_ ?_
        · split_ifs <;> first | omega | simp
        · rintro ⟨digits, hrest, -, rfl, hle, hleft⟩
          obtain ⟨tail, rfl, -⟩ := exists_cons_of_append hc hrest hleft
          have hgrow : val * 10 + digitOf c ≤ accValue val (c :: tail) := le_accValue _ tail
          omega
    · rw [if_pos (by simp [hnum])]
      refine iff_of_false (by simp) ?_
      rintro ⟨digits, hrest, hdigits, -, -, hleft⟩
      obtain ⟨tail, rfl, -⟩ := exists_cons_of_append hc hrest hleft
      exact hnum (hdigits c (by simp))

/-- What `parse_int` makes of digits in front of the delimiter. -/
lemma parseInt_digits {delimiter : UInt8} (hd : numeric delimiter = false)
    {digits rest : ByteString} (hdigits : ∀ c ∈ digits, numeric c = true) {val : ℕ}
    (hval : val ≤ int64Max) :
    if int64Max < accValue val digits then
      ∃ e, parseInt delimiter (digits ++ delimiter :: rest) val = .error e
    else
      parseInt delimiter (digits ++ delimiter :: rest) val =
        .ok (accValue val digits, delimiter :: rest) := by
  split_ifs with hlarge
  · induction digits generalizing val with
    | nil => exact absurd hval (not_le.mpr hlarge)
    | cons c digits ih =>
      obtain ⟨hc, hdigits⟩ := List.forall_mem_cons.mp hdigits
      have hne : c ≠ delimiter := by
        rintro rfl
        exact absurd hc (by simp [hd])
      have hover := overflow_iff val hc
      rw [List.cons_append, parseInt, if_neg hne, if_neg (by simp [hc])]
      by_cases hfit : val * 10 + digitOf c ≤ int64Max
      · rw [if_neg (by omega), if_neg (by omega)]
        exact ih hdigits hfit hlarge
      · split_ifs with hfirst hsecond
        · exact ⟨_, rfl⟩
        · exact ⟨_, rfl⟩
        · omega
  · exact (parseInt_eq_ok_iff hd hval).mpr
      ⟨digits, rfl, hdigits, rfl, not_lt.mp hlarge, Or.inr rfl⟩

/-- The loop of `check_integer` reads digits, one at least, up to an `e`. -/
lemma checkDigits_eq_none_iff {start left : ByteString} {d n : ℕ} :
    checkDigits start d = (n, left, none) ↔
      ∃ digits tail, start = digits ++ left ∧ left = 101 :: tail ∧
        (∀ c ∈ digits, numeric c = true) ∧ digits ≠ [] ∧ n = d + digits.length := by
  induction start generalizing d with
  | nil =>
    refine iff_of_false (by simp [checkDigits]) ?_
    rintro ⟨digits, tail, hstart, rfl, -⟩
    simp at hstart
  | cons c rest ih =>
    rw [checkDigits]
    by_cases hnum : numeric c = true
    · rw [if_neg (by simp [hnum])]
      by_cases he : rest.head? = some 101
      · obtain ⟨tail, rfl⟩ := List.head?_eq_some_iff.mp he
        rw [if_pos he]
        constructor
        · intro h
          simp only [Prod.mk.injEq, and_true] at h
          obtain ⟨rfl, rfl⟩ := h
          exact ⟨[c], tail, rfl, rfl, by simpa using hnum, List.cons_ne_nil _ _, rfl⟩
        · rintro ⟨digits, tail', hstart, rfl, hdigits, hne, rfl⟩
          obtain ⟨d', digits, rfl⟩ := List.exists_cons_of_ne_nil hne
          obtain ⟨-, hrest⟩ := List.cons.inj hstart
          cases digits with
          | nil => rw [(List.cons.inj hrest).2]; rfl
          | cons e digits =>
            obtain ⟨rfl, -⟩ := List.cons.inj hrest
            exact absurd (hdigits 101 (by simp)) (by decide)
      · rw [if_neg he, ih]
        constructor
        · rintro ⟨digits, tail, rfl, rfl, hdigits, -, rfl⟩
          exact ⟨c :: digits, tail, rfl, rfl, List.forall_mem_cons.mpr ⟨hnum, hdigits⟩,
            List.cons_ne_nil _ _, by rw [List.length_cons]; omega⟩
        · rintro ⟨digits, tail, hstart, rfl, hdigits, hne, rfl⟩
          obtain ⟨d', digits, rfl⟩ := List.exists_cons_of_ne_nil hne
          obtain ⟨rfl, rfl⟩ := List.cons.inj hstart
          refine ⟨digits, tail, rfl, rfl, (List.forall_mem_cons.mp hdigits).2, ?_,
            by rw [List.length_cons]; omega⟩
          rintro rfl
          exact he rfl
    · rw [if_pos (by simp [hnum])]
      refine iff_of_false (by simp) ?_
      rintro ⟨digits, tail, hstart, -, hdigits, hne, -⟩
      obtain ⟨d', digits, rfl⟩ := List.exists_cons_of_ne_nil hne
      obtain ⟨rfl, -⟩ := List.cons.inj hstart
      exact hnum (hdigits c (by simp))

/-- Between one and `most` digits. -/
structure Digits (most : ℕ) (digits : ByteString) : Prop where
  numeric : ∀ c ∈ digits, numeric c = true
  ne_nil : digits ≠ []
  length_le : digits.length ≤ most

/-- What `check_integer` reads behind the minus sign: between one and twenty digits up to an `e`. -/
lemma checkInteger_eq_none_iff_unsigned {start left : ByteString} :
    checkInteger start = (left, none) ↔
      ∃ digits tail, unsigned start = digits ++ left ∧ left = 101 :: tail ∧ Digits 20 digits := by
  unfold checkInteger
  split_ifs with hend
  · refine iff_of_false (by simp) ?_
    rintro ⟨digits, tail, hstart, rfl, -⟩
    simp [hend] at hstart
  · constructor
    · intro h
      obtain ⟨hleft, he⟩ := Prod.mk.inj h
      by_cases hmany : 20 < (checkDigits (unsigned start) 0).1
      · simp [hmany] at he
      · rw [if_neg hmany] at he
        obtain ⟨digits, tail, hstart, htail, hnum, hne, hn⟩ := checkDigits_eq_none_iff.mp
          (show checkDigits (unsigned start) 0 = ((checkDigits (unsigned start) 0).1, left, none)
            by rw [← hleft, ← he])
        exact ⟨digits, tail, hstart, htail, hnum, hne, by omega⟩
    · rintro ⟨digits, tail, hstart, htail, hnum, hne, hle⟩
      rw [checkDigits_eq_none_iff.mpr ⟨digits, tail, hstart, htail, hnum, hne, rfl⟩]
      simpa using hle

/-- The minus sign belongs to what is read. -/
lemma unsigned_append {body left : ByteString} (hleft : left.head? = some 101) :
    unsigned (body ++ left) = unsigned body ++ left := by
  cases body with
  | nil => simp [unsigned, hleft]
  | cons c body => by_cases hc : c = 45 <;> simp [unsigned, hc]

/-- `check_integer` reads an optional minus sign and between one and twenty digits up to an `e`. -/
lemma checkInteger_eq_none_iff {start left : ByteString} :
    checkInteger start = (left, none) ↔
      ∃ body tail, start = body ++ left ∧ left = 101 :: tail ∧ Digits 20 (unsigned body) := by
  rw [checkInteger_eq_none_iff_unsigned]
  constructor
  · rintro ⟨digits, tail, hstart, rfl, hdigits⟩
    by_cases hminus : start.head? = some 45
    · obtain ⟨rest, rfl⟩ := List.head?_eq_some_iff.mp hminus
      exact ⟨45 :: digits, tail, congrArg (45 :: ·) hstart, rfl, hdigits⟩
    · rw [unsigned, if_neg hminus] at hstart
      refine ⟨digits, tail, hstart, rfl, ?_⟩
      rwa [unsigned, if_neg]
      obtain ⟨d, rest, rfl⟩ := List.exists_cons_of_ne_nil hdigits.ne_nil
      rwa [hstart] at hminus
  · rintro ⟨body, tail, rfl, rfl, hdigits⟩
    exact ⟨unsigned body, tail, unsigned_append rfl, rfl, hdigits⟩

/-! ### Items -/

/-- An item without items in it. -/
inductive Scalar where
  /-- An integer, with what stands between the `i` and the `e`. -/
  | integer (body : ByteString)
  /-- A string, with the digits of its length. -/
  | string (head body : ByteString)
  deriving DecidableEq

/-- An item with items in it. -/
inductive Kind where
  | dict
  | list
  deriving DecidableEq

/-- A row of items. -/
abbrev Items := Hedge Scalar Kind

namespace Scalar

/-- How a scalar is written. -/
def bytes : Scalar → ByteString
  | integer body => 105 :: (body ++ [101])
  | string head body => head ++ 58 :: body

/-- The token of a scalar at the given offset. -/
def token (offset : ℕ) : Scalar → BdecodeToken
  | integer _ => .create offset 1 .integer 1
  | string head _ => .create offset 1 .string (head.length + 1)

/-- Whether a scalar can be a key. -/
def IsString : Scalar → Prop
  | integer _ => False
  | string _ _ => True

/-- What is accepted as a scalar. -/
def WellFormed : Scalar → Prop
  | integer body => Digits 20 (unsigned body)
  | string head body => Digits 8 head ∧ digitsValue head = body.length

/-- A scalar takes some bytes. -/
lemma length_bytes_pos (s : Scalar) : 0 < s.bytes.length := by
  cases s <;> simp [bytes]

end Scalar

namespace Kind

/-- The letter that begins a list or a dictionary. -/
def letter : Kind → UInt8
  | dict => 100
  | list => 108

/-- The type of the token of a list or a dictionary. -/
def type : Kind → TokenType
  | dict => .dict
  | list => .list

/-- Whether the items in it are keys and values. -/
def isDict : Kind → Bool
  | dict => true
  | list => false

end Kind

/-- How items are written. -/
def bencoding : Spelling Scalar Kind UInt8 where
  leaf := Scalar.bytes
  enter k := [k.letter]
  leave := [101]

/-- Whether a key is next after a row, if that is so before it or not. -/
def keyNext : Bool → Items → Bool
  | key, .nil => key
  | key, .leaf _ next => keyNext (!key) next
  | key, .node _ _ next => keyNext (!key) next

/-- Every key of a row is a string. -/
def Keyed : Bool → Items → Prop
  | _, .nil => True
  | key, .leaf s next => (key = true → s.IsString) ∧ Keyed (!key) next
  | key, .node _ _ next => key = false ∧ Keyed (!key) next

namespace Items

/-- How a row of items is written. -/
def bytes (h : Items) : ByteString := h.word bencoding

/-- The tokens of a row at the given offset. -/
def tokens : ℕ → Items → List BdecodeToken
  | _, .nil => []
  | offset, .leaf s next => s.token offset :: tokens (offset + s.bytes.length) next
  | offset, .node k inner next =>
    (BdecodeToken.opening offset k.type).setNextItem (inner.size + 2) ::
      (tokens (offset + 1) inner ++
        .create (offset + 1 + (bytes inner).length) 1 .ending 0 ::
          tokens (offset + 1 + (bytes inner).length + 1) next)

/-- What is accepted as a row of items. -/
def WellFormed : Items → Prop
  | .nil => True
  | .leaf s next => s.WellFormed ∧ WellFormed next
  | .node k inner next =>
    WellFormed inner ∧ (k.isDict = true → Keyed true inner ∧ keyNext true inner = true) ∧
      WellFormed next

/-- Nothing is written for an empty row. -/
@[simp] lemma bytes_nil : bytes .nil = [] := rfl

/-- A scalar is written in front of the rest of the row. -/
@[simp] lemma bytes_leaf (s : Scalar) (next : Items) :
    bytes (.leaf s next) = s.bytes ++ bytes next := rfl

/-- A list or a dictionary is written in front of the rest of the row. -/
@[simp] lemma bytes_node (k : Kind) (inner next : Items) :
    bytes (.node k inner next) = k.letter :: (bytes inner ++ 101 :: bytes next) := rfl

/-- Rows are written one after another. -/
@[simp] lemma bytes_append (g h : Items) : bytes (g.append h) = bytes g ++ bytes h :=
  Hedge.word_append bencoding g h

/-- There is a token for every item and for the end of every list and dictionary. -/
@[simp] lemma length_tokens (offset : ℕ) (h : Items) : (tokens offset h).length = h.size := by
  induction h generalizing offset with
  | nil => rfl
  | leaf s next ih => rw [tokens, Hedge.size, List.length_cons, ih]
  | node k inner next ihInner ih =>
    rw [tokens, Hedge.size, List.length_cons, List.length_append, List.length_cons, ihInner, ih]
    omega

/-- The tokens of rows stand one after another. -/
lemma tokens_append (offset : ℕ) (g h : Items) :
    tokens offset (g.append h) = tokens offset g ++ tokens (offset + (bytes g).length) h := by
  induction g generalizing offset with
  | nil => rfl
  | leaf s next ih =>
    rw [Hedge.append, tokens, tokens, ih, bytes_leaf, List.length_append, Nat.add_assoc]
    rfl
  | node k inner next _ ih =>
    have hstop : offset + (bytes (.node k inner next)).length =
        offset + 1 + (bytes inner).length + 1 + (bytes next).length := by
      rw [bytes_node, List.length_cons, List.length_append, List.length_cons]
      omega
    rw [Hedge.append, tokens, tokens, ih, hstop]
    simp only [List.cons_append, List.append_assoc]

/-- No token stands for less than a byte. -/
lemma size_le_length_bytes (h : Items) : h.size ≤ (bytes h).length := by
  induction h with
  | nil => exact le_rfl
  | leaf s next ih =>
    have hpos := s.length_bytes_pos
    rw [Hedge.size, bytes_leaf, List.length_append]
    omega
  | node k inner next ihInner ih =>
    rw [Hedge.size, bytes_node, List.length_cons, List.length_append, List.length_cons]
    omega

/-- A row ends where its second part does. -/
@[simp] lemma keyNext_append (key : Bool) (g h : Items) :
    keyNext key (g.append h) = keyNext (keyNext key g) h := by
  induction g generalizing key with
  | nil => rfl
  | leaf s next ih => exact ih (!key)
  | node k inner next _ ih => exact ih (!key)

/-- Keys and values take turns across the parts of a row. -/
@[simp] lemma keyed_append (key : Bool) (g h : Items) :
    Keyed key (g.append h) ↔ Keyed key g ∧ Keyed (keyNext key g) h := by
  induction g generalizing key with
  | nil => simp [Keyed, keyNext, Hedge.append]
  | leaf s next ih => simp only [Hedge.append, Keyed, keyNext, ih, and_assoc]
  | node k inner next _ ih => simp only [Hedge.append, Keyed, keyNext, ih, and_assoc]

/-- A row is accepted if its parts are. -/
@[simp] lemma wellFormed_append (g h : Items) :
    WellFormed (g.append h) ↔ WellFormed g ∧ WellFormed h := by
  induction g with
  | nil => simp [WellFormed, Hedge.append]
  | leaf s next ih => simp only [Hedge.append, WellFormed, ih, and_assoc]
  | node k inner next _ ih => simp only [Hedge.append, WellFormed, ih, and_assoc]

end Items

end Tent
