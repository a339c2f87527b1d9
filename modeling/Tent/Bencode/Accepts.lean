import Tent.Bencode.Grammar

/-!
# What `bdecode` accepts

The state of the loop is a function of a place in a row of items (`Place.parse`): what was read of
the row determines the tokens and the stack.  A pass of the loop that does not fail is a move of the
place (`step_eq_ok_iff`), so the loop accepts exactly the items of the grammar
(`bdecode_eq_iff`), as long as they are not nested deeper and have no more tokens than the limits
allow, and the tokens are those of the item, followed by one that marks the end.
-/

set_option autoImplicit false

namespace Tent

open Bytes

/-- A place in a row of items that is being read. -/
abbrev Place := Cursor Scalar Kind

namespace Place

/-- The tokens of what was read before the row at hand. -/
def frameTokens : List (Kind × Items) → List BdecodeToken
  | [] => []
  | (k, before) :: frames =>
    frameTokens frames ++ (Items.tokens (Cursor.framesWord bencoding frames).length before ++
      [.opening ((Cursor.framesWord bencoding frames).length + (Items.bytes before).length) k.type])

/-- The frames of the items that are open, where `key` tells whether a key is next in the row at
hand.  An item that is open counts as read in the row that it stands in. -/
def frameStack : Bool → List (Kind × Items) → List StackFrame
  | _, [] => []
  | key, (k, before) :: frames =>
    ⟨(frameTokens frames).length + before.size, k.isDict && !key⟩ ::
      frameStack (!keyNext true before) frames

/-- What was read. -/
def bytes (c : Place) : ByteString := c.word bencoding

/-- The tokens of what was read. -/
def tokens (c : Place) : List BdecodeToken :=
  frameTokens c.frames ++ Items.tokens (Cursor.framesWord bencoding c.frames).length c.top

/-- The variables of `bdecode` at a place. -/
def parse (c : Place) (rest : ByteString) (limit : ℕ) : Parse where
  offset := c.bytes.length
  rest := rest
  tokens := c.tokens
  stack := frameStack (keyNext true c.top) c.frames
  tokenLimit := limit

/-- Whether a key is next. -/
def expectsKey (c : Place) : Bool :=
  match c.frames with
  | [] => false
  | (k, _) :: _ => k.isDict && keyNext true c.top

/-- What can be read at a place, and the place after it. -/
inductive Move : Place → ByteString → Place → Prop
  /-- An integer or a string. -/
  | put (c : Place) (s : Scalar) (hs : s.WellFormed) (hkey : c.expectsKey = true → s.IsString) :
      Move c s.bytes (c.put (.leaf s .nil))
  /-- The beginning of a list or a dictionary. -/
  | enter (c : Place) (k : Kind) (hkey : c.expectsKey = false) : Move c [k.letter] (c.enter k)
  /-- The end of a list or a dictionary. -/
  | leave (k : Kind) (top before : Items) (frames : List (Kind × Items))
      (hkey : k.isDict = true → keyNext true top = true) :
      Move ⟨top, (k, before) :: frames⟩ [101] ⟨before.append (.node k top .nil), frames⟩

/-! ### The variables at a place -/

/-- There are as many frames as there are open items. -/
@[simp] lemma length_frameStack (key : Bool) (frames : List (Kind × Items)) :
    (frameStack key frames).length = frames.length := by
  induction frames generalizing key with
  | nil => rfl
  | cons f frames ih => rw [frameStack, List.length_cons, List.length_cons, ih]

/-- No token stands for less than a byte. -/
lemma length_frameTokens_le (frames : List (Kind × Items)) :
    (frameTokens frames).length ≤ (Cursor.framesWord bencoding frames).length := by
  induction frames with
  | nil => exact le_rfl
  | cons f frames ih =>
    obtain ⟨k, before⟩ := f
    have hsize : before.size ≤ (before.word bencoding).length := Items.size_le_length_bytes before
    simp only [frameTokens, Cursor.framesWord, List.length_append, Items.length_tokens,
      List.length_cons, List.length_nil, bencoding] at hsize ih ⊢
    omega

/-- There are at most as many tokens as bytes that were read. -/
lemma length_tokens_le (c : Place) : c.tokens.length ≤ c.bytes.length := by
  have hframes := length_frameTokens_le c.frames
  have hsize := Items.size_le_length_bytes c.top
  rw [tokens, bytes, Cursor.word, List.length_append, List.length_append, Items.length_tokens]
  exact Nat.add_le_add hframes hsize

/-- The token of the innermost open item. -/
lemma getElem?_tokens (k : Kind) (top before : Items) (frames : List (Kind × Items)) :
    (tokens ⟨top, (k, before) :: frames⟩)[(frameTokens frames).length + before.size]? =
      some (.opening ((Cursor.framesWord bencoding frames).length + (Items.bytes before).length)
        k.type) := by
  rw [tokens, frameTokens, List.append_assoc, List.append_assoc,
    List.getElem?_append_right (by omega), Nat.add_sub_cancel_left,
    List.getElem?_append_right (by simp), Items.length_tokens, Nat.sub_self]
  rfl

section Variables

variable {c : Place} {rest : ByteString} {limit : ℕ}

/-- The frame of the innermost open item is a dictionary's if the item is one. -/
lemma isDict_parse (k : Kind) (top before : Items) (frames : List (Kind × Items)) (state : Bool) :
    (parse ⟨top, (k, before) :: frames⟩ rest limit).isDict
      ⟨(frameTokens frames).length + before.size, state⟩ = k.isDict := by
  rw [Parse.isDict, parse, getElem?_tokens]
  cases k <;> rfl

/-- The parser knows whether a key is next. -/
@[simp] lemma readsKey_parse : (c.parse rest limit).readsKey = c.expectsKey := by
  obtain ⟨top, _ | ⟨⟨k, before⟩, frames⟩⟩ := c
  · rfl
  · have hdict := @isDict_parse rest limit k top before frames
    simp only [Parse.readsKey, expectsKey]
    rw [show (parse ⟨top, (k, before) :: frames⟩ rest limit).stack = _ :: _ from rfl]
    simp only [hdict]
    cases k <;> simp [Kind.isDict]

/-- The parser knows whether a value is next. -/
lemma readsValue_parse (k : Kind) (top before : Items) (frames : List (Kind × Items)) :
    (parse ⟨top, (k, before) :: frames⟩ rest limit).readsValue =
      (k.isDict && !keyNext true top) := by
  have hdict := @isDict_parse rest limit k top before frames
  simp only [Parse.readsValue]
  rw [show (parse ⟨top, (k, before) :: frames⟩ rest limit).stack = _ :: _ from rfl]
  simp only [hdict]
  cases k <;> simp [Kind.isDict]

/-- Reading an item turns the dictionary around it. -/
lemma flip_parse : (c.parse rest limit).flip = frameStack (!keyNext true c.top) c.frames := by
  obtain ⟨top, _ | ⟨⟨k, before⟩, frames⟩⟩ := c
  · rfl
  · have hdict := @isDict_parse rest limit k top before frames
    simp only [Parse.flip]
    rw [show (parse ⟨top, (k, before) :: frames⟩ rest limit).stack = _ :: _ from rfl]
    simp only [hdict, frameStack]
    cases k <;> simp [Kind.isDict]

/-- A scalar puts its token behind the others. -/
lemma parse_put (s : Scalar) :
    parse (c.put (.leaf s .nil)) rest limit =
      { offset := c.bytes.length + s.bytes.length
        rest := rest
        tokens := c.tokens ++ [s.token c.bytes.length]
        stack := frameStack (!keyNext true c.top) c.frames
        tokenLimit := limit } := by
  have hbytes : bytes (c.put (.leaf s .nil)) = c.bytes ++ s.bytes := by
    rw [bytes, Cursor.word_put, bytes]
    exact congrArg _ (List.append_nil s.bytes)
  have htokens : tokens (c.put (.leaf s .nil)) = c.tokens ++ [s.token c.bytes.length] := by
    rw [tokens, Cursor.put, Items.tokens_append, ← List.append_assoc, bytes, Cursor.word,
      List.length_append]
    rfl
  have hkey : keyNext true (c.top.append (.leaf s .nil)) = !keyNext true c.top :=
    Items.keyNext_append true c.top _
  rw [parse, hbytes, htokens, List.length_append, Cursor.put, hkey]

/-- What opens puts its token behind the others and its frame on top. -/
lemma parse_enter (k : Kind) :
    parse (c.enter k) rest limit =
      { offset := c.bytes.length + 1
        rest := rest
        tokens := c.tokens ++ [.opening c.bytes.length k.type]
        stack := ⟨c.tokens.length, false⟩ :: frameStack (!keyNext true c.top) c.frames
        tokenLimit := limit } := by
  have hbytes : bytes (c.enter k) = c.bytes ++ [k.letter] := Cursor.word_enter bencoding c k
  have htokens : tokens (c.enter k) = c.tokens ++ [.opening c.bytes.length k.type] := by
    rw [bytes, Cursor.word, List.length_append]
    simp only [tokens, Cursor.enter, frameTokens, Items.tokens, List.append_nil, List.append_assoc]
    rfl
  have hindex : (frameTokens c.frames).length + c.top.size = c.tokens.length := by
    rw [tokens, List.length_append, Items.length_tokens]
  rw [parse, hbytes, htokens, List.length_append, Cursor.enter]
  simp [frameStack, keyNext, hindex]

/-- The number of tokens from the innermost open item on. -/
lemma length_tokens_eq (k : Kind) (top before : Items) (frames : List (Kind × Items)) :
    (tokens ⟨top, (k, before) :: frames⟩).length =
      (frameTokens frames).length + before.size + (top.size + 1) := by
  simp only [tokens, frameTokens, List.length_append, Items.length_tokens, List.length_cons,
    List.length_nil]
  omega

/-- Changing the element behind a list. -/
lemma modify_length_append {α : Type*} (f : α → α) (xs ys : List α) (x : α) :
    (xs ++ x :: ys).modify xs.length f = xs ++ f x :: ys := by
  induction xs with
  | nil => rfl
  | cons y xs ih => rw [List.cons_append, List.length_cons, List.modify_succ_cons, ih]; rfl

/-- What closes writes its distance into its token. -/
lemma parse_leave (k : Kind) (top before : Items) (frames : List (Kind × Items)) :
    parse ⟨before.append (.node k top .nil), frames⟩ rest limit =
      { offset := (bytes ⟨top, (k, before) :: frames⟩).length + 1
        rest := rest
        tokens := (tokens ⟨top, (k, before) :: frames⟩ ++
          [BdecodeToken.create (bytes ⟨top, (k, before) :: frames⟩).length 1 .ending 0]).modify
            ((frameTokens frames).length + before.size) (.setNextItem (top.size + 2))
        stack := frameStack (!keyNext true before) frames
        tokenLimit := limit } := by
  have hbytes : bytes ⟨before.append (.node k top .nil), frames⟩ =
      bytes ⟨top, (k, before) :: frames⟩ ++ [101] := Cursor.word_leave bencoding k top before frames
  have hkey : keyNext true (before.append (.node k top .nil)) = !keyNext true before :=
    Items.keyNext_append true before _
  have hlength : (frameTokens frames).length + before.size =
      (frameTokens frames ++
        Items.tokens (Cursor.framesWord bencoding frames).length before).length := by
    rw [List.length_append, Items.length_tokens]
  have hstart : (Cursor.framesWord bencoding ((k, before) :: frames)).length =
      (Cursor.framesWord bencoding frames).length + (Items.bytes before).length + 1 := by
    simp only [Cursor.framesWord, List.length_append, Items.bytes, bencoding, List.length_cons,
      List.length_nil, Nat.add_assoc]
  have hstop : (bytes ⟨top, (k, before) :: frames⟩).length =
      (Cursor.framesWord bencoding frames).length + (Items.bytes before).length + 1 +
        (Items.bytes top).length := by
    rw [bytes, Cursor.word, List.length_append, hstart]
    rfl
  rw [parse, hbytes, hkey, List.length_append, hlength]
  congr 1
  rw [hstop]
  simp only [tokens, frameTokens, hstart, Items.tokens_append, Items.tokens, List.append_assoc,
    List.cons_append, List.nil_append]
  rw [← List.append_assoc, ← List.append_assoc, modify_length_append, List.append_assoc]

/-! ### A pass of the loop -/

/-- A row of digits begins with one. -/
lemma exists_digit {most : ℕ} {head : ByteString} (h : Digits most head) :
    ∃ t ds, head = t :: ds ∧ numeric t = true ∧ ∀ d ∈ ds, numeric d = true := by
  obtain ⟨t, ds, rfl⟩ := List.exists_cons_of_ne_nil h.ne_nil
  exact ⟨t, ds, rfl, List.forall_mem_cons.mp h.numeric⟩

/-- The letters of the grammar are no digits. -/
lemma ne_of_numeric {t : UInt8} (ht : numeric t = true) :
    t ≠ 100 ∧ t ≠ 108 ∧ t ≠ 105 ∧ t ≠ 101 := by
  refine ⟨?_, ?_, ?_, ?_⟩ <;> rintro rfl <;> exact absurd ht (by decide)

/-- What the case of an integer reads. -/
lemma readInteger_eq_ok_iff {t : UInt8} {q : Parse} :
    (c.parse (t :: rest) limit).readInteger rest = .ok q ↔
      ∃ body left, rest = body ++ 101 :: left ∧ (Scalar.integer body).WellFormed ∧
        q = parse (c.put (.leaf (.integer body) .nil)) left limit := by
  have hput : ∀ body left, rest = body ++ 101 :: left →
      parse (c.put (.leaf (.integer body) .nil)) left limit =
        { (c.parse (t :: rest) limit).seek left with
          tokens := c.tokens ++ [.create c.bytes.length 1 .integer 1]
          stack := (c.parse (t :: rest) limit).flip } := by
    rintro body left rfl
    rw [parse_put, flip_parse]
    simp only [Parse.seek, parse, Scalar.bytes, Scalar.token, Parse.mk.injEq, and_true,
      List.length_cons, List.length_append, List.length_nil]
    omega
  unfold Parse.readInteger
  cases hcheck : checkInteger rest with
  | mk l e =>
    cases e with
    | some e =>
      refine iff_of_false (by simp) ?_
      rintro ⟨body, left, hrest, hs, -⟩
      have := checkInteger_eq_none_iff.mpr ⟨body, left, hrest, rfl, hs⟩
      simp [hcheck] at this
    | none =>
      obtain ⟨body, tail, hrest, rfl, hs⟩ := checkInteger_eq_none_iff.mp hcheck
      constructor
      · intro h
        exact ⟨body, tail, hrest, hs, by rw [hput body tail hrest]; exact (Except.ok.inj h).symm⟩
      · rintro ⟨body', left, hrest', hs', rfl⟩
        have hcheck' := checkInteger_eq_none_iff.mpr ⟨body', left, hrest', rfl, hs'⟩
        obtain rfl : tail = left := by simpa using hcheck.symm.trans hcheck'
        rw [hput body' tail hrest']
        rfl

/-- What the case of a string reads. -/
lemma readString_eq_ok_iff {t : UInt8} {q : Parse} (ht : numeric t = true)
    (hlen : (t :: rest).length ≤ BdecodeToken.maxOffset) :
    (c.parse (t :: rest) limit).readString t rest = .ok q ↔
      ∃ head body left, t :: rest = head ++ 58 :: (body ++ left) ∧
        (Scalar.string head body).WellFormed ∧
        q = parse (c.put (.leaf (.string head body) .nil)) left limit := by
  have hdigit : digitOf t ≤ int64Max := (digitOf_le ht).trans (by decide)
  have hput : ∀ digits body left, rest = digits ++ 58 :: (body ++ left) →
      parse (c.put (.leaf (.string (t :: digits) body) .nil)) left limit =
        { (c.parse (t :: rest) limit).seek left with
          tokens := c.tokens ++ [.create c.bytes.length 1 .string
            ((t :: rest).length - (body ++ left).length)]
          stack := (c.parse (t :: rest) limit).flip } := by
    rintro digits body left rfl
    have hheader : (t :: (digits ++ 58 :: (body ++ left))).length - (body ++ left).length =
        digits.length + 1 + 1 := by
      simp only [List.length_cons, List.length_append]
      omega
    rw [parse_put, flip_parse, hheader]
    simp only [Parse.seek, parse, Scalar.bytes, Scalar.token, Parse.mk.injEq, and_true,
      List.length_cons, List.length_append]
    omega
  constructor
  · intro h
    unfold Parse.readString at h
    split_ifs at h with hend
    · exact absurd h (Parse.fail_ne_ok _ _ _)
    split at h
    · exact absurd h (Parse.fail_ne_ok _ _ _)
    · exact absurd h (Parse.fail_ne_ok _ _ _)
    · rename_i len colon after hparse
      obtain ⟨digits, hrest, hnum, rfl, -, hcolon⟩ :=
        (parseInt_eq_ok_iff (by decide) hdigit).mp hparse
      obtain rfl : colon = 58 := by simpa using hcolon
      split_ifs at h with heof hheader
      · exact absurd h (Parse.fail_ne_ok _ _ _)
      · exact absurd h (Parse.fail_ne_ok _ _ _)
      have hlong : (t :: rest).length - after.length = digits.length + 2 := by
        rw [hrest]
        simp only [List.length_cons, List.length_append]
        omega
      have hafter : after = after.take (accValue (digitOf t) digits) ++
          after.drop (accValue (digitOf t) digits) := (List.take_append_drop _ _).symm
      refine ⟨t :: digits, after.take (accValue (digitOf t) digits),
        after.drop (accValue (digitOf t) digits), ?_, ⟨⟨?_, List.cons_ne_nil _ _, ?_⟩, ?_⟩, ?_⟩
      · rw [← hafter, hrest]
        rfl
      · exact List.forall_mem_cons.mpr ⟨ht, hnum⟩
      · rw [not_lt, parse, hlong, BdecodeToken.maxHeader] at hheader
        rw [List.length_cons]
        omega
      · rw [List.length_take, digitsValue_cons]
        exact (min_eq_left (not_lt.mp heof)).symm
      · rw [hput digits _ _ (by rw [← hafter, hrest]), ← hafter]
        exact (Except.ok.inj h).symm
  · rintro ⟨head, body, left, hrest, ⟨⟨hnum, hne, hle⟩, hvalue⟩, rfl⟩
    have hcolon : t ≠ 58 := by
      rintro rfl
      exact absurd ht (by decide)
    obtain ⟨digits, rfl, htail⟩ := exists_cons_of_append hcolon hrest (Or.inr rfl)
    have hvalue' : accValue (digitOf t) digits = body.length := by
      rw [← hvalue, digitsValue_cons]
    have hparse : parseInt 58 rest (digitOf t) = .ok (body.length, 58 :: (body ++ left)) := by
      refine (parseInt_eq_ok_iff (by decide) hdigit).mpr
        ⟨digits, htail, (List.forall_mem_cons.mp hnum).2, hvalue'.symm, ?_, Or.inr rfl⟩
      have hfits : BdecodeToken.maxOffset ≤ int64Max := by decide
      rw [hrest] at hlen
      simp only [List.length_cons, List.length_append] at hlen
      omega
    have hshort : ¬ BdecodeToken.maxHeader <
        (c.parse (t :: rest) limit).rest.length - (body ++ left).length - 2 := by
      rw [parse, hrest, BdecodeToken.maxHeader]
      simp only [List.length_cons, List.length_append] at hle ⊢
      omega
    unfold Parse.readString
    rw [if_neg (by rw [htail]; simp), hparse]
    dsimp only
    rw [if_neg (by simp), if_neg hshort, hput digits body left htail, List.drop_left]
    rfl

/-- What the cases of a list and a dictionary do. -/
lemma enter_parse {t : UInt8} (k : Kind) (hlen : c.bytes.length ≤ BdecodeToken.maxOffset) :
    (c.parse (t :: rest) limit).enter k.type rest = parse (c.enter k) rest limit := by
  have hsmall : c.tokens.length < 2 ^ 31 := by
    have hle := c.length_tokens_le
    rw [BdecodeToken.maxOffset] at hlen
    omega
  rw [parse_enter, Parse.enter, flip_parse, StackFrame.create]
  simpa [Parse.seek, parse] using hsmall

/-- What the case of an `e` does. -/
lemma leave_eq_ok_iff {t : UInt8} {q : Parse} (k : Kind) (top before : Items)
    (frames : List (Kind × Items))
    (hlen : (bytes ⟨top, (k, before) :: frames⟩).length < BdecodeToken.maxOffset) :
    (parse ⟨top, (k, before) :: frames⟩ (t :: rest) limit).leave rest = .ok q ↔
      (k.isDict = true → keyNext true top = true) ∧
        q = parse ⟨before.append (.node k top .nil), frames⟩ rest limit := by
  have hlength := length_tokens_eq k top before frames
  have hle := length_tokens_le ⟨top, (k, before) :: frames⟩
  have hspan : (tokens ⟨top, (k, before) :: frames⟩ ++
      [BdecodeToken.create (bytes ⟨top, (k, before) :: frames⟩).length 1 .ending 0]).length -
        ((frameTokens frames).length + before.size) = top.size + 2 := by
    rw [List.length_append, hlength, List.length_cons, List.length_nil]
    omega
  have hfits : ¬ BdecodeToken.maxNextItem < top.size + 2 := by
    have hsame : BdecodeToken.maxOffset = BdecodeToken.maxNextItem := rfl
    omega
  have hkey := @readsValue_parse (t :: rest) limit k top before frames
  unfold Parse.leave
  rw [show (parse ⟨top, (k, before) :: frames⟩ (t :: rest) limit).stack = _ :: _ from rfl]
  dsimp only
  rw [hkey, parse_leave]
  by_cases hvalue : (k.isDict && !keyNext true top) = true
  · rw [if_pos hvalue]
    refine iff_of_false (Parse.fail_ne_ok _ _ _) ?_
    rintro ⟨hdone, -⟩
    simp only [Bool.and_eq_true, Bool.not_eq_true'] at hvalue
    exact absurd (hdone hvalue.1) (by simp [hvalue.2])
  · have hdone : k.isDict = true → keyNext true top = true := by
      intro hk
      simpa [hk] using hvalue
    have hdrop : (parse ⟨top, (k, before) :: frames⟩ (t :: rest) limit).tokens =
        tokens ⟨top, (k, before) :: frames⟩ := rfl
    have hstart : (parse ⟨top, (k, before) :: frames⟩ (t :: rest) limit).offset =
        (bytes ⟨top, (k, before) :: frames⟩).length := rfl
    rw [if_neg hvalue, hdrop, hstart, hspan, if_neg hfits, and_iff_right hdone]
    simp only [Parse.seek, parse, List.length_cons, Nat.add_sub_cancel_left, Except.ok.injEq]
    exact eq_comm

/-- Where a key is next, a pass goes on with a digit or an `e` only. -/
lemma dispatch_guard {t : UInt8} :
    ((c.parse (t :: rest) limit).readsKey && !numeric t && t != 101) = true ↔
      c.expectsKey = true ∧ numeric t = false ∧ t ≠ 101 := by
  rw [readsKey_parse, Bool.and_eq_true, Bool.and_eq_true, Bool.not_eq_true', bne_iff_ne, and_assoc]

/-- A pass of the loop makes a move. -/
lemma exists_move_of_dispatch {t : UInt8} {q : Parse}
    (hlen : c.bytes.length + (t :: rest).length ≤ BdecodeToken.maxOffset)
    (h : (c.parse (t :: rest) limit).dispatch t rest = .ok q) :
    ∃ bs left c', Move c bs c' ∧ t :: rest = bs ++ left ∧ q = parse c' left limit := by
  rw [List.length_cons] at hlen
  have hplain : ∀ k : Kind, t = k.letter →
      ¬ ((c.parse (t :: rest) limit).readsKey && !numeric t && t != 101) = true →
        c.expectsKey = false := by
    rintro k rfl hguard
    rw [dispatch_guard] at hguard
    by_contra hkey
    exact hguard ⟨by simpa using hkey, by cases k <;> decide, by cases k <;> decide⟩
  unfold Parse.dispatch at h
  split_ifs at h with hguard hdict hlist hint hend hnum
  · exact absurd h (Parse.fail_ne_ok _ _ _)
  · refine ⟨[t], rest, c.enter .dict, ?_, rfl, ?_⟩
    · rw [hdict]
      exact .enter c .dict (hplain .dict hdict hguard)
    · rw [← enter_parse (t := t) .dict (by omega)]
      exact (Except.ok.inj h).symm
  · refine ⟨[t], rest, c.enter .list, ?_, rfl, ?_⟩
    · rw [hlist]
      exact .enter c .list (hplain .list hlist hguard)
    · rw [← enter_parse (t := t) .list (by omega)]
      exact (Except.ok.inj h).symm
  · obtain ⟨body, left, hrest, hs, rfl⟩ := readInteger_eq_ok_iff.mp h
    refine ⟨(Scalar.integer body).bytes, left, _, .put c (.integer body) hs ?_, ?_, rfl⟩
    · intro hkey
      refine absurd (dispatch_guard.mpr ⟨hkey, ?_, ?_⟩) hguard <;> rw [hint] <;> decide
    · rw [hrest, hint]
      simp [Scalar.bytes]
  · obtain ⟨top, _ | ⟨⟨k, before⟩, frames⟩⟩ := c
    · exact absurd h (Parse.fail_ne_ok _ _ _)
    · obtain ⟨hkey, rfl⟩ := (leave_eq_ok_iff k top before frames (by omega)).mp h
      exact ⟨[t], rest, _, hend ▸ .leave k top before frames hkey, rfl, rfl⟩
  · exact absurd h (Parse.fail_ne_ok _ _ _)
  · have ht : numeric t = true := by simpa using hnum
    obtain ⟨head, body, left, hrest, hs, rfl⟩ :=
      (readString_eq_ok_iff ht (by rw [List.length_cons]; omega)).mp h
    exact ⟨(Scalar.string head body).bytes, left, _, .put c (.string head body) hs fun _ => trivial,
      by rw [hrest]; simp [Scalar.bytes], rfl⟩

/-- A move is made by a pass of the loop. -/
lemma dispatch_of_move {t : UInt8} {bs left : ByteString} {c' : Place}
    (hlen : c.bytes.length + (t :: rest).length ≤ BdecodeToken.maxOffset) (hmove : Move c bs c')
    (hrest : t :: rest = bs ++ left) :
    (c.parse (t :: rest) limit).dispatch t rest = .ok (parse c' left limit) := by
  rw [List.length_cons] at hlen
  unfold Parse.dispatch
  cases hmove with
  | put _ s hs hkey =>
    cases s with
    | integer body =>
      obtain ⟨ht, htail⟩ := List.cons.inj hrest
      rw [if_neg fun h => hkey (dispatch_guard.mp h).1, if_neg (by rw [ht]; decide),
        if_neg (by rw [ht]; decide), if_pos ht]
      exact readInteger_eq_ok_iff.mpr ⟨body, left, by rw [htail]; simp, hs, rfl⟩
    | string head body =>
      obtain ⟨t', ds, rfl, ht, -⟩ := exists_digit hs.1
      obtain ⟨rfl, htail⟩ := List.cons.inj hrest
      obtain ⟨h100, h108, h105, h101⟩ := ne_of_numeric ht
      rw [if_neg (by simp [ht]), if_neg h100, if_neg h108, if_neg h105, if_neg h101,
        if_neg (by simp [ht])]
      exact (readString_eq_ok_iff ht (by rw [List.length_cons]; omega)).mpr
        ⟨t :: ds, body, left, by rw [hrest]; simp [Scalar.bytes], hs, rfl⟩
  | enter _ k hkey =>
    obtain ⟨ht, rfl⟩ := List.cons.inj hrest
    have hparse := @enter_parse c rest limit t k (by omega)
    rw [if_neg (by simp [hkey])]
    cases k
    · rw [if_pos (show t = 100 from ht)]
      exact congrArg _ hparse
    · have hlist : t = 108 := ht
      rw [if_neg (by rw [hlist]; decide), if_pos hlist]
      exact congrArg _ hparse
  | leave k top before frames hkey =>
    obtain ⟨ht, rfl⟩ := List.cons.inj hrest
    rw [if_neg (by simp [ht]), if_neg (by rw [ht]; decide), if_neg (by rw [ht]; decide),
      if_neg (by rw [ht]; decide), if_pos ht]
    exact (leave_eq_ok_iff k top before frames (by omega)).mpr ⟨hkey, rfl⟩

end Variables

/-- A pass of the loop that does not fail is a move, and every move is a pass of the loop as long as
the limits allow it. -/
theorem step_eq_ok_iff {c : Place} {rest : ByteString} {limit depthLimit : ℕ} {q : Parse}
    (hlen : c.bytes.length + rest.length ≤ BdecodeToken.maxOffset) :
    (c.parse rest limit).step depthLimit = .ok q ↔
      c.frames.length < depthLimit ∧ ∃ bs left n c', Move c bs c' ∧ rest = bs ++ left ∧
        limit = n + 1 ∧ q = parse c' left n := by
  have hdepth : (c.parse rest limit).stack.length = c.frames.length := length_frameStack _ _
  cases rest with
  | nil =>
    refine iff_of_false (Parse.fail_ne_ok _ _ _) ?_
    rintro ⟨-, bs, left, n, c', hmove, hrest, -⟩
    obtain ⟨rfl, -⟩ := List.append_eq_nil_iff.mp hrest.symm
    generalize hbs : ([] : ByteString) = bs at hmove
    cases hmove with
    | put _ s => exact absurd s.length_bytes_pos (by rw [← hbs]; simp)
    | enter _ k => exact List.cons_ne_nil _ _ hbs.symm
    | leave k top before frames => exact List.cons_ne_nil _ _ hbs.symm
  | cons t rest =>
    have hstep : (c.parse (t :: rest) limit).step depthLimit =
        if depthLimit ≤ c.frames.length then (c.parse (t :: rest) limit).fail .depthExceeded
        else if limit = 0 then (c.parse (t :: rest) limit).fail .limitExceeded
        else (c.parse (t :: rest) (limit - 1)).dispatch t rest := by
      rw [← hdepth]
      rfl
    rw [hstep]
    by_cases hdeep : depthLimit ≤ c.frames.length
    · rw [if_pos hdeep]
      exact iff_of_false (Parse.fail_ne_ok _ _ _) fun h => absurd h.1 (not_lt.mpr hdeep)
    rw [if_neg hdeep, and_iff_right (not_le.mp hdeep)]
    cases limit with
    | zero =>
      rw [if_pos rfl]
      refine iff_of_false (Parse.fail_ne_ok _ _ _) ?_
      rintro ⟨bs, left, n, c', -, -, hlimit, -⟩
      exact absurd hlimit (Nat.succ_ne_zero n).symm
    | succ n =>
      rw [if_neg (Nat.succ_ne_zero n), Nat.add_sub_cancel]
      constructor
      · intro h
        obtain ⟨bs, left, c', hmove, hrest, rfl⟩ := exists_move_of_dispatch hlen h
        exact ⟨bs, left, n, c', hmove, hrest, rfl, rfl⟩
      · rintro ⟨bs, left, m, c', hmove, hrest, hlimit, rfl⟩
        obtain rfl : n = m := Nat.succ.inj hlimit
        exact dispatch_of_move hlen hmove hrest

/-! ### What a move keeps -/

/-- A move writes what was read. -/
lemma Move.bytes_eq {c c' : Place} {bs : ByteString} (h : Move c bs c') :
    c'.bytes = c.bytes ++ bs := by
  cases h with
  | put _ s =>
    rw [bytes, Cursor.word_put, bytes]
    exact congrArg _ (List.append_nil s.bytes)
  | enter _ k => exact Cursor.word_enter bencoding c k
  | leave k top before frames => exact Cursor.word_leave bencoding k top before frames

/-- A move adds one token. -/
lemma Move.length_tokens_eq {c c' : Place} {bs : ByteString} (h : Move c bs c') :
    c'.tokens.length = c.tokens.length + 1 := by
  cases h with
  | put _ s => rw [show tokens _ = (parse (c.put _) [] 0).tokens from rfl, parse_put]; simp
  | enter _ k => rw [show tokens _ = (parse (c.enter k) [] 0).tokens from rfl, parse_enter]; simp
  | leave k top before frames =>
    rw [show tokens _ = (parse ⟨before.append (.node k top .nil), frames⟩ [] 0).tokens from rfl,
      parse_leave]
    simp

/-- Whether a row may stand where something is read next: in a dictionary, its keys are strings. -/
def Fits (c : Place) (h : Items) : Prop :=
  match c.frames with
  | [] => True
  | (k, _) :: _ => k.isDict = true → Keyed (keyNext true c.top) h

/-- What was read is accepted, as far as it goes. -/
def Valid : Items → List (Kind × Items) → Prop
  | top, [] => top.WellFormed
  | top, (k, before) :: frames =>
    top.WellFormed ∧ (k.isDict = true → Keyed true top) ∧ expectsKey ⟨before, frames⟩ = false ∧
      Valid before frames

/-- What was read is not nested too deeply, unless it is not nested at all. -/
def Shallow (depthLimit : ℕ) : Items → List (Kind × Items) → Prop
  | top, [] => top.depth = 0 ∨ top.depth < depthLimit
  | top, (_, before) :: frames =>
    (top.depth = 0 ∨ frames.length + 1 + top.depth < depthLimit) ∧
      Shallow depthLimit before frames

/-- Reading more that is accepted. -/
lemma Valid.append {top h : Items} {frames : List (Kind × Items)} (hvalid : Valid top frames)
    (hh : h.WellFormed) (hfits : Fits ⟨top, frames⟩ h) : Valid (top.append h) frames := by
  cases frames with
  | nil => exact (Items.wellFormed_append top h).mpr ⟨hvalid, hh⟩
  | cons f frames =>
    obtain ⟨htop, hkeyed, houter⟩ := hvalid
    exact ⟨(Items.wellFormed_append top h).mpr ⟨htop, hh⟩,
      fun hk => (Items.keyed_append true top h).mpr ⟨hkeyed hk, hfits hk⟩, houter⟩

/-- Reading more that is not nested too deeply. -/
lemma Shallow.append {depthLimit : ℕ} {top h : Items} {frames : List (Kind × Items)}
    (hshallow : Shallow depthLimit top frames)
    (hh : h.depth = 0 ∨ frames.length + h.depth < depthLimit) :
    Shallow depthLimit (top.append h) frames := by
  cases frames with
  | nil =>
    simp only [Shallow, Hedge.depth_append, List.length_nil] at hshallow hh ⊢
    omega
  | cons f frames =>
    simp only [Shallow, Hedge.depth_append, List.length_cons] at hshallow hh ⊢
    exact ⟨by omega, hshallow.2⟩

/-- A scalar fits where it is a string or no key is next. -/
lemma fits_leaf {c : Place} {s : Scalar} {next : Items} :
    Fits c (.leaf s next) ↔
      (c.expectsKey = true → s.IsString) ∧ Fits (c.put (.leaf s .nil)) next := by
  obtain ⟨top, _ | ⟨⟨k, before⟩, frames⟩⟩ := c
  · simp [Fits, Cursor.put, expectsKey]
  · cases k <;> simp [Fits, Cursor.put, expectsKey, Kind.isDict, Keyed, keyNext]

/-- A list or a dictionary fits where no key is next. -/
lemma fits_node {c : Place} {k : Kind} {inner next : Items} :
    Fits c (.node k inner next) ↔
      c.expectsKey = false ∧ Fits (c.put (.node k inner .nil)) next := by
  obtain ⟨top, _ | ⟨⟨k', before⟩, frames⟩⟩ := c
  · simp [Fits, Cursor.put, expectsKey]
  · cases k' <;> simp [Fits, Cursor.put, expectsKey, Kind.isDict, Keyed, keyNext]

/-- An empty row fits everywhere. -/
lemma fits_nil (c : Place) : Fits c .nil := by
  obtain ⟨top, _ | ⟨⟨k, before⟩, frames⟩⟩ := c
  · trivial
  · exact fun _ => trivial

/-- A move keeps what is accepted. -/
lemma Move.valid {c c' : Place} {bs : ByteString} (h : Move c bs c')
    (hvalid : Valid c.top c.frames) : Valid c'.top c'.frames := by
  cases h with
  | put _ s hs hkey => exact hvalid.append ⟨hs, trivial⟩ (fits_leaf.mpr ⟨hkey, fits_nil _⟩)
  | enter _ k hkey => exact ⟨trivial, fun _ => trivial, hkey, hvalid⟩
  | leave k top before frames hkey =>
    obtain ⟨htop, hkeyed, houter, hbefore⟩ := hvalid
    exact hbefore.append ⟨htop, fun hk => ⟨hkeyed hk, hkey hk⟩, trivial⟩
      (fits_node.mpr ⟨houter, fits_nil _⟩)

/-- A move keeps to the limit. -/
lemma Move.shallow {c c' : Place} {bs : ByteString} {depthLimit : ℕ} (h : Move c bs c')
    (hdepth : c.frames.length < depthLimit) (hshallow : Shallow depthLimit c.top c.frames) :
    Shallow depthLimit c'.top c'.frames := by
  cases h with
  | put _ s => exact hshallow.append (Or.inl rfl)
  | enter _ k => exact ⟨Or.inl rfl, hshallow⟩
  | leave k top before frames =>
    obtain ⟨htop, hbefore⟩ := hshallow
    refine hbefore.append (Or.inr ?_)
    simp only [Hedge.depth, List.length_cons] at hdepth htop ⊢
    omega

/-- The first item is complete when nothing is open any more. -/
lemma Move.root {c c' : Place} {bs : ByteString} (h : Move c bs c')
    (hroot : Cursor.root c.top c.frames = .nil) :
    if c'.frames = [] then c'.top.length = 1 else Cursor.root c'.top c'.frames = .nil := by
  cases h with
  | put _ s =>
    obtain ⟨top, _ | ⟨f, frames⟩⟩ := c
    · obtain rfl : top = .nil := hroot
      simp [Cursor.put, Hedge.append, Hedge.length]
    · rw [Cursor.root] at hroot
      simp [Cursor.put, Cursor.root, hroot]
  | enter _ k => simpa [Cursor.enter, Cursor.root] using hroot
  | leave k top before frames =>
    rw [Cursor.root] at hroot
    cases frames with
    | nil =>
      rw [Cursor.root] at hroot
      simp [hroot, Hedge.append, Hedge.length]
    | cons f frames =>
      rw [Cursor.root] at hroot
      simp [Cursor.root, hroot]

/-! ### The loop -/

/-- Nothing is open when the stack is empty. -/
lemma stack_parse_eq_nil {c : Place} {rest : ByteString} {limit : ℕ} :
    (c.parse rest limit).stack = [] ↔ c.frames = [] := by
  rw [parse, ← List.length_eq_zero_iff, length_frameStack, List.length_eq_zero_iff]

/-- What the loop reads is an item. -/
lemma exists_item_of_loop {depthLimit fuel : ℕ} {c : Place} {rest : ByteString} {limit : ℕ}
    {q : Parse} (hlen : c.bytes.length + rest.length ≤ BdecodeToken.maxOffset)
    (hvalid : Valid c.top c.frames) (hshallow : Shallow depthLimit c.top c.frames)
    (hroot : Cursor.root c.top c.frames = .nil)
    (h : Parse.loop depthLimit fuel (c.parse rest limit) = .ok q) :
    ∃ (i : Items) (left : ByteString) (n : ℕ), c.bytes ++ rest = i.bytes ++ left ∧ i.length = 1 ∧
      i.WellFormed ∧ i.depth < depthLimit ∧ i.size + n = c.tokens.length + limit ∧
        q = parse ⟨i, []⟩ left n := by
  induction fuel generalizing c rest limit with
  | zero => exact absurd h (Parse.fail_ne_ok _ _ _)
  | succ fuel ih =>
    rw [Parse.loop] at h
    cases hstep : (c.parse rest limit).step depthLimit with
    | error f => simp [hstep] at h
    | ok p =>
      obtain ⟨hdepth, bs, left, n, ⟨top, frames⟩, hmove, rfl, rfl, rfl⟩ :=
        (step_eq_ok_iff hlen).mp hstep
      have hbytes := hmove.bytes_eq
      have hcount := hmove.length_tokens_eq
      have hvalid' := hmove.valid hvalid
      have hshallow' := hmove.shallow hdepth hshallow
      have hroot' := hmove.root hroot
      simp only [hstep, stack_parse_eq_nil] at h
      by_cases hdone : frames = []
      · subst hdone
        rw [if_pos rfl] at h hroot'
        refine ⟨top, left, n, ?_, hroot', hvalid', ?_, ?_, (Except.ok.inj h).symm⟩
        · rw [← List.append_assoc, ← hbytes]
          rfl
        · simp only [Shallow] at hshallow'
          omega
        · have hsize : (tokens ⟨top, []⟩).length = top.size := Items.length_tokens 0 top
          omega
      · rw [if_neg hdone] at h hroot'
        obtain ⟨i, left', m, hi, hone, hwell, hshort, hsize, hq⟩ :=
          ih (by rw [hbytes]; simpa [Nat.add_assoc] using hlen) hvalid' hshallow' hroot' h
        refine ⟨i, left', m, ?_, hone, hwell, hshort, by omega, hq⟩
        rw [← hi, hbytes, List.append_assoc]

/-- One pass of the loop. -/
lemma loop_of_move {depthLimit fuel limit : ℕ} {c c' : Place} {bs left : ByteString}
    (hlen : c.bytes.length + (bs ++ left).length ≤ BdecodeToken.maxOffset)
    (hdepth : c.frames.length < depthLimit) (hmove : Move c bs c') :
    Parse.loop depthLimit (fuel + 1) (c.parse (bs ++ left) (limit + 1)) =
      if c'.frames = [] then .ok (parse c' left limit)
      else Parse.loop depthLimit fuel (parse c' left limit) := by
  have hstep := (step_eq_ok_iff hlen).mpr
    ⟨hdepth, bs, left, limit, c', hmove, rfl, rfl, rfl⟩
  rw [Parse.loop, hstep]
  simp only [stack_parse_eq_nil]

/-- The loop reads a list or a dictionary if it reads what is in it. -/
lemma loop_node {depthLimit fuel limit : ℕ} {c : Place} {left : ByteString} {k : Kind}
    {inner : Items} (hlen : c.bytes.length + (Items.bytes (.node k inner .nil) ++ left).length ≤
      BdecodeToken.maxOffset) (hdepth : c.frames.length + 1 < depthLimit)
    (hkey : c.expectsKey = false) (hdone : k.isDict = true → keyNext true inner = true)
    (hinner : ∀ {fuel limit : ℕ} {left : ByteString},
      (bytes (c.enter k)).length + (inner.bytes ++ left).length ≤ BdecodeToken.maxOffset →
        Parse.loop depthLimit (fuel + inner.size)
            (parse (c.enter k) (inner.bytes ++ left) (limit + inner.size)) =
          Parse.loop depthLimit fuel (parse (Cursor.put (c.enter k) inner) left limit)) :
    Parse.loop depthLimit (fuel + (inner.size + 2))
        (c.parse (Items.bytes (.node k inner .nil) ++ left) (limit + (inner.size + 2))) =
      if c.frames = [] then .ok (parse (c.put (.node k inner .nil)) left limit)
      else Parse.loop depthLimit fuel (parse (c.put (.node k inner .nil)) left limit) := by
  have henter : Move c [k.letter] (c.enter k) := .enter c k hkey
  have hleave : Move (Cursor.put (c.enter k) inner) [101] (c.put (.node k inner .nil)) :=
    .leave k inner c.top c.frames hdone
  have hsplit : Items.bytes (.node k inner .nil) ++ left =
      [k.letter] ++ (inner.bytes ++ ([101] ++ left)) := by
    simp
  have hbytes : bytes (Cursor.put (c.enter k) inner) = bytes (c.enter k) ++ inner.bytes :=
    Cursor.word_put bencoding (c.enter k) inner
  have hcount : ∀ m, m + (inner.size + 2) = m + 1 + inner.size + 1 := by omega
  rw [hsplit] at hlen ⊢
  have hlenInner : (bytes (c.enter k)).length + (inner.bytes ++ ([101] ++ left)).length ≤
      BdecodeToken.maxOffset := by
    rwa [henter.bytes_eq, List.length_append, Nat.add_assoc, ← List.length_append]
  have hlenLeave : (bytes (Cursor.put (c.enter k) inner)).length + ([101] ++ left).length ≤
      BdecodeToken.maxOffset := by
    rwa [hbytes, List.length_append, Nat.add_assoc, ← List.length_append]
  rw [hcount, hcount, loop_of_move hlen (by omega) henter, Cursor.frames_enter,
    if_neg (List.cons_ne_nil _ _), hinner hlenInner,
    loop_of_move hlenLeave (by simpa using hdepth) hleave, Cursor.frames_put]

/-- The loop reads a row of items that is accepted. -/
lemma loop_row {depthLimit fuel limit : ℕ} {h : Items} {c : Place} {left : ByteString}
    (hlen : c.bytes.length + (h.bytes ++ left).length ≤ BdecodeToken.maxOffset)
    (hopen : c.frames ≠ []) (hdepth : c.frames.length + h.depth < depthLimit)
    (hh : h.WellFormed) (hfits : Fits c h) :
    Parse.loop depthLimit (fuel + h.size) (c.parse (h.bytes ++ left) (limit + h.size)) =
      Parse.loop depthLimit fuel (parse (c.put h) left limit) := by
  induction h generalizing c fuel limit left with
  | nil => simp [Cursor.put, Hedge.size]
  | leaf s next ih =>
    obtain ⟨hs, hnext⟩ := hh
    obtain ⟨hkey, hfits⟩ := fits_leaf.mp hfits
    have hmove : Move c s.bytes (c.put (.leaf s .nil)) := .put c s hs hkey
    rw [Items.bytes_leaf, List.append_assoc] at hlen ⊢
    have hlenNext : (bytes (c.put (.leaf s .nil))).length + (Items.bytes next ++ left).length ≤
        BdecodeToken.maxOffset := by
      rwa [hmove.bytes_eq, List.length_append, Nat.add_assoc, ← List.length_append]
    rw [Hedge.size, ← Nat.add_assoc, ← Nat.add_assoc, loop_of_move hlen (by omega) hmove,
      Cursor.frames_put, if_neg hopen, ih hlenNext hopen hdepth hnext hfits, Cursor.put_put]
    rfl
  | node k inner next ihInner ih =>
    obtain ⟨hinner, hkeys, hnext⟩ := hh
    obtain ⟨hkey, hfits⟩ := fits_node.mp hfits
    have hsplit : Items.bytes (.node k inner next) ++ left =
        Items.bytes (.node k inner .nil) ++ (Items.bytes next ++ left) := by
      simp
    have hcount : ∀ m, m + (Hedge.node k inner next).size = m + next.size + (inner.size + 2) := by
      intro m
      rw [Hedge.size]
      omega
    have hbytes :
        bytes (c.put (.node k inner .nil)) = c.bytes ++ Items.bytes (.node k inner .nil) :=
      Cursor.word_put bencoding c _
    rw [Hedge.depth] at hdepth
    rw [hsplit] at hlen
    have hlenNext : (bytes (c.put (.node k inner .nil))).length +
        (Items.bytes next ++ left).length ≤ BdecodeToken.maxOffset := by
      rwa [hbytes, List.length_append, Nat.add_assoc, ← List.length_append]
    rw [hcount, hcount, hsplit,
      loop_node hlen (by omega) hkey (fun hk => (hkeys hk).2) fun hlenInner =>
        ihInner hlenInner (List.cons_ne_nil _ _)
          (by rw [Cursor.frames_enter, List.length_cons]; omega) hinner fun hk => (hkeys hk).1,
      if_neg hopen, ih hlenNext hopen (by rw [Cursor.frames_put]; omega) hnext hfits,
      Cursor.put_put]
    rfl

/-- The loop reads an item that is accepted. -/
lemma loop_item {depthLimit fuel limit : ℕ} {h : Items} {left : ByteString}
    (hlen : (h.bytes ++ left).length ≤ BdecodeToken.maxOffset) (hone : h.length = 1)
    (hh : h.WellFormed) (hdepth : h.depth < depthLimit) :
    Parse.loop depthLimit (fuel + h.size) (parse ⟨.nil, []⟩ (h.bytes ++ left) (limit + h.size)) =
      .ok (parse ⟨h, []⟩ left limit) := by
  have hlen' : (bytes ⟨.nil, []⟩).length + (h.bytes ++ left).length ≤ BdecodeToken.maxOffset := by
    rwa [show (bytes ⟨.nil, []⟩).length = 0 from rfl, Nat.zero_add]
  cases h with
  | nil => exact absurd hone (by simp [Hedge.length])
  | leaf s next =>
    obtain rfl := Hedge.length_eq_zero.mp (Nat.succ.inj hone)
    have hmove : Move ⟨.nil, []⟩ s.bytes ⟨.leaf s .nil, []⟩ :=
      .put ⟨.nil, []⟩ s hh.1 fun hkey => by simp [expectsKey] at hkey
    rw [Items.bytes_leaf, Items.bytes_nil, List.append_nil] at hlen' ⊢
    exact (loop_of_move hlen' hdepth hmove).trans (if_pos rfl)
  | node k inner next =>
    obtain rfl := Hedge.length_eq_zero.mp (Nat.succ.inj hone)
    obtain ⟨hinner, hkeys, -⟩ := hh
    rw [Hedge.depth] at hdepth
    refine (loop_node hlen' (by simp only [List.length_nil]; omega) rfl
      (fun hk => (hkeys hk).2) fun hlenInner => ?_).trans (if_pos rfl)
    exact loop_row hlenInner (List.cons_ne_nil _ _)
      (by rw [Cursor.frames_enter, List.length_cons, List.length_nil]; omega) hinner
      fun hk => (hkeys hk).1

end Place

/-! ### `bdecode` -/

namespace Items

/-- What `bdecode` accepts: an item of the grammar within the limits. -/
structure Readable (depthLimit tokenLimit : ℕ) (h : Items) : Prop where
  length_eq : h.length = 1
  wellFormed : h.WellFormed
  depth_lt : h.depth < depthLimit
  size_le : h.size ≤ tokenLimit

/-- The tokens that `bdecode` writes for an item. -/
def layout (h : Items) : List BdecodeToken :=
  tokens 0 h ++ [.create (bytes h).length 0 .ending 0]

end Items

/-- An item within the limits is accepted, whatever follows it. -/
lemma bdecode_item {depthLimit tokenLimit : ℕ} {h : Items} {left : ByteString}
    (hlen : (h.bytes ++ left).length ≤ BdecodeToken.maxOffset)
    (hh : h.Readable depthLimit tokenLimit) :
    bdecode (h.bytes ++ left) depthLimit tokenLimit = ⟨none, h.layout, h.bytes.length⟩ := by
  have hsize := h.size_le_length_bytes
  have hlimit := hh.size_le
  have hloop := @Place.loop_item depthLimit ((h.bytes ++ left).length + 1 - h.size)
    (tokenLimit - h.size) h left hlen hh.length_eq hh.wellFormed hh.depth_lt
  rw [Nat.sub_add_cancel (by rw [List.length_append]; omega), Nat.sub_add_cancel hlimit] at hloop
  rw [bdecode, if_neg (by omega), show Parse.start (h.bytes ++ left) tokenLimit =
    Place.parse ⟨.nil, []⟩ (h.bytes ++ left) tokenLimit from rfl, hloop]
  rfl

/-- What is accepted begins with an item within the limits. -/
lemma exists_item_of_bdecode {buffer : ByteString} {depthLimit tokenLimit : ℕ}
    (herror : (bdecode buffer depthLimit tokenLimit).error = none) :
    buffer.length ≤ BdecodeToken.maxOffset ∧
      ∃ (h : Items) (left : ByteString), buffer = h.bytes ++ left ∧
        h.Readable depthLimit tokenLimit := by
  have hlen : buffer.length ≤ BdecodeToken.maxOffset := by
    by_contra hlong
    rw [bdecode, if_pos (not_le.mp hlong)] at herror
    simp at herror
  refine ⟨hlen, ?_⟩
  rw [bdecode, if_neg (not_lt.mpr hlen)] at herror
  split at herror
  · rename_i p hloop
    obtain ⟨h, left, n, hbuffer, hone, hwell, hdepth, hsize, -⟩ :=
      Place.exists_item_of_loop (c := ⟨.nil, []⟩) (by simpa [Place.bytes, Cursor.word,
        Cursor.framesWord, Hedge.word] using hlen) trivial (Or.inl rfl) rfl hloop
    have hcount : h.size + n = 0 + tokenLimit := hsize
    exact ⟨h, left, hbuffer, hone, hwell, hdepth, by omega⟩
  · simp at herror

/-- `bdecode` reports no error exactly for the buffers that begin with an item of the grammar within
the limits.  The tokens are then those of the item, and what follows the item is not looked at. -/
theorem bdecode_eq_iff (buffer : ByteString) (depthLimit tokenLimit : ℕ)
    (tokens : List BdecodeToken) (size : ℕ) :
    bdecode buffer depthLimit tokenLimit = ⟨none, tokens, size⟩ ↔
      buffer.length ≤ BdecodeToken.maxOffset ∧
        ∃ (h : Items) (left : ByteString), buffer = h.bytes ++ left ∧
          h.Readable depthLimit tokenLimit ∧ tokens = h.layout ∧ size = h.bytes.length := by
  constructor
  · intro hdecode
    obtain ⟨hlen, h, left, rfl, hh⟩ := exists_item_of_bdecode (congrArg BdecodeResult.error hdecode)
    rw [bdecode_item hlen hh] at hdecode
    obtain ⟨-, htokens, hsize⟩ := BdecodeResult.mk.inj hdecode
    exact ⟨hlen, h, left, rfl, hh, htokens.symm, hsize.symm⟩
  · rintro ⟨hlen, h, left, rfl, hh, rfl, rfl⟩
    exact bdecode_item hlen hh

end Tent
