import Tent.Bencode.Accepts
import Tent.Bencode.Node
import Tent.Tracker.TrackerClient

/-!
# The tree behind the tokens

An item of the grammar stands for a tree: integers that do not fit into an `int64_t` count as zero,
a dictionary is the list of its keys and values in the order of the buffer.  The accessors of
`bdecode_node` answer for the tokens that `bdecode` wrote what the tree says (`Represents`), and
what a node remembers never changes an answer.
-/

set_option autoImplicit false

namespace Tent

open Bytes

/-! ### Items as trees -/

/-- What `int_value` makes of the text of an integer. -/
def integerValue (body : ByteString) : ℤ :=
  if int64Max < digitsValue (unsigned body) then 0
  else if body.head? = some 45 then -(digitsValue (unsigned body) : ℤ)
  else digitsValue (unsigned body)

/-- The tree of a scalar. -/
def Scalar.value : Scalar → BNode
  | integer body => .int (integerValue body)
  | string _ body => .string body

/-- Keys and values that take turns. -/
def pairUp : List BNode → List (ByteString × BNode)
  | .string key :: value :: rest => (key, value) :: pairUp rest
  | _ => []

namespace Items

/-- The trees of a row of items. -/
def values : Items → List BNode
  | .nil => []
  | .leaf s next => s.value :: values next
  | .node .list inner next => .list (values inner) :: values next
  | .node .dict inner next => .dict (pairUp (values inner)) :: values next

/-- There is a tree for every item. -/
@[simp] lemma length_values (h : Items) : (values h).length = h.length := by
  induction h with
  | nil => rfl
  | leaf s next ih => rw [values, List.length_cons, ih, Hedge.length]
  | node k inner next _ ih => cases k <;> rw [values, List.length_cons, ih, Hedge.length]

/-- The trees without the first. -/
lemma values_tail (h : Items) : values h.tail = (values h).tail := by
  cases h with
  | nil => rfl
  | leaf s next => rfl
  | node k inner next => cases k <;> rfl

/-- The trees without the first ones. -/
lemma values_drop (n : ℕ) (h : Items) : values (h.drop n) = (values h).drop n := by
  induction n generalizing h with
  | zero => rfl
  | succ n ih => rw [Hedge.drop, ih, values_tail, List.drop_tail]

end Items

/-! ### Rows of tokens -/

/-- From index `j` on, the tokens are those of the row `h`, which stands at `offset` in the buffer,
and an end token follows. -/
structure RowAt (tokens : List BdecodeToken) (buffer : ByteString) (j offset : ℕ) (h : Items) :
    Prop where
  layout : ∃ stop after, tokens.drop j = h.tokens offset ++ stop :: after ∧
    stop.type = .ending ∧ stop.offset = offset + h.bytes.length
  bytes : h.bytes <+: buffer.drop offset
  fits : offset + h.bytes.length ≤ BdecodeToken.maxOffset
  wellFormed : h.WellFormed

namespace RowAt

variable {tokens : List BdecodeToken} {buffer : ByteString} {j offset : ℕ}

/-- The element at an index is the first one from there on. -/
lemma getElem?_of_drop {α : Type*} {l rest : List α} {i : ℕ} {x : α} (h : l.drop i = x :: rest) :
    l[i]? = some x ∧ l.drop (i + 1) = rest := by
  constructor
  · rw [← List.head?_drop, h, List.head?_cons]
  · rw [← List.tail_drop, h, List.tail_cons]

/-- What follows a part of a list. -/
lemma drop_of_append {α : Type*} {l xs ys : List α} {i n : ℕ} (h : l.drop i = xs ++ ys)
    (hn : xs.length = n) : l.drop (i + n) = ys := by
  rw [← hn, ← List.drop_drop, h, List.drop_left]

/-- Behind a row there is an end token. -/
lemma nil (h : RowAt tokens buffer j offset .nil) :
    ∃ t, tokens[j]? = some t ∧ t.type = .ending ∧ t.offset = offset := by
  obtain ⟨stop, after, hdrop, htype, hoffset⟩ := h.layout
  exact ⟨stop, (getElem?_of_drop hdrop).1, htype, hoffset⟩

/-- A scalar has its token in front of those of the rest of the row. -/
lemma leaf {s : Scalar} {next : Items} (h : RowAt tokens buffer j offset (.leaf s next)) :
    tokens[j]? = some (s.token offset) ∧
      RowAt tokens buffer (j + 1) (offset + s.bytes.length) next := by
  obtain ⟨stop, after, hdrop, htype, hoffset⟩ := h.layout
  obtain ⟨hget, hrest⟩ := getElem?_of_drop hdrop
  have hlength : (s.bytes ++ next.bytes).length = s.bytes.length + next.bytes.length :=
    List.length_append
  refine ⟨hget, ⟨stop, after, hrest, htype, ?_⟩, ?_, ?_, h.wellFormed.2⟩
  · rw [hoffset, Items.bytes_leaf, hlength, Nat.add_assoc]
  · obtain ⟨rest, hbytes⟩ := h.bytes
    rw [Items.bytes_leaf, List.append_assoc] at hbytes
    exact ⟨rest, (drop_of_append hbytes.symm rfl).symm⟩
  · have hfits := h.fits
    rw [Items.bytes_leaf, hlength] at hfits
    omega

/-- A list or a dictionary has its token in front of those of its items, and these in front of those
of the rest of the row. -/
lemma node {k : Kind} {inner next : Items}
    (h : RowAt tokens buffer j offset (.node k inner next)) :
    tokens[j]? = some ((BdecodeToken.opening offset k.type).setNextItem (inner.size + 2)) ∧
      RowAt tokens buffer (j + 1) (offset + 1) inner ∧
        RowAt tokens buffer (j + (inner.size + 2)) (offset + 1 + inner.bytes.length + 1) next := by
  obtain ⟨stop, after, hdrop, htype, hoffset⟩ := h.layout
  obtain ⟨hinner, -, hnext⟩ := h.wellFormed
  have hlength : (Items.bytes (.node k inner next)).length =
      1 + inner.bytes.length + 1 + next.bytes.length := by
    rw [Items.bytes_node, List.length_cons, List.length_append, List.length_cons]
    omega
  have hfits := h.fits
  rw [hlength] at hoffset hfits
  have hsplit : tokens.drop j =
      (BdecodeToken.opening offset k.type).setNextItem (inner.size + 2) ::
        (inner.tokens (offset + 1) ++
          (BdecodeToken.create (offset + 1 + inner.bytes.length) 1 .ending 0 ::
            (next.tokens (offset + 1 + inner.bytes.length + 1) ++ stop :: after))) := by
    rw [hdrop, Items.tokens]
    simp only [List.cons_append, List.append_assoc]
  obtain ⟨hget, hrest⟩ := getElem?_of_drop hsplit
  obtain ⟨-, hskip⟩ := getElem?_of_drop (drop_of_append hrest (Items.length_tokens _ _))
  rw [show j + 1 + inner.size + 1 = j + (inner.size + 2) by omega] at hskip
  obtain ⟨rest, hbytes⟩ := h.bytes
  have hdropInner : buffer.drop (offset + 1) = inner.bytes ++ 101 :: (next.bytes ++ rest) := by
    rw [Items.bytes_node, List.cons_append, List.append_assoc] at hbytes
    exact (getElem?_of_drop hbytes.symm).2
  obtain ⟨-, hdropNext⟩ := getElem?_of_drop (drop_of_append hdropInner rfl)
  have hsmall : (offset + 1 + inner.bytes.length) % 2 ^ 29 = offset + 1 + inner.bytes.length := by
    rw [BdecodeToken.maxOffset] at hfits
    exact Nat.mod_eq_of_lt (by omega)
  exact ⟨hget, ⟨⟨_, _, hrest, rfl, hsmall⟩, ⟨_, hdropInner.symm⟩, by omega, hinner⟩,
    ⟨⟨stop, after, hskip, htype, by omega⟩, ⟨rest, hdropNext.symm⟩, by omega, hnext⟩⟩

/-- The token at an index begins where the row does. -/
lemma getElem?_offset {h : Items} (hrow : RowAt tokens buffer j offset h) :
    ∃ t, tokens[j]? = some t ∧ t.offset = offset := by
  have hfits := hrow.fits
  have hsmall : offset % 2 ^ 29 = offset := by
    rw [BdecodeToken.maxOffset] at hfits
    exact Nat.mod_eq_of_lt (by omega)
  cases h with
  | nil =>
    obtain ⟨t, hget, -, hoffset⟩ := hrow.nil
    exact ⟨t, hget, hoffset⟩
  | leaf s next => exact ⟨_, hrow.leaf.1, by cases s <;> exact hsmall⟩
  | node k inner next => exact ⟨_, hrow.node.1, hsmall⟩

/-- There are tokens for the row and for what ends it. -/
lemma lt_length {h : Items} (hrow : RowAt tokens buffer j offset h) :
    j + h.size < tokens.length := by
  obtain ⟨stop, after, hdrop, -⟩ := hrow.layout
  have hlength := congrArg List.length hdrop
  rw [List.length_drop, List.length_append, Items.length_tokens, List.length_cons] at hlength
  omega

/-- The token of a list or a dictionary. -/
lemma node_token {k : Kind} {inner next : Items}
    (hrow : RowAt tokens buffer j offset (.node k inner next)) :
    ∃ t, tokens[j]? = some t ∧ t.type = k.type ∧ t.offset = offset ∧
      t.nextItem = inner.size + 2 := by
  have hsize := Items.size_le_length_bytes inner
  have hfits := hrow.fits
  rw [Items.bytes_node, List.length_cons, List.length_append, List.length_cons,
    BdecodeToken.maxOffset] at hfits
  exact ⟨_, hrow.node.1, rfl, Nat.mod_eq_of_lt (by omega), Nat.mod_eq_of_lt (by omega)⟩

/-- The tokens of the rest of a row are found by jumping over the first item. -/
lemma skip {h : Items} (hrow : RowAt tokens buffer j offset h) (hne : h ≠ .nil) :
    ∃ t next offset', tokens[j]? = some t ∧ t.type ≠ .ending ∧ skipItem tokens j = some next ∧
      RowAt tokens buffer next offset' h.tail := by
  cases h with
  | nil => contradiction
  | leaf s rest =>
    obtain ⟨hget, hrest⟩ := hrow.leaf
    refine ⟨s.token offset, j + 1, _, hget, ?_, ?_, hrest⟩
    · cases s <;> simp [Scalar.token, BdecodeToken.create]
    · rw [skipItem, hget]
      cases s <;> rfl
  | node k inner rest =>
    obtain ⟨t, hget, htype, -, hnext⟩ := hrow.node_token
    refine ⟨t, j + (inner.size + 2), _, hget, ?_, ?_, hrow.node.2.2⟩
    · rw [htype]
      cases k <;> simp [Kind.type]
    · rw [skipItem, hget, Option.map_some, hnext]

/-- Jumping to an item that is there. -/
lemma skipTo {h : Items} (hrow : RowAt tokens buffer j offset h) (hlength : 1 < h.length) :
    ∃ next offset', skipToItem tokens j = some next ∧ RowAt tokens buffer next offset' h.tail := by
  obtain ⟨t, next, offset', -, -, hskip, htail⟩ :=
    hrow.skip (by rintro rfl; simp [Hedge.length] at hlength)
  obtain ⟨t', -, -, hget, htype, -⟩ :=
    htail.skip fun hnil => by
      have hzero := congrArg Hedge.length hnil
      rw [Hedge.length_tail, Hedge.length] at hzero
      omega
  refine ⟨next, offset', ?_, htail⟩
  rw [skipToItem, hskip, Option.bind_some, hget, Option.bind_some, if_neg htype]

/-- Counting the items of a row. -/
lemma count {h : Items} {fuel ret : ℕ} (hrow : RowAt tokens buffer j offset h)
    (hfuel : h.length < fuel) : countItems tokens fuel j ret = some (ret + h.length) := by
  induction fuel generalizing j offset h ret with
  | zero => exact absurd hfuel (Nat.not_lt_zero _)
  | succ fuel ih =>
    by_cases hnil : h = .nil
    · subst hnil
      obtain ⟨t, hget, htype, -⟩ := hrow.nil
      rw [countItems, hget, Option.bind_some, if_pos htype, Hedge.length, Nat.add_zero]
    · obtain ⟨t, next, offset', hget, htype, hskip, htail⟩ := hrow.skip hnil
      have hpos : 0 < h.length :=
        Nat.pos_of_ne_zero fun hzero => hnil (Hedge.length_eq_zero.mp hzero)
      rw [countItems, hget, Option.bind_some, if_neg htype, hskip, Option.bind_some,
        ih htail (by rw [Hedge.length_tail]; omega), Hedge.length_tail]
      congr 1
      omega

/-- Walking to an item of a list. -/
lemma walk {h : Items} {n : ℕ} (hrow : RowAt tokens buffer j offset h) (hn : n < h.length) :
    ∃ token offset', listWalk tokens n j = some token ∧
      RowAt tokens buffer token offset' (h.drop n) := by
  induction n generalizing j offset h with
  | zero => exact ⟨j, offset, rfl, hrow⟩
  | succ n ih =>
    obtain ⟨next, offset', hskip, htail⟩ := hrow.skipTo (by omega)
    obtain ⟨token, offset'', hwalk, hdrop⟩ := ih htail (by rw [Hedge.length_tail]; omega)
    exact ⟨token, offset'', by rw [listWalk, hskip, Option.bind_some, hwalk], hdrop⟩

end RowAt

/-! ### Keys and values -/

/-- Keys and values take turns in a row, from a key to a value. -/
def Paired (h : Items) : Prop := Keyed true h ∧ keyNext true h = true

/-- A row of keys and values begins with both. -/
lemma Paired.cases {h : Items} (hh : Paired h) :
    h = .nil ∨ ∃ head key rest, h = .leaf (.string head key) rest ∧ rest ≠ .nil ∧
      Paired rest.tail := by
  obtain ⟨hkeyed, hnext⟩ := hh
  cases h with
  | nil => exact Or.inl rfl
  | node k inner rest => exact absurd hkeyed.1 (by simp)
  | leaf s rest =>
    cases s with
    | integer body => exact (hkeyed.1 rfl).elim
    | string head key =>
      refine Or.inr ⟨head, key, rest, rfl, ?_, ?_⟩
      · rintro rfl
        exact absurd hnext (by simp [keyNext])
      · cases rest with
        | nil => exact absurd hnext (by simp [keyNext])
        | leaf s rest => exact ⟨hkeyed.2.2, hnext⟩
        | node k inner rest => exact ⟨hkeyed.2.2, hnext⟩

/-- The trees of a row that is not empty. -/
lemma Items.exists_values_eq_cons {h : Items} (hne : h ≠ .nil) :
    ∃ v, h.values = v :: Items.values h.tail := by
  cases h with
  | nil => contradiction
  | leaf s next => exact ⟨_, rfl⟩
  | node k inner next => cases k <;> exact ⟨_, rfl⟩

/-- A row of keys and values from its second pair on. -/
lemma Paired.drop {h : Items} (hh : Paired h) (n : ℕ) :
    Paired (h.drop (2 * n)) ∧
      pairUp (Items.values (h.drop (2 * n))) = (pairUp h.values).drop n := by
  induction n generalizing h with
  | zero => exact ⟨hh, rfl⟩
  | succ n ih =>
    have hdrop : h.drop (2 * (n + 1)) = h.tail.tail.drop (2 * n) := rfl
    rw [hdrop]
    rcases hh.cases with rfl | ⟨head, key, rest, rfl, hne, htail⟩
    · exact ⟨(ih hh).1, (ih hh).2.trans (by simp [Items.values, pairUp])⟩
    · obtain ⟨v, hvalues⟩ := Items.exists_values_eq_cons hne
      refine ⟨(ih htail).1, ?_⟩
      rw [Hedge.tail, (ih htail).2, Items.values, hvalues]
      rfl

/-- There are twice as many items as pairs. -/
lemma Paired.length_pairUp {h : Items} (hh : Paired h) :
    2 * (pairUp h.values).length = h.length := by
  induction hlen : h.length using Nat.strong_induction_on generalizing h with
  | _ n ih =>
    rcases hh.cases with rfl | ⟨head, key, rest, rfl, hne, htail⟩
    · rw [← hlen]
      rfl
    · obtain ⟨v, hvalues⟩ := Items.exists_values_eq_cons hne
      have hpos : 0 < rest.length :=
        Nat.pos_of_ne_zero fun hzero => hne (Hedge.length_eq_zero.mp hzero)
      rw [Hedge.length] at hlen
      have hrest := ih rest.tail.length (by rw [Hedge.length_tail]; omega) htail rfl
      rw [Hedge.length_tail] at hrest
      rw [Items.values, hvalues, Scalar.value, pairUp, List.length_cons]
      omega

/-- Walking to a key of a dictionary. -/
lemma RowAt.walkPairs {tokens : List BdecodeToken} {buffer : ByteString} {j offset n : ℕ}
    {h : Items} (hrow : RowAt tokens buffer j offset h) (hh : Paired h) (hn : 2 * n < h.length) :
    ∃ token offset', dictWalk tokens n j = some token ∧
      RowAt tokens buffer token offset' (h.drop (2 * n)) := by
  induction n generalizing j offset h with
  | zero => exact ⟨j, offset, rfl, hrow⟩
  | succ n ih =>
    rcases hh.cases with rfl | ⟨head, key, rest, rfl, hne, htail⟩
    · exact absurd hn (Nat.not_lt_zero _)
    · have hlength : (Hedge.leaf (.string head key) rest : Items).length = rest.length + 1 := rfl
      rw [hlength] at hn
      obtain ⟨value, offset', hskip, hvalue⟩ := hrow.skipTo (by rw [hlength]; omega)
      obtain ⟨next, offset'', hskip', hnext⟩ := hvalue.skipTo (by rw [Hedge.tail]; omega)
      obtain ⟨token, offset''', hwalk, hdrop⟩ :=
        ih hnext htail (by rw [Hedge.tail, Hedge.length_tail]; omega)
      have htype : tokens[j]?.map BdecodeToken.type = some .string := by
        rw [hrow.leaf.1]
        rfl
      exact ⟨token, offset''', by rw [dictWalk, if_pos htype, hskip, Option.bind_some, hskip',
        Option.bind_some, hwalk], hdrop⟩

/-! ### Nodes -/

/-- How many items of the children make one entry. -/
def Kind.width : Kind → ℕ
  | dict => 2
  | list => 1

namespace BdecodeNode

/-- The node stands for the first item of the row, and what it remembers is right. -/
structure Views (n : BdecodeNode) (j offset : ℕ) (h : Items) : Prop where
  tokenIdx : n.tokenIdx = some j
  row : RowAt n.rootTokens n.buffer j offset h
  ne_nil : h ≠ .nil
  last : ∀ k inner next, h = .node k inner next → ∀ item token, n.last = some (item, token) →
    k.width * item ≤ inner.length ∧
      ∃ offset', RowAt n.rootTokens n.buffer token offset' (inner.drop (k.width * item))
  size : ∀ k inner next, h = .node k inner next → ∀ size, n.size = some size →
    k.width * size = inner.length

/-- The node stands for the tree. -/
def Represents (n : BdecodeNode) (v : BNode) : Prop :=
  ∃ j offset h, n.Views j offset h ∧ h.values.head? = some v

section Accessors

variable {n : BdecodeNode} {j offset token : ℕ}

/-- A node that remembers nothing stands for the row at its token. -/
lemma views_child {h : Items} (hrow : RowAt n.rootTokens n.buffer token offset h)
    (hne : h ≠ .nil) : (n.child token).Views token offset h where
  tokenIdx := rfl
  row := hrow
  ne_nil := hne
  last := by
    intro k inner next _ item token hlast
    exact absurd hlast (by simp [child])
  size := by
    intro k inner next _ size hsize
    exact absurd hsize (by simp [child])

/-- The token of a scalar. -/
lemma Views.assertType_leaf {s : Scalar} {next : Items} (h : n.Views j offset (.leaf s next)) :
    n.assertType (s.token offset).type = some (j, s.token offset) := by
  rw [assertType, h.tokenIdx, Option.bind_some, h.row.leaf.1, Option.bind_some, if_pos rfl]

/-- A scalar spans its bytes. -/
lemma Views.tokenSourceSpan_leaf {s : Scalar} {next : Items}
    (h : n.Views j offset (.leaf s next)) :
    tokenSourceSpan n.rootTokens j = some s.bytes.length := by
  obtain ⟨hget, hnext⟩ := h.row.leaf
  obtain ⟨t, hget', hoffset⟩ := hnext.getElem?_offset
  obtain ⟨t', hget'', hoffset'⟩ := h.row.getElem?_offset
  obtain rfl : s.token offset = t' := Option.some.inj (hget.symm.trans hget'')
  rw [tokenSourceSpan, hget, Option.bind_some, hget', Option.map_some, hoffset, hoffset',
    Nat.add_sub_cancel_left]

/-- The token of a string. -/
lemma Views.assertType_string {head body : ByteString} {next : Items}
    (h : n.Views j offset (.leaf (.string head body) next)) :
    ∃ t, n.assertType .string = some (j, t) ∧ t.offset = offset ∧
      t.startOffset = head.length + 1 := by
  obtain ⟨⟨hdigits, -⟩, -⟩ := h.row.wellFormed
  have hpos : 0 < head.length := List.length_pos_iff.mpr hdigits.ne_nil
  have hshort := hdigits.length_le
  obtain ⟨t, hget, hoffset⟩ := h.row.getElem?_offset
  obtain rfl : (Scalar.string head body).token offset = t :=
    Option.some.inj (h.row.leaf.1.symm.trans hget)
  have hheader : ((Scalar.string head body).token offset).header =
      (head.length + 1 - 2) % 2 ^ 3 := rfl
  refine ⟨_, h.assertType_leaf, hoffset, ?_⟩
  rw [BdecodeToken.startOffset, hheader]
  omega

/-- A string spans its length, a colon and its bytes. -/
lemma Views.tokenSourceSpan_string {head body : ByteString} {next : Items}
    (h : n.Views j offset (.leaf (.string head body) next)) :
    tokenSourceSpan n.rootTokens j = some (head.length + 1 + body.length) := by
  rw [h.tokenSourceSpan_leaf, Scalar.bytes, List.length_append, List.length_cons]
  congr 1
  omega

/-- A string is what follows its length. -/
lemma Views.stringValue {head body : ByteString} {next : Items}
    (h : n.Views j offset (.leaf (.string head body) next)) : n.stringValue = some body := by
  obtain ⟨t, hassert, hoffset, hstart⟩ := h.assertType_string
  obtain ⟨rest, hbytes⟩ := h.row.bytes
  have hskip : n.buffer.drop offset = (head ++ [58]) ++ (body ++ (next.bytes ++ rest)) := by
    rw [← hbytes]
    simp [Scalar.bytes]
  rw [BdecodeNode.stringValue, hassert, Option.bind_some]
  dsimp only
  rw [h.tokenSourceSpan_string, Option.map_some, hoffset, hstart,
    RowAt.drop_of_append hskip (by simp), Nat.add_sub_cancel_left, List.take_left]

/-- The length of a string. -/
lemma Views.stringLength {head body : ByteString} {next : Items}
    (h : n.Views j offset (.leaf (.string head body) next)) :
    n.stringLength = some body.length := by
  obtain ⟨t, hassert, -, hstart⟩ := h.assertType_string
  rw [BdecodeNode.stringLength, hassert, Option.bind_some]
  dsimp only
  rw [h.tokenSourceSpan_string, Option.map_some, hstart, Nat.add_sub_cancel_left]

/-- An integer is read from behind the `i`. -/
lemma Views.intValue {body : ByteString} {next : Items}
    (h : n.Views j offset (.leaf (.integer body) next)) :
    n.intValue = some (integerValue body) := by
  have hassert : n.assertType .integer = _ := h.assertType_leaf
  obtain ⟨hdigits, -⟩ := h.row.wellFormed
  obtain ⟨t, hget, hoffset⟩ := h.row.getElem?_offset
  obtain rfl : (Scalar.integer body).token offset = t :=
    Option.some.inj (h.row.leaf.1.symm.trans hget)
  obtain ⟨rest, hbytes⟩ := h.row.bytes
  -- what `parse_int` may look at reaches one byte behind the integer
  obtain ⟨extra, hptr⟩ : ∃ extra,
      (n.buffer.drop (offset + 1)).take (Scalar.integer body).bytes.length =
        body ++ 101 :: extra := by
    have hskip : n.buffer.drop offset = [105] ++ (body ++ 101 :: (next.bytes ++ rest)) := by
      rw [← hbytes]
      simp [Scalar.bytes]
    refine ⟨(next.bytes ++ rest).take 1, ?_⟩
    have hlength : (Scalar.integer body).bytes.length = body.length + 2 := by
      simp [Scalar.bytes]
    rw [RowAt.drop_of_append (n := 1) hskip rfl, hlength, List.take_append,
      List.take_of_length_le (Nat.le_add_right _ _), Nat.add_sub_cancel_left]
    rfl
  have hnegative : (body ++ 101 :: extra).head? = some 45 ↔ body.head? = some 45 := by
    cases body with
    | nil => simp
    | cons c body => simp
  have hparse := @parseInt_digits 101 (by decide) _ extra hdigits.numeric 0 (Nat.zero_le int64Max)
  have hvalue : accValue 0 (unsigned body) = digitsValue (unsigned body) := rfl
  rw [BdecodeNode.intValue, hassert, Option.bind_some]
  dsimp only
  rw [h.tokenSourceSpan_leaf, Option.map_some, hoffset, hptr, unsigned_append rfl, integerValue]
  rw [hvalue] at hparse
  by_cases hlarge : int64Max < digitsValue (unsigned body)
  · rw [if_pos hlarge] at hparse ⊢
    obtain ⟨e, hparse⟩ := hparse
    rw [hparse]
  · rw [if_neg hlarge] at hparse ⊢
    simp only [hparse, hnegative]

/-- The token of a list or a dictionary. -/
lemma Views.assertType_node {k : Kind} {inner next : Items}
    (h : n.Views j offset (.node k inner next)) : ∃ t, n.assertType k.type = some (j, t) := by
  rw [assertType, h.tokenIdx, Option.bind_some, h.row.node.1, Option.bind_some]
  exact ⟨_, if_pos rfl⟩

/-- The accessors start at an item that is there. -/
lemma Views.lookupStart {k : Kind} {inner next : Items} (h : n.Views j offset (.node k inner next))
    (usable : ℕ → Bool) :
    ∃ item token offset', n.lookupStart j usable = (item, token) ∧
      (usable item = true ∨ item = 0) ∧ k.width * item ≤ inner.length ∧
        RowAt n.rootTokens n.buffer token offset' (inner.drop (k.width * item)) := by
  have hfirst : RowAt n.rootTokens n.buffer (j + 1) (offset + 1) (inner.drop (k.width * 0)) := by
    rw [Nat.mul_zero]
    exact h.row.node.2.1
  cases hlast : n.last with
  | none => exact ⟨0, j + 1, _, by rw [BdecodeNode.lookupStart, hlast], Or.inr rfl, by simp, hfirst⟩
  | some lookup =>
    obtain ⟨item, token⟩ := lookup
    by_cases husable : usable item = true
    · obtain ⟨hle, offset', hrow⟩ := h.last k inner next rfl item token hlast
      refine ⟨item, token, offset', ?_, Or.inl husable, hle, hrow⟩
      simp [BdecodeNode.lookupStart, hlast, husable]
    · refine ⟨0, j + 1, _, ?_, Or.inr rfl, by simp, hfirst⟩
      simp [BdecodeNode.lookupStart, hlast, husable]

/-- `list_size` counts the items, whatever was looked up before. -/
lemma Views.listSize {inner next : Items} (h : n.Views j offset (.node .list inner next)) :
    ∃ n', n.listSize = some (inner.length, n') ∧ n'.Views j offset (.node .list inner next) := by
  obtain ⟨t, hassert⟩ := h.assertType_node
  rw [BdecodeNode.listSize, show n.assertType .list = _ from hassert, Option.bind_some]
  dsimp only
  cases hsize : n.size with
  | some size =>
    have hlength := h.size .list inner next rfl size hsize
    rw [Kind.width, Nat.one_mul] at hlength
    exact ⟨n, by rw [hlength], h⟩
  | none =>
    obtain ⟨item, token, offset', hstart, -, hle, hrow⟩ := h.lookupStart fun _ => true
    rw [Kind.width, Nat.one_mul] at hle hrow
    have hbound := hrow.lt_length
    have hitems := Hedge.length_le_size (inner.drop item)
    rw [hstart]
    dsimp only
    rw [hrow.count (by omega), Option.map_some, Hedge.length_drop, Nat.add_sub_cancel' hle]
    refine ⟨_, rfl, ⟨h.tokenIdx, h.row, h.ne_nil, h.last, ?_⟩⟩
    rintro k inner' next' heq size hsize'
    obtain ⟨rfl, rfl, -⟩ := Hedge.node.inj heq
    rw [Kind.width, Nat.one_mul]
    exact (Option.some.inj hsize').symm

/-- `list_at` finds the item, whatever was looked up before. -/
lemma Views.listAt {inner next : Items} {i : ℕ} (h : n.Views j offset (.node .list inner next))
    (hi : i < inner.length) :
    ∃ c token offset' n', n.listAt i = some (c, n') ∧ c.Views token offset' (inner.drop i) ∧
      n'.Views j offset (.node .list inner next) := by
  obtain ⟨t, hassert⟩ := h.assertType_node
  obtain ⟨item, token, offset', hstart, husable, -, hrow⟩ := h.lookupStart fun item => item ≤ i
  have hitem : item ≤ i := by
    rcases husable with husable | rfl
    · exact of_decide_eq_true husable
    · exact Nat.zero_le i
  rw [Kind.width, Nat.one_mul] at hrow
  obtain ⟨token', offset'', hwalk, hfound⟩ := hrow.walk (n := i - item)
    (by rw [Hedge.length_drop]; omega)
  rw [Hedge.drop_drop, Nat.add_sub_cancel' hitem] at hfound
  have hne : inner.drop i ≠ .nil := by
    intro hnil
    have hzero := congrArg Hedge.length hnil
    rw [Hedge.length_drop, Hedge.length] at hzero
    omega
  rw [BdecodeNode.listAt, show n.assertType .list = _ from hassert, Option.bind_some]
  dsimp only
  rw [hstart]
  dsimp only
  rw [hwalk, Option.map_some]
  refine ⟨_, token', offset'', _, rfl, views_child hfound hne,
    ⟨h.tokenIdx, h.row, h.ne_nil, ?_, h.size⟩⟩
  rintro k inner' next' heq item' token'' hlast
  obtain ⟨rfl, rfl, -⟩ := Hedge.node.inj heq
  obtain ⟨rfl, rfl⟩ := Prod.mk.inj (Option.some.inj hlast)
  rw [Kind.width, Nat.one_mul]
  exact ⟨hi.le, offset'', hfound⟩

/-- What is in a dictionary are keys and values. -/
lemma Views.paired {inner next : Items} (h : n.Views j offset (.node .dict inner next)) :
    Paired inner :=
  h.row.wellFormed.2.1 rfl

/-- `dict_size` counts the keys, whatever was looked up before. -/
lemma Views.dictSize {inner next : Items} (h : n.Views j offset (.node .dict inner next)) :
    ∃ n', n.dictSize = some ((pairUp inner.values).length, n') ∧
      n'.Views j offset (.node .dict inner next) := by
  have hpairs := h.paired.length_pairUp
  obtain ⟨t, hassert⟩ := h.assertType_node
  rw [BdecodeNode.dictSize, show n.assertType .dict = _ from hassert, Option.bind_some]
  dsimp only
  cases hsize : n.size with
  | some size =>
    have hlength := h.size .dict inner next rfl size hsize
    rw [Kind.width] at hlength
    exact ⟨n, by rw [show size = (pairUp inner.values).length by omega], h⟩
  | none =>
    obtain ⟨item, token, offset', hstart, -, hle, hrow⟩ := h.lookupStart fun _ => true
    rw [Kind.width] at hle hrow
    have hbound := hrow.lt_length
    have hitems := Hedge.length_le_size (inner.drop (2 * item))
    have hcount : item * 2 + (inner.drop (2 * item)).length = inner.length := by
      rw [Hedge.length_drop]
      omega
    rw [hstart]
    dsimp only
    rw [hrow.count (by omega), Option.bind_some, hcount, ← hpairs, if_pos (Nat.mul_mod_right 2 _),
      Nat.mul_div_cancel_left _ two_pos]
    refine ⟨_, rfl, ⟨h.tokenIdx, h.row, h.ne_nil, h.last, ?_⟩⟩
    rintro k inner' next' heq size hsize'
    obtain ⟨rfl, rfl, -⟩ := Hedge.node.inj heq
    rw [← Option.some.inj hsize', Kind.width, hpairs]

/-- A key in front of its value. -/
lemma find_pair {h : Items} (hrow : RowAt n.rootTokens n.buffer token offset h) (hh : Paired h) :
    h = .nil ∨ ∃ key v value offset',
      pairUp h.values = (key, v) :: pairUp (Items.values (h.drop 2)) ∧
      (n.child token).stringValue = some key ∧ skipToItem n.rootTokens token = some value ∧
        skipItem n.rootTokens token = some value ∧
          RowAt n.rootTokens n.buffer value offset' h.tail ∧ h.tail ≠ .nil ∧
            (Items.values h.tail).head? = some v := by
  rcases hh.cases with rfl | ⟨head, key, rest, rfl, hne, -⟩
  · exact Or.inl rfl
  · obtain ⟨v, hvalues⟩ := Items.exists_values_eq_cons hne
    have hpos : 0 < rest.length :=
      Nat.pos_of_ne_zero fun hzero => hne (Hedge.length_eq_zero.mp hzero)
    obtain ⟨value, offset', hskipTo, hvalue⟩ := hrow.skipTo (by rw [Hedge.length]; omega)
    obtain ⟨t, next, -, -, -, hskip, -⟩ := hrow.skip (by simp)
    have hsame : next = value := by
      rw [skipToItem, hskip, Option.bind_some] at hskipTo
      cases hget : n.rootTokens[next]? with
      | none => simp [hget] at hskipTo
      | some t' =>
        rw [hget, Option.bind_some] at hskipTo
        split_ifs at hskipTo
        exact Option.some.inj hskipTo
    refine Or.inr ⟨key, v, value, offset', ?_, (views_child hrow (by simp)).stringValue, hskipTo,
      hsame ▸ hskip, hvalue, hne, ?_⟩
    · rw [Items.values, hvalues]
      rfl
    · rw [Hedge.tail, hvalues, List.head?_cons]

/-- `dict_at` finds the key and the value, whatever was looked up before. -/
lemma Views.dictAt {inner next : Items} {i : ℕ} {key : ByteString} {v : BNode}
    (h : n.Views j offset (.node .dict inner next))
    (hi : (pairUp inner.values)[i]? = some (key, v)) :
    ∃ c token offset' r n', n.dictAt i = some ((key, c), n') ∧ c.Views token offset' r ∧
      r.values.head? = some v ∧ r.depth ≤ inner.depth ∧
        n'.Views j offset (.node .dict inner next) := by
  have hpairs := h.paired.length_pairUp
  have hlt : i < (pairUp inner.values).length := (List.getElem?_eq_some_iff.mp hi).1
  obtain ⟨t, hassert⟩ := h.assertType_node
  obtain ⟨item, token, offset', hstart, husable, -, hrow⟩ := h.lookupStart fun item => item ≤ i
  have hitem : item ≤ i := by
    rcases husable with husable | rfl
    · exact of_decide_eq_true husable
    · exact Nat.zero_le i
  rw [Kind.width] at hrow
  obtain ⟨token', offset'', hwalk, hfound⟩ := hrow.walkPairs (n := i - item)
    (h.paired.drop item).1 (by rw [Hedge.length_drop]; omega)
  rw [Hedge.drop_drop, ← Nat.mul_add, Nat.add_sub_cancel' hitem] at hfound
  obtain ⟨hpaired, hdrop⟩ := h.paired.drop i
  rcases find_pair hfound hpaired with hnil | ⟨key', v', value, offset''', hpair, hkey, -, hskip,
    hvalue, hne, hhead⟩
  · have hzero := congrArg Hedge.length hnil
    rw [Hedge.length_drop, Hedge.length] at hzero
    omega
  · have hsame : (key', v') = (key, v) := by
      have hget := congrArg List.head? (hdrop.symm.trans hpair)
      rw [List.head?_drop, hi, List.head?_cons] at hget
      exact (Option.some.inj hget).symm
    obtain ⟨rfl, rfl⟩ := Prod.mk.inj hsame
    rw [BdecodeNode.dictAt, show n.assertType .dict = _ from hassert, Option.bind_some]
    dsimp only
    rw [hstart]
    dsimp only
    rw [hwalk, Option.bind_some, hkey, Option.bind_some, hskip, Option.map_some]
    refine ⟨_, value, offset''', _, _, rfl, views_child hvalue hne, hhead,
      (Hedge.depth_tail_le _).trans (inner.depth_drop_le _), ?_⟩
    split_ifs
    · refine ⟨h.tokenIdx, h.row, h.ne_nil, ?_, h.size⟩
      rintro k inner' next' heq item' token'' hlast
      obtain ⟨rfl, rfl, -⟩ := Hedge.node.inj heq
      obtain ⟨rfl, rfl⟩ := Prod.mk.inj (Option.some.inj hlast)
      rw [Kind.width]
      exact ⟨by omega, offset'', hfound⟩
    · exact h

/-- The loop of `dict_find` stops at the first entry with the key. -/
lemma findLoop_row {h : Items} {key : ByteString} {fuel : ℕ}
    (hrow : RowAt n.rootTokens n.buffer token offset h) (hh : Paired h) (hfuel : h.length < fuel) :
    match (pairUp h.values).lookup key with
    | some v => ∃ c, n.findLoop key fuel token = some c ∧ c.Represents v
    | none => n.findLoop key fuel token = some notFound := by
  induction fuel generalizing token offset h with
  | zero => exact absurd hfuel (Nat.not_lt_zero _)
  | succ fuel ih =>
    rcases find_pair hrow hh with rfl | ⟨key', v, value, offset', hpair, hkey, hskipTo, -, hvalue,
      hne, hhead⟩
    · obtain ⟨t, hget, htype, -⟩ := hrow.nil
      rw [findLoop, hget, Option.bind_some, if_pos htype]
      rfl
    · have hnil : h ≠ .nil := by
        rintro rfl
        exact hne rfl
      have hpos : 0 < h.length :=
        Nat.pos_of_ne_zero fun hzero => hnil (Hedge.length_eq_zero.mp hzero)
      obtain ⟨t, -, -, hget, htype, -⟩ := hrow.skip hnil
      rw [hpair, findLoop, hget, Option.bind_some, if_neg htype, hkey, Option.bind_some, hskipTo,
        Option.bind_some, List.lookup_cons]
      by_cases hfound : key = key'
      · rw [if_pos hfound, beq_iff_eq.mpr hfound]
        exact ⟨_, rfl, value, offset', _, views_child hvalue hne, hhead⟩
      · obtain ⟨-, next, offset'', -, -, hskip, hnext⟩ := hvalue.skip hne
        rw [if_neg hfound, beq_eq_false_iff_ne.mpr hfound, hskip, Option.bind_some]
        exact ih hnext (hh.drop 1).1 (by rw [Hedge.length_drop]; omega)

/-- `dict_find` finds the value of the first entry with the key. -/
lemma Views.dictFind {inner next : Items} (h : n.Views j offset (.node .dict inner next))
    (key : ByteString) :
    match (pairUp inner.values).lookup key with
    | some v => ∃ c, n.dictFind key = some c ∧ c.Represents v
    | none => n.dictFind key = some notFound := by
  obtain ⟨t, hassert⟩ := h.assertType_node
  have hbound := h.row.node.2.1.lt_length
  have hitems := Hedge.length_le_size inner
  rw [BdecodeNode.dictFind, show n.assertType .dict = _ from hassert, Option.bind_some]
  exact findLoop_row h.row.node.2.1 h.paired (by omega)

/-- The type of a node that remembers anything. -/
lemma Views.type {h : Items} (hviews : n.Views j offset h) :
    n.type = match h with
      | .nil => none
      | .leaf (.integer _) _ => some .integer
      | .leaf (.string _ _) _ => some .string
      | .node k _ _ => some k.type := by
  rw [BdecodeNode.type, hviews.tokenIdx, Option.bind_some]
  cases h with
  | nil => exact absurd rfl hviews.ne_nil
  | leaf s next =>
    rw [hviews.row.leaf.1]
    cases s <;> rfl
  | node k inner next =>
    rw [hviews.row.node.1]
    rfl

/-- The section of a node is what its item looks like in the buffer. -/
lemma Views.dataSection {h : Items} (hviews : n.Views j offset h) :
    ∃ item : Items, item.length = 1 ∧ item.WellFormed ∧ item.values.head? = h.values.head? ∧
      n.dataSection = some item.bytes := by
  rw [BdecodeNode.dataSection, hviews.tokenIdx]
  dsimp only
  obtain ⟨rest, hbytes⟩ := hviews.row.bytes
  cases h with
  | nil => exact absurd rfl hviews.ne_nil
  | leaf s next =>
    obtain ⟨hget, hnext⟩ := hviews.row.leaf
    obtain ⟨t, hstop, hoffset⟩ := hnext.getElem?_offset
    obtain ⟨t', hget', hoffset'⟩ := hviews.row.getElem?_offset
    obtain rfl : s.token offset = t' := Option.some.inj (hget.symm.trans hget')
    have hitem : Items.bytes (.leaf s .nil) = s.bytes := List.append_nil _
    refine ⟨.leaf s .nil, rfl, ⟨hviews.row.wellFormed.1, trivial⟩, rfl, ?_⟩
    rw [hget, Option.bind_some, show (s.token offset).nextItem = 1 by cases s <;> rfl, hstop,
      Option.map_some, hoffset, hoffset', Nat.add_sub_cancel_left, ← hbytes, Items.bytes_leaf,
      List.append_assoc, List.take_left, hitem]
  | node k inner next =>
    obtain ⟨t, hget, -, hoffset, hnext⟩ := hviews.row.node_token
    obtain ⟨t', hstop, hoffset'⟩ := hviews.row.node.2.2.getElem?_offset
    have hsplit : Items.bytes (.node k inner next) =
        Items.bytes (.node k inner .nil) ++ Items.bytes next := by
      simp
    have hlength : offset + 1 + (Items.bytes inner).length + 1 - offset =
        (Items.bytes (.node k inner .nil)).length := by
      rw [Items.bytes_node, List.length_cons, List.length_append, List.length_cons, Items.bytes_nil,
        List.length_nil]
      omega
    refine ⟨.node k inner .nil, rfl, ?_, by cases k <;> rfl, ?_⟩
    · exact ⟨hviews.row.wellFormed.1, hviews.row.wellFormed.2.1, trivial⟩
    · rw [hget, Option.bind_some, hnext, hstop, Option.map_some, hoffset, hoffset', hlength,
        ← hbytes, hsplit, List.append_assoc, List.take_left]

end Accessors

end BdecodeNode

end Tent
