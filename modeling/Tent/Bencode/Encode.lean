import Tent.Bencode.Dialogue

/-!
# Encoding trees

A tree is encoded with its integers and lengths in decimal, without leading zeros, and its entries
in their order (`BNode.encode`).  `decodeTree` runs `bdecode` and reads the whole tree through the
accessors, the way a program walks over an answer of unknown shape.

`decodeTree_encode` is the round trip: a tree whose integers fit into an `int64_t` and whose strings
are not longer than eight digits can say comes back, whatever follows it in the buffer.
-/

set_option autoImplicit false

namespace Tent

open Bytes

/-! ### Decimal numbers -/

/-- A number in decimal digits from its last digit. -/
lemma decimal_eq (n : ℕ) :
    decimal n = (if n < 10 then [] else decimal (n / 10)) ++ [UInt8.ofNat (48 + n % 10)] := by
  have hdigit :
      ∀ d ∈ List.range 10, UInt8.ofNat (Nat.digitChar d).toNat = UInt8.ofNat (48 + d) := by decide
  have hlast : n % 10 ∈ List.range 10 := List.mem_range.mpr (Nat.mod_lt n (by decide))
  rw [decimal, Nat.toDigits_eq_if (by decide)]
  split_ifs with hn
  · rw [← Nat.mod_eq_of_lt hn]
    simp [ascii, hdigit _ hlast]
  · simp [ascii, decimal, hdigit _ hlast]

/-- A number is read back from its digits. -/
lemma digitsValue_decimal_eq (n : ℕ) : digitsValue (decimal n) = n := by
  induction n using Nat.strong_induction_on with
  | _ n ih =>
    have hmod : n % 10 < 10 := Nat.mod_lt n (by decide)
    have hlast : (UInt8.ofNat (48 + n % 10)).toNat = 48 + n % 10 := by
      rw [UInt8.toNat_ofNat']
      exact Nat.mod_eq_of_lt (by omega)
    rw [decimal_eq, digitsValue, List.foldl_append]
    simp only [List.foldl_cons, List.foldl_nil, hlast, Nat.add_sub_cancel_left]
    split_ifs with hn
    · rw [List.foldl_nil]
      omega
    · have hrest := ih (n / 10) (by omega)
      rw [digitsValue] at hrest
      rw [hrest]
      omega

/-- A number is printed in digits. -/
lemma numeric_of_mem_decimal {n : ℕ} {c : UInt8} (hc : c ∈ decimal n) : numeric c = true := by
  have hdigit : ∀ d ∈ List.range 10, numeric (UInt8.ofNat (48 + d)) = true := by decide
  induction n using Nat.strong_induction_on with
  | _ n ih =>
    rw [decimal_eq, List.mem_append, List.mem_singleton] at hc
    rcases hc with hc | rfl
    · split_ifs at hc with hn
      · simp at hc
      · exact ih (n / 10) (by omega) hc
    · exact hdigit _ (List.mem_range.mpr (Nat.mod_lt n (by decide)))

/-- A number is printed in as many digits as its size asks for. -/
lemma digits_decimal {n most : ℕ} (hmost : 0 < most) (hn : n < 10 ^ most) :
    Digits most (decimal n) where
  numeric _ := numeric_of_mem_decimal
  ne_nil := by
    rw [decimal, ascii, ne_eq, List.map_eq_nil_iff]
    exact Nat.toDigits_ne_nil
  length_le := by
    rw [decimal, ascii, List.length_map]
    exact (Nat.length_toDigits_le_iff (by decide) hmost).mpr hn

/-- An integer in decimal digits. -/
def integerText (z : ℤ) : ByteString :=
  if z < 0 then 45 :: decimal z.natAbs else decimal z.natAbs

/-- The digits of an integer. -/
lemma unsigned_integerText (z : ℤ) : unsigned (integerText z) = decimal z.natAbs := by
  unfold integerText
  split_ifs with hz
  · rfl
  · rw [unsigned, if_neg]
    intro hminus
    exact absurd (numeric_of_mem_decimal (List.mem_of_mem_head? hminus)) (by decide)

/-- An integer is read back from its digits. -/
lemma integerValue_integerText {z : ℤ} (hz : z.natAbs ≤ int64Max) :
    integerValue (integerText z) = z := by
  rw [integerValue, unsigned_integerText, digitsValue_decimal_eq, if_neg (not_lt.mpr hz)]
  unfold integerText
  split_ifs with hneg hminus hminus
  · omega
  · exact absurd rfl hminus
  · exact absurd (numeric_of_mem_decimal (List.mem_of_mem_head? hminus)) (by decide)
  · omega

/-! ### Trees as items -/

mutual

/-- A tree in front of a row. -/
def BNode.items : BNode → Items → Items
  | .int z, next => .leaf (.integer (integerText z)) next
  | .string s, next => .leaf (.string (decimal s.length) s) next
  | .list vs, next => .node .list (listItems vs) next
  | .dict entries, next => .node .dict (entryItems entries) next

/-- The items of a list. -/
def listItems : List BNode → Items
  | [] => .nil
  | v :: vs => v.items (listItems vs)

/-- The keys and values of a dictionary. -/
def entryItems : List (ByteString × BNode) → Items
  | [] => .nil
  | (key, v) :: entries => .leaf (.string (decimal key.length) key) (v.items (entryItems entries))

end

/-- The encoding of a tree. -/
def BNode.encode (v : BNode) : ByteString := (v.items .nil).bytes

mutual

/-- The integers of the tree fit into an `int64_t`, and the lengths of its strings into eight
digits. -/
def BNode.Encodable : BNode → Prop
  | .int z => z.natAbs ≤ int64Max
  | .string s => s.length < 10 ^ 8
  | .list vs => ListEncodable vs
  | .dict entries => EntriesEncodable entries

/-- All items of a list can be encoded. -/
def ListEncodable : List BNode → Prop
  | [] => True
  | v :: vs => v.Encodable ∧ ListEncodable vs

/-- All keys and values of a dictionary can be encoded. -/
def EntriesEncodable : List (ByteString × BNode) → Prop
  | [] => True
  | (key, v) :: entries => key.length < 10 ^ 8 ∧ v.Encodable ∧ EntriesEncodable entries

end

mutual

/-- An encoded tree stands for itself. -/
lemma BNode.values_items (v : BNode) (next : Items) (h : v.Encodable) :
    (v.items next).values = v :: next.values := by
  cases v with
  | int z => rw [BNode.items, Items.values, Scalar.value, integerValue_integerText h]
  | string s => rw [BNode.items, Items.values, Scalar.value]
  | list vs => rw [BNode.items, Items.values, values_listItems vs h]
  | dict entries => rw [BNode.items, Items.values, pairUp_entryItems entries h]

/-- The items of an encoded list stand for themselves. -/
lemma values_listItems (vs : List BNode) (h : ListEncodable vs) : (listItems vs).values = vs := by
  cases vs with
  | nil => rfl
  | cons v vs => rw [listItems, BNode.values_items v _ h.1, values_listItems vs h.2]

/-- The entries of an encoded dictionary stand for themselves. -/
lemma pairUp_entryItems (entries : List (ByteString × BNode)) (h : EntriesEncodable entries) :
    pairUp (entryItems entries).values = entries := by
  cases entries with
  | nil => rfl
  | cons entry entries =>
    obtain ⟨key, v⟩ := entry
    rw [entryItems, Items.values, BNode.values_items v _ h.2.1, Scalar.value, pairUp,
      pairUp_entryItems entries h.2.2]

end

/-- A tree is one item. -/
lemma BNode.length_items (v : BNode) (next : Items) : (v.items next).length = next.length + 1 := by
  cases v <;> rw [BNode.items, Hedge.length]

/-- A tree takes the place of a value. -/
lemma BNode.paired_items (key : ByteString) (v : BNode) {next : Items} (h : Paired next) :
    Paired (.leaf (.string (decimal key.length) key) (v.items next)) := by
  cases v <;> exact ⟨⟨fun _ => trivial, by simp [BNode.items, Keyed, h.1]⟩, h.2⟩

mutual

/-- A tree that can be encoded is accepted. -/
lemma BNode.wellFormed_items (v : BNode) (next : Items) (h : v.Encodable)
    (hnext : next.WellFormed) : (v.items next).WellFormed := by
  cases v with
  | int z =>
    rw [BNode.items]
    refine ⟨?_, hnext⟩
    have hsmall : z.natAbs < 10 ^ 20 := lt_of_le_of_lt h (by decide)
    rw [Scalar.WellFormed, unsigned_integerText]
    exact digits_decimal (by decide) hsmall
  | string s =>
    rw [BNode.items]
    exact ⟨⟨digits_decimal (by decide) h, digitsValue_decimal_eq _⟩, hnext⟩
  | list vs =>
    rw [BNode.items]
    exact ⟨wellFormed_listItems vs h, fun hdict => absurd hdict (by simp [Kind.isDict]), hnext⟩
  | dict entries =>
    rw [BNode.items]
    exact ⟨(wellFormed_entryItems entries h).1, fun _ => (wellFormed_entryItems entries h).2, hnext⟩

/-- The items of a list that can be encoded are accepted. -/
lemma wellFormed_listItems (vs : List BNode) (h : ListEncodable vs) :
    (listItems vs).WellFormed := by
  cases vs with
  | nil => trivial
  | cons v vs =>
    rw [listItems]
    exact BNode.wellFormed_items v _ h.1 (wellFormed_listItems vs h.2)

/-- The entries of a dictionary that can be encoded are accepted as keys and values. -/
lemma wellFormed_entryItems (entries : List (ByteString × BNode)) (h : EntriesEncodable entries) :
    (entryItems entries).WellFormed ∧ Paired (entryItems entries) := by
  cases entries with
  | nil => exact ⟨trivial, trivial, rfl⟩
  | cons entry entries =>
    obtain ⟨key, v⟩ := entry
    obtain ⟨hrest, hpaired⟩ := wellFormed_entryItems entries h.2.2
    rw [entryItems]
    exact ⟨⟨⟨digits_decimal (by decide) h.1, digitsValue_decimal_eq _⟩,
      BNode.wellFormed_items v _ h.2.1 hrest⟩, BNode.paired_items key v hpaired⟩

end

/-! ### Reading a whole tree -/

/-- The tree of a node, read through the accessors down to a given depth. -/
def BdecodeNode.tree : ℕ → BdecodeNode → Option BNode
  | 0, _ => none
  | fuel + 1, n =>
    match n.type with
    | some .integer => n.intValue.map .int
    | some .string => n.stringValue.map .string
    | some .list =>
      n.listSize.bind fun (size, n) =>
        ((List.range size).mapM fun i => (n.listAt i).bind fun (c, _) => tree fuel c).map .list
    | some .dict =>
      n.dictSize.bind fun (size, n) =>
        ((List.range size).mapM fun i =>
          (n.dictAt i).bind fun ((key, c), _) => (tree fuel c).map fun v => (key, v)).map .dict
    | _ => none

/-- The tree of what `bdecode` accepts; none if it reports an error. -/
def decodeTree (buffer : ByteString) (depthLimit tokenLimit : ℕ) : Option BNode :=
  if (bdecode buffer depthLimit tokenLimit).error = none then
    ((bdecode buffer depthLimit tokenLimit).node buffer).tree depthLimit
  else
    none

/-- Collecting the elements of a list by their indices. -/
lemma mapM_range_eq_some {α : Type*} {l : List α} {f : ℕ → Option α}
    (hf : ∀ i x, l[i]? = some x → f i = some x) : (List.range l.length).mapM f = some l := by
  induction l generalizing f with
  | nil => rfl
  | cons x l ih =>
    rw [List.length_cons, List.range_succ_eq_map, List.mapM_cons, hf 0 x rfl, List.mapM_map,
      ih (f := f ∘ Nat.succ) fun i y hy => hf (i + 1) y hy]
    rfl

/-- Reading down to the depth of the item gives its tree. -/
lemma BdecodeNode.Views.tree {n : BdecodeNode} {j offset fuel : ℕ} {h : Items} {v : BNode}
    (hviews : n.Views j offset h) (hdepth : h.depth < fuel) (hv : h.values.head? = some v) :
    n.tree fuel = some v := by
  induction fuel generalizing n j offset h v with
  | zero => exact absurd hdepth (Nat.not_lt_zero _)
  | succ fuel ih =>
    have htype := hviews.type
    rw [BdecodeNode.tree]
    cases h with
    | nil => exact absurd rfl hviews.ne_nil
    | leaf s next =>
      cases s with
      | integer body =>
        rw [htype]
        dsimp only
        rw [hviews.intValue, Option.map_some]
        exact hv
      | string head body =>
        rw [htype]
        dsimp only
        rw [hviews.stringValue, Option.map_some]
        exact hv
    | node k inner next =>
      rw [Hedge.depth] at hdepth
      cases k with
      | list =>
        obtain ⟨n', hsize, hviews'⟩ := hviews.listSize
        rw [htype]
        dsimp only [Kind.type]
        rw [hsize, Option.bind_some, ← Items.length_values, mapM_range_eq_some, Option.map_some]
        · exact hv
        · intro i w hw
          have hlt : i < inner.length := by
            rw [← Items.length_values]
            exact (List.getElem?_eq_some_iff.mp hw).1
          obtain ⟨c, token, offset', n'', hat, hc, -⟩ := hviews'.listAt hlt
          rw [hat, Option.bind_some]
          have hshallow := inner.depth_drop_le i
          exact ih hc (by omega) (by rw [Items.values_drop, List.head?_drop, hw])
      | dict =>
        obtain ⟨n', hsize, hviews'⟩ := hviews.dictSize
        rw [htype]
        dsimp only [Kind.type]
        rw [hsize, Option.bind_some, mapM_range_eq_some, Option.map_some]
        · exact hv
        · rintro i ⟨key, w⟩ hw
          obtain ⟨c, token, offset', r, n'', hat, hc, hhead, hshallow, -⟩ := hviews'.dictAt hw
          rw [hat, Option.bind_some]
          dsimp only
          rw [ih hc (by omega) hhead, Option.map_some]

/-- What a buffer decodes to is the tree of the item in front of it. -/
lemma decodeTree_item {depthLimit tokenLimit : ℕ} {h : Items} {left : ByteString} {v : BNode}
    (hlen : (h.bytes ++ left).length ≤ BdecodeToken.maxOffset)
    (hh : h.Readable depthLimit tokenLimit) (hv : h.values = [v]) :
    decodeTree (h.bytes ++ left) depthLimit tokenLimit = some v := by
  rw [decodeTree, if_pos (congrArg BdecodeResult.error (bdecode_item hlen hh))]
  exact (views_bdecode hlen hh).tree hh.depth_lt (by rw [hv, List.head?_cons])

end Tent
