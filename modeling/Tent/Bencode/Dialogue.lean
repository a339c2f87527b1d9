import Tent.Bencode.Tree
import Tent.Foundation.Simulation

/-!
# Asking a decoded buffer

A program that uses `bdecode` holds a number of nodes and asks them in any order: for their type,
for the number of their items, for an item by its index or its key, for the value of a string or an
integer.  Answers that are nodes are held too and can be asked in turn.  `perform` does this with
the nodes and what they remember, `ask` with plain trees.

Whatever is asked of a buffer that `bdecode` accepted, in whatever order, the nodes answer what the
tree of its item says (`dialogue_bdecode`).
-/

set_option autoImplicit false

namespace Tent

open Bytes Transition

/-- A call of an accessor of the node with index `i`. -/
inductive NodeCall where
  | type (i : ℕ)
  | stringValue (i : ℕ)
  | stringLength (i : ℕ)
  | intValue (i : ℕ)
  | listSize (i : ℕ)
  | listAt (i item : ℕ)
  | dictSize (i : ℕ)
  | dictAt (i item : ℕ)
  | dictFind (i : ℕ) (key : ByteString)

/-- An answer.  A node is held behind those that are held already. -/
inductive NodeAnswer where
  | type (t : Option TokenType)
  | text (s : ByteString)
  | integer (z : ℤ)
  | number (size : ℕ)
  | node
  | entry (key : ByteString)
  deriving DecidableEq

namespace BdecodeNode

/-- The answer of the nodes, and the nodes that are held then. -/
def perform (nodes : List BdecodeNode) : NodeCall → Option (NodeAnswer × List BdecodeNode)
  | .type i => nodes[i]?.map fun n => (.type n.type, nodes)
  | .stringValue i => (nodes[i]?.bind stringValue).map fun s => (.text s, nodes)
  | .stringLength i => (nodes[i]?.bind stringLength).map fun size => (.number size, nodes)
  | .intValue i => (nodes[i]?.bind intValue).map fun z => (.integer z, nodes)
  | .listSize i => (nodes[i]?.bind listSize).map fun (size, n) => (.number size, nodes.set i n)
  | .listAt i item =>
    (nodes[i]?.bind (listAt · item)).map fun (c, n) => (.node, nodes.set i n ++ [c])
  | .dictSize i => (nodes[i]?.bind dictSize).map fun (size, n) => (.number size, nodes.set i n)
  | .dictAt i item =>
    (nodes[i]?.bind (dictAt · item)).map fun ((key, c), n) => (.entry key, nodes.set i n ++ [c])
  | .dictFind i key => (nodes[i]?.bind (dictFind · key)).map fun c => (.node, nodes ++ [c])

end BdecodeNode

namespace BNode

/-- The type of the node that stands for a tree. -/
def tokenType : BNode → TokenType
  | int _ => .integer
  | string _ => .string
  | list _ => .list
  | dict _ => .dict

/-- The string that a tree is. -/
def asString : BNode → Option ByteString
  | string s => some s
  | _ => none

/-- The integer that a tree is. -/
def asInt : BNode → Option ℤ
  | int z => some z
  | _ => none

/-- The list that a tree is. -/
def asList : BNode → Option (List BNode)
  | list items => some items
  | _ => none

/-- The dictionary that a tree is. -/
def asDict : BNode → Option (List (ByteString × BNode))
  | dict entries => some entries
  | _ => none

/-- The answer of the trees, and the trees that are held then; none in place of a tree is the node
that stands for nothing.  Nothing is answered where the type or the index is not right. -/
def ask (trees : List (Option BNode)) : NodeCall → Option (NodeAnswer × List (Option BNode))
  | .type i => trees[i]?.map fun v => (.type (v.map tokenType), trees)
  | .stringValue i => (trees[i]?.join.bind asString).map fun s => (.text s, trees)
  | .stringLength i => (trees[i]?.join.bind asString).map fun s => (.number s.length, trees)
  | .intValue i => (trees[i]?.join.bind asInt).map fun z => (.integer z, trees)
  | .listSize i => (trees[i]?.join.bind asList).map fun items => (.number items.length, trees)
  | .listAt i item =>
    (trees[i]?.join.bind asList).bind fun items =>
      items[item]?.map fun v => (.node, trees ++ [some v])
  | .dictSize i => (trees[i]?.join.bind asDict).map fun entries => (.number entries.length, trees)
  | .dictAt i item =>
    (trees[i]?.join.bind asDict).bind fun entries =>
      entries[item]?.map fun (key, v) => (.entry key, trees ++ [some v])
  | .dictFind i key =>
    (trees[i]?.join.bind asDict).map fun entries => (.node, trees ++ [entries.lookup key])

end BNode

namespace BdecodeNode

/-- The node stands for the tree, or for nothing. -/
def Stands (n : BdecodeNode) : Option BNode → Prop
  | some v => n.Represents v
  | none => n = notFound

variable {n : BdecodeNode} {v : BNode}

/-- What stands for a string is one. -/
lemma Represents.string {s : ByteString} (h : n.Represents (.string s)) :
    n.stringValue = some s ∧ n.stringLength = some s.length := by
  obtain ⟨j, offset, r, hviews, hhead⟩ := h
  cases r with
  | nil => exact absurd rfl hviews.ne_nil
  | leaf a next =>
    cases a with
    | integer body => exact absurd (Option.some.inj hhead) (by simp [Scalar.value])
    | string head body =>
      obtain rfl : body = s := BNode.string.inj (Option.some.inj hhead)
      exact ⟨hviews.stringValue, hviews.stringLength⟩
  | node k inner next => cases k <;> exact absurd (Option.some.inj hhead) (by simp)

/-- What stands for an integer is one. -/
lemma Represents.int {z : ℤ} (h : n.Represents (.int z)) : n.intValue = some z := by
  obtain ⟨j, offset, r, hviews, hhead⟩ := h
  cases r with
  | nil => exact absurd rfl hviews.ne_nil
  | leaf a next =>
    cases a with
    | integer body =>
      obtain rfl : integerValue body = z := BNode.int.inj (Option.some.inj hhead)
      exact hviews.intValue
    | string head body => exact absurd (Option.some.inj hhead) (by simp [Scalar.value])
  | node k inner next => cases k <;> exact absurd (Option.some.inj hhead) (by simp)

/-- What stands for a list views one. -/
lemma Represents.list {items : List BNode} (h : n.Represents (.list items)) :
    ∃ (j offset : ℕ) (inner next : Items), n.Views j offset (.node .list inner next) ∧
      inner.values = items := by
  obtain ⟨j, offset, r, hviews, hhead⟩ := h
  cases r with
  | nil => exact absurd rfl hviews.ne_nil
  | leaf a next => cases a <;> exact absurd (Option.some.inj hhead) (by simp [Scalar.value])
  | node k inner next =>
    cases k with
    | list => exact ⟨j, offset, inner, next, hviews, BNode.list.inj (Option.some.inj hhead)⟩
    | dict => exact absurd (Option.some.inj hhead) (by simp)

/-- What stands for a dictionary views one. -/
lemma Represents.dict {entries : List (ByteString × BNode)} (h : n.Represents (.dict entries)) :
    ∃ (j offset : ℕ) (inner next : Items), n.Views j offset (.node .dict inner next) ∧
      pairUp inner.values = entries := by
  obtain ⟨j, offset, r, hviews, hhead⟩ := h
  cases r with
  | nil => exact absurd rfl hviews.ne_nil
  | leaf a next => cases a <;> exact absurd (Option.some.inj hhead) (by simp [Scalar.value])
  | node k inner next =>
    cases k with
    | list => exact absurd (Option.some.inj hhead) (by simp)
    | dict => exact ⟨j, offset, inner, next, hviews, BNode.dict.inj (Option.some.inj hhead)⟩

/-- The type of a node is that of its tree. -/
lemma Represents.type (h : n.Represents v) : n.type = some v.tokenType := by
  obtain ⟨j, offset, r, hviews, hhead⟩ := h
  rw [hviews.type]
  cases r with
  | nil => exact absurd rfl hviews.ne_nil
  | leaf a next =>
    rw [← Option.some.inj hhead]
    cases a <;> rfl
  | node k inner next => cases k <;> rw [← Option.some.inj hhead] <;> rfl

/-- The number of items of a list. -/
lemma Represents.listSize {items : List BNode} (h : n.Represents (.list items)) :
    ∃ n', n.listSize = some (items.length, n') ∧ n'.Represents (.list items) := by
  obtain ⟨j, offset, inner, next, hviews, rfl⟩ := h.list
  obtain ⟨n', hsize, hviews'⟩ := hviews.listSize
  exact ⟨n', by rw [hsize, Items.length_values], j, offset, _, hviews', rfl⟩

/-- An item of a list. -/
lemma Represents.listAt {items : List BNode} {i : ℕ} (h : n.Represents (.list items))
    (hi : items[i]? = some v) :
    ∃ c n', n.listAt i = some (c, n') ∧ c.Represents v ∧ n'.Represents (.list items) := by
  obtain ⟨j, offset, inner, next, hviews, rfl⟩ := h.list
  have hlt : i < inner.length := by
    rw [← Items.length_values]
    exact (List.getElem?_eq_some_iff.mp hi).1
  obtain ⟨c, token, offset', n', hat, hc, hviews'⟩ := hviews.listAt hlt
  refine ⟨c, n', hat, ⟨token, offset', _, hc, ?_⟩, j, offset, _, hviews', rfl⟩
  rw [Items.values_drop, List.head?_drop, hi]

/-- The number of entries of a dictionary. -/
lemma Represents.dictSize {entries : List (ByteString × BNode)} (h : n.Represents (.dict entries)) :
    ∃ n', n.dictSize = some (entries.length, n') ∧ n'.Represents (.dict entries) := by
  obtain ⟨j, offset, inner, next, hviews, rfl⟩ := h.dict
  obtain ⟨n', hsize, hviews'⟩ := hviews.dictSize
  exact ⟨n', hsize, j, offset, _, hviews', rfl⟩

/-- An entry of a dictionary. -/
lemma Represents.dictAt {entries : List (ByteString × BNode)} {i : ℕ} {key : ByteString}
    (h : n.Represents (.dict entries)) (hi : entries[i]? = some (key, v)) :
    ∃ c n', n.dictAt i = some ((key, c), n') ∧ c.Represents v ∧ n'.Represents (.dict entries) := by
  obtain ⟨j, offset, inner, next, hviews, rfl⟩ := h.dict
  obtain ⟨c, token, offset', r, n', hat, hc, hhead, -, hviews'⟩ := hviews.dictAt hi
  exact ⟨c, n', hat, ⟨token, offset', r, hc, hhead⟩, j, offset, _, hviews', rfl⟩

/-- The value of a key. -/
lemma Represents.dictFind {entries : List (ByteString × BNode)} (h : n.Represents (.dict entries))
    (key : ByteString) : ∃ c, n.dictFind key = some c ∧ c.Stands (entries.lookup key) := by
  obtain ⟨j, offset, inner, next, hviews, rfl⟩ := h.dict
  have hfind := hviews.dictFind key
  cases hlookup : (pairUp inner.values).lookup key with
  | none =>
    rw [hlookup] at hfind
    exact ⟨notFound, hfind, rfl⟩
  | some w =>
    rw [hlookup] at hfind
    exact hfind

/-! ### Any number of nodes -/

/-- Every node stands for its tree. -/
def AllStand (nodes : List BdecodeNode) (trees : List (Option BNode)) : Prop :=
  List.Forall₂ Stands nodes trees

section AllStand

variable {nodes : List BdecodeNode} {trees : List (Option BNode)} {i : ℕ}

/-- A tree that is held has a node. -/
lemma AllStand.exists_node {w : Option BNode} (h : AllStand nodes trees) (hw : trees[i]? = some w) :
    ∃ n, nodes[i]? = some n ∧ n.Stands w := by
  induction h generalizing i with
  | nil => simp at hw
  | cons hhead _ ih =>
    cases i with
    | zero => exact ⟨_, rfl, Option.some.inj hw ▸ hhead⟩
    | succ i => exact ih hw

/-- One more node with its tree. -/
lemma AllStand.snoc {w : Option BNode} (h : AllStand nodes trees) (hn : n.Stands w) :
    AllStand (nodes ++ [n]) (trees ++ [w]) :=
  List.rel_append h (.cons hn .nil)

/-- What a node remembers may change. -/
lemma AllStand.set {w : Option BNode} (h : AllStand nodes trees) (hw : trees[i]? = some w)
    (hn : n.Stands w) : AllStand (nodes.set i n) trees := by
  induction h generalizing i with
  | nil => exact .nil
  | cons hhead htail ih =>
    cases i with
    | zero => exact .cons (Option.some.inj hw ▸ hn) htail
    | succ i => exact .cons hhead (ih hw)

/-- A tree that is held and is of the right type has a node. -/
lemma AllStand.exists_represents {α : Type*} {f : BNode → Option α} {x : α}
    (h : AllStand nodes trees) (hx : trees[i]?.join.bind f = some x) :
    ∃ v n, trees[i]? = some (some v) ∧ f v = some x ∧ nodes[i]? = some n ∧ n.Represents v := by
  obtain ⟨v, hv, hf⟩ := Option.bind_eq_some_iff.mp hx
  obtain hv := Option.join_eq_some_iff.mp hv
  obtain ⟨n, hn, hstands⟩ := h.exists_node hv
  exact ⟨v, n, hv, hf, hn, hstands⟩

/-- The nodes answer as the trees do. -/
lemma AllStand.perform {call : NodeCall} {answer : NodeAnswer} {trees' : List (Option BNode)}
    (h : AllStand nodes trees) (hask : BNode.ask trees call = some (answer, trees')) :
    ∃ nodes', BdecodeNode.perform nodes call = some (answer, nodes') ∧ AllStand nodes' trees' := by
  cases call with
  | type i =>
    obtain ⟨w, hw, heq⟩ := Option.map_eq_some_iff.mp hask
    obtain ⟨rfl, rfl⟩ := Prod.mk.inj heq
    obtain ⟨n, hn, hstands⟩ := h.exists_node hw
    refine ⟨nodes, ?_, h⟩
    rw [BdecodeNode.perform, hn, Option.map_some]
    cases w with
    | none =>
      obtain rfl : n = notFound := hstands
      rfl
    | some v => rw [Represents.type hstands, Option.map_some]
  | stringValue i =>
    obtain ⟨s, hs, heq⟩ := Option.map_eq_some_iff.mp hask
    obtain ⟨rfl, rfl⟩ := Prod.mk.inj heq
    obtain ⟨v, n, -, hv, hn, hrep⟩ := h.exists_represents hs
    obtain rfl : v = .string s := by cases v <;> simp_all [BNode.asString]
    exact ⟨nodes, by rw [BdecodeNode.perform, hn, Option.bind_some, hrep.string.1, Option.map_some],
      h⟩
  | stringLength i =>
    obtain ⟨s, hs, heq⟩ := Option.map_eq_some_iff.mp hask
    obtain ⟨rfl, rfl⟩ := Prod.mk.inj heq
    obtain ⟨v, n, -, hv, hn, hrep⟩ := h.exists_represents hs
    obtain rfl : v = .string s := by cases v <;> simp_all [BNode.asString]
    exact ⟨nodes, by rw [BdecodeNode.perform, hn, Option.bind_some, hrep.string.2, Option.map_some],
      h⟩
  | intValue i =>
    obtain ⟨z, hz, heq⟩ := Option.map_eq_some_iff.mp hask
    obtain ⟨rfl, rfl⟩ := Prod.mk.inj heq
    obtain ⟨v, n, -, hv, hn, hrep⟩ := h.exists_represents hz
    obtain rfl : v = .int z := by cases v <;> simp_all [BNode.asInt]
    exact ⟨nodes, by rw [BdecodeNode.perform, hn, Option.bind_some, hrep.int, Option.map_some], h⟩
  | listSize i =>
    obtain ⟨items, hitems, heq⟩ := Option.map_eq_some_iff.mp hask
    obtain ⟨rfl, rfl⟩ := Prod.mk.inj heq
    obtain ⟨v, n, htree, hv, hn, hrep⟩ := h.exists_represents hitems
    obtain rfl : v = .list items := by cases v <;> simp_all [BNode.asList]
    obtain ⟨n', hsize, hrep'⟩ := hrep.listSize
    exact ⟨_, by rw [BdecodeNode.perform, hn, Option.bind_some, hsize, Option.map_some],
      h.set htree hrep'⟩
  | listAt i item =>
    obtain ⟨items, hitems, hrest⟩ := Option.bind_eq_some_iff.mp hask
    obtain ⟨w, hw, heq⟩ := Option.map_eq_some_iff.mp hrest
    obtain ⟨rfl, rfl⟩ := Prod.mk.inj heq
    obtain ⟨v, n, htree, hv, hn, hrep⟩ := h.exists_represents hitems
    obtain rfl : v = .list items := by cases v <;> simp_all [BNode.asList]
    obtain ⟨c, n', hat, hc, hrep'⟩ := hrep.listAt hw
    exact ⟨_, by rw [BdecodeNode.perform, hn, Option.bind_some, hat, Option.map_some],
      (h.set htree hrep').snoc hc⟩
  | dictSize i =>
    obtain ⟨entries, hentries, heq⟩ := Option.map_eq_some_iff.mp hask
    obtain ⟨rfl, rfl⟩ := Prod.mk.inj heq
    obtain ⟨v, n, htree, hv, hn, hrep⟩ := h.exists_represents hentries
    obtain rfl : v = .dict entries := by cases v <;> simp_all [BNode.asDict]
    obtain ⟨n', hsize, hrep'⟩ := hrep.dictSize
    exact ⟨_, by rw [BdecodeNode.perform, hn, Option.bind_some, hsize, Option.map_some],
      h.set htree hrep'⟩
  | dictAt i item =>
    obtain ⟨entries, hentries, hrest⟩ := Option.bind_eq_some_iff.mp hask
    obtain ⟨⟨key, w⟩, hw, heq⟩ := Option.map_eq_some_iff.mp hrest
    obtain ⟨rfl, rfl⟩ := Prod.mk.inj heq
    obtain ⟨v, n, htree, hv, hn, hrep⟩ := h.exists_represents hentries
    obtain rfl : v = .dict entries := by cases v <;> simp_all [BNode.asDict]
    obtain ⟨c, n', hat, hc, hrep'⟩ := hrep.dictAt hw
    exact ⟨_, by rw [BdecodeNode.perform, hn, Option.bind_some, hat, Option.map_some],
      (h.set htree hrep').snoc hc⟩
  | dictFind i key =>
    obtain ⟨entries, hentries, heq⟩ := Option.map_eq_some_iff.mp hask
    obtain ⟨rfl, rfl⟩ := Prod.mk.inj heq
    obtain ⟨v, n, -, hv, hn, hrep⟩ := h.exists_represents hentries
    obtain rfl : v = .dict entries := by cases v <;> simp_all [BNode.asDict]
    obtain ⟨c, hfind, hc⟩ := hrep.dictFind key
    exact ⟨_, by rw [BdecodeNode.perform, hn, Option.bind_some, hfind, Option.map_some], h.snoc hc⟩

end AllStand

end BdecodeNode

/-! ### The root -/

/-- What is read of a row of one item. -/
lemma Items.exists_value {h : Items} (hone : h.length = 1) : ∃ v, h.values = [v] :=
  List.length_eq_one_iff.mp ((Items.length_values h).trans hone)

/-- The node that `bdecode` returns stands for the item. -/
lemma views_bdecode {depthLimit tokenLimit : ℕ} {h : Items} {left : ByteString}
    (hlen : (h.bytes ++ left).length ≤ BdecodeToken.maxOffset)
    (hh : h.Readable depthLimit tokenLimit) :
    ((bdecode (h.bytes ++ left) depthLimit tokenLimit).node (h.bytes ++ left)).Views 0 0 h := by
  have hfits : 0 + h.bytes.length ≤ BdecodeToken.maxOffset := by
    rw [List.length_append] at hlen
    omega
  have hstop : h.bytes.length % 2 ^ 29 = 0 + h.bytes.length := by
    rw [BdecodeToken.maxOffset] at hfits
    rw [Nat.zero_add]
    exact Nat.mod_eq_of_lt (by omega)
  rw [bdecode_item hlen hh]
  refine ⟨?_, ⟨⟨_, [], rfl, rfl, hstop⟩, ⟨left, rfl⟩, hfits, hh.wellFormed⟩, ?_, ?_, ?_⟩
  · rw [BdecodeResult.node, if_neg]
    simp [Items.layout]
  · rintro rfl
    exact absurd hh.length_eq (by simp [Hedge.length])
  · intro k inner next _ item token hlast
    exact absurd hlast (by simp [BdecodeResult.node])
  · intro k inner next _ size hsize
    exact absurd hsize (by simp [BdecodeResult.node])

/-- The root stands for the tree when nothing has been asked yet. -/
lemma allStand_root {depthLimit tokenLimit : ℕ} {h : Items} {left : ByteString} {v : BNode}
    (hlen : (h.bytes ++ left).length ≤ BdecodeToken.maxOffset)
    (hh : h.Readable depthLimit tokenLimit) (hv : h.values = [v]) :
    BdecodeNode.AllStand
      [(bdecode (h.bytes ++ left) depthLimit tokenLimit).node (h.bytes ++ left)] [some v] :=
  List.Forall₂.cons ⟨0, 0, h, views_bdecode hlen hh, by rw [hv, List.head?_cons]⟩ .nil

/-- Whatever is asked of a buffer that `bdecode` accepted, in whatever order, the nodes answer what
the tree of the item in front of the buffer says. -/
theorem dialogue_bdecode {buffer : ByteString} {depthLimit tokenLimit : ℕ}
    (herror : (bdecode buffer depthLimit tokenLimit).error = none) :
    ∃ (h : Items) (left : ByteString) (v : BNode), buffer = h.bytes ++ left ∧
      h.Readable depthLimit tokenLimit ∧ h.values = [v] ∧
        ∀ (calls : List NodeCall) (answers : List NodeAnswer) (trees : List (Option BNode)),
          dialogue BNode.ask [some v] calls = some (answers, trees) →
            ∃ nodes, dialogue BdecodeNode.perform
                [(bdecode buffer depthLimit tokenLimit).node buffer] calls =
              some (answers, nodes) := by
  obtain ⟨hlen, h, left, rfl, hh⟩ := exists_item_of_bdecode herror
  obtain ⟨v, hv⟩ := Items.exists_value hh.length_eq
  refine ⟨h, left, v, rfl, hh, hv, fun calls answers trees hask => ?_⟩
  obtain ⟨nodes, hnodes, -⟩ :=
    dialogue_simulates (fun _ _ _ _ _ hstand => hstand.perform) (allStand_root hlen hh hv) hask
  exact ⟨nodes, hnodes⟩

/-- The buffer `d1:ali1ei2ee1:b2:xyei`, with a byte behind the dictionary. -/
def sampleBuffer : ByteString :=
  ascii ['d', '1', ':', 'a', 'l', 'i', '1', 'e', 'i', '2', 'e', 'e', '1', ':', 'b', '2', ':', 'x',
    'y', 'e', 'i']

/-- `bdecode` accepts that buffer. -/
lemma bdecode_sampleBuffer : (bdecode sampleBuffer 100 2000000).error = none := by
  decide +kernel

/-- The nodes of that buffer answer what its tree says. -/
theorem dialogue_bdecode_sample :
    ∃ (h : Items) (left : ByteString) (v : BNode), sampleBuffer = h.bytes ++ left ∧
      h.Readable 100 2000000 ∧ h.values = [v] ∧
        ∀ (calls : List NodeCall) (answers : List NodeAnswer) (trees : List (Option BNode)),
          dialogue BNode.ask [some v] calls = some (answers, trees) →
            ∃ nodes, dialogue BdecodeNode.perform
                [(bdecode sampleBuffer 100 2000000).node sampleBuffer] calls =
              some (answers, nodes) :=
  dialogue_bdecode bdecode_sampleBuffer

/-- Looking up the second item of the list before the first leaves both where they are. -/
example : ((dialogue BdecodeNode.perform
    [(bdecode sampleBuffer 100 2000000).node sampleBuffer]
      [.dictFind 0 [97], .listAt 1 1, .listAt 1 0, .listSize 1, .intValue 2, .intValue 3]).map
        Prod.fst) =
      some [.node, .node, .node, .number 2, .integer 2, .integer 1] := by
  decide +kernel

/-- The section of every node that is found is by itself an item, and stands for the same tree. -/
theorem dataSection_of_dialogue {buffer : ByteString} {depthLimit tokenLimit : ℕ}
    (herror : (bdecode buffer depthLimit tokenLimit).error = none) :
    ∃ (h : Items) (left : ByteString) (v : BNode), buffer = h.bytes ++ left ∧
      h.Readable depthLimit tokenLimit ∧ h.values = [v] ∧
        ∀ (calls : List NodeCall) (answers : List NodeAnswer) (trees : List (Option BNode)) (i : ℕ)
          (w : BNode), dialogue BNode.ask [some v] calls = some (answers, trees) →
            trees[i]? = some (some w) →
              ∃ nodes n part, dialogue BdecodeNode.perform
                  [(bdecode buffer depthLimit tokenLimit).node buffer] calls =
                    some (answers, nodes) ∧ nodes[i]? = some n ∧
                  n.dataSection = some (Items.bytes part) ∧ part.length = 1 ∧
                    Items.WellFormed part ∧ Items.values part = [w] := by
  obtain ⟨hlen, h, left, rfl, hh⟩ := exists_item_of_bdecode herror
  obtain ⟨v, hv⟩ := Items.exists_value hh.length_eq
  refine ⟨h, left, v, rfl, hh, hv, fun calls answers trees i w hask hw => ?_⟩
  obtain ⟨nodes, hnodes, hstand⟩ :=
    dialogue_simulates (fun _ _ _ _ _ hstand => hstand.perform) (allStand_root hlen hh hv) hask
  obtain ⟨n, hn, j, offset, r, hviews, hhead⟩ := hstand.exists_node hw
  obtain ⟨item, hone, hwell, hvalue, hsection⟩ := hviews.dataSection
  refine ⟨nodes, n, item, hnodes, hn, hsection, hone, hwell, ?_⟩
  obtain ⟨w', hw'⟩ := Items.exists_value hone
  rw [hw', List.head?_cons, hhead] at hvalue
  rw [hw', Option.some.inj hvalue]

/-- The sections of that buffer. -/
theorem dataSection_of_dialogue_sample :
    ∃ (h : Items) (left : ByteString) (v : BNode), sampleBuffer = h.bytes ++ left ∧
      h.Readable 100 2000000 ∧ h.values = [v] ∧
        ∀ (calls : List NodeCall) (answers : List NodeAnswer) (trees : List (Option BNode)) (i : ℕ)
          (w : BNode), dialogue BNode.ask [some v] calls = some (answers, trees) →
            trees[i]? = some (some w) →
              ∃ nodes n part, dialogue BdecodeNode.perform
                  [(bdecode sampleBuffer 100 2000000).node sampleBuffer] calls =
                    some (answers, nodes) ∧ nodes[i]? = some n ∧
                  n.dataSection = some (Items.bytes part) ∧ part.length = 1 ∧
                    Items.WellFormed part ∧ Items.values part = [w] :=
  dataSection_of_dialogue bdecode_sampleBuffer

end Tent
