import Mathlib.Data.List.Basic
import Mathlib.Order.Lattice

/-!
# Rows of trees

A hedge is a row of trees whose leaves and inner nodes carry labels.  It is written down from left
to right, an inner node between something for its label and an end mark; a spelling says what is
written for each of them, and `word` is the result.

A cursor is a place in a hedge that is still being written: the row at hand, and for every node that
is still open, from the inside out, its label and the row in front of it.  What can be written next
is a leaf (`put`), the beginning of a node (`enter`) or the end of one (`leave`).
-/

set_option autoImplicit false

/-- A row of trees: `next` is the rest of the row, `inner` the children of its first tree. -/
inductive Hedge (α κ : Type*) where
  | nil
  | leaf (a : α) (next : Hedge α κ)
  | node (k : κ) (inner next : Hedge α κ)
  deriving DecidableEq

/-- What is written for a leaf, for the beginning of a node and for its end. -/
structure Spelling (α κ β : Type*) where
  /-- What is written for a leaf. -/
  leaf : α → List β
  /-- What is written where a node begins. -/
  enter : κ → List β
  /-- What is written where a node ends. -/
  leave : List β

namespace Hedge

variable {α κ β : Type*}

/-- One row after another. -/
def append : Hedge α κ → Hedge α κ → Hedge α κ
  | nil, h => h
  | leaf a next, h => leaf a (next.append h)
  | node k inner next, h => node k inner (next.append h)

/-- The number of trees in the row. -/
def length : Hedge α κ → ℕ
  | nil => 0
  | leaf _ next => next.length + 1
  | node _ _ next => next.length + 1

/-- How many nodes are around the innermost place of the row. -/
def depth : Hedge α κ → ℕ
  | nil => 0
  | leaf _ next => next.depth
  | node _ inner next => max (inner.depth + 1) next.depth

/-- The number of marks that it takes to write the row down, the end marks included. -/
def size : Hedge α κ → ℕ
  | nil => 0
  | leaf _ next => next.size + 1
  | node _ inner next => inner.size + next.size + 2

/-- The row written down. -/
def word (S : Spelling α κ β) : Hedge α κ → List β
  | nil => []
  | leaf a next => S.leaf a ++ next.word S
  | node k inner next => S.enter k ++ (inner.word S ++ (S.leave ++ next.word S))

/-- The row without its first tree. -/
def tail : Hedge α κ → Hedge α κ
  | nil => nil
  | leaf _ next => next
  | node _ _ next => next

/-- The row without its first `n` trees. -/
def drop : ℕ → Hedge α κ → Hedge α κ
  | 0, h => h
  | n + 1, h => drop n h.tail

/-- Nothing follows. -/
@[simp] lemma append_nil (h : Hedge α κ) : h.append nil = h := by
  induction h with
  | nil => rfl
  | leaf a next ih => rw [append, ih]
  | node k inner next _ ih => rw [append, ih]

/-- Rows are appended in any grouping. -/
lemma append_assoc (g h i : Hedge α κ) : (g.append h).append i = g.append (h.append i) := by
  induction g with
  | nil => rfl
  | leaf a next ih => rw [append, append, append, ih]
  | node k inner next _ ih => rw [append, append, append, ih]

/-- Trees are counted together. -/
@[simp] lemma length_append (g h : Hedge α κ) : (g.append h).length = g.length + h.length := by
  induction g with
  | nil => simp [append, length]
  | leaf a next ih => rw [append, length, length, ih]; omega
  | node k inner next _ ih => rw [append, length, length, ih]; omega

/-- Marks are counted together. -/
@[simp] lemma size_append (g h : Hedge α κ) : (g.append h).size = g.size + h.size := by
  induction g with
  | nil => simp [append, size]
  | leaf a next ih => rw [append, size, size, ih]; omega
  | node k inner next _ ih => rw [append, size, size, ih]; omega

/-- A row is as deep as the deeper of its parts. -/
@[simp] lemma depth_append (g h : Hedge α κ) : (g.append h).depth = max g.depth h.depth := by
  induction g with
  | nil => simp [append, depth]
  | leaf a next ih => rw [append, depth, depth, ih]
  | node k inner next _ ih => rw [append, depth, depth, ih, max_assoc]

/-- A row is written down part by part. -/
@[simp] lemma word_append (S : Spelling α κ β) (g h : Hedge α κ) :
    (g.append h).word S = g.word S ++ h.word S := by
  induction g with
  | nil => rfl
  | leaf a next ih => rw [append, word, word, ih, List.append_assoc]
  | node k inner next _ ih => simp only [append, word, ih, List.append_assoc]

/-- The first tree is not counted any more. -/
@[simp] lemma length_tail (h : Hedge α κ) : h.tail.length = h.length - 1 := by
  cases h <;> rfl

/-- The first trees are not counted any more. -/
@[simp] lemma length_drop (n : ℕ) (h : Hedge α κ) : (h.drop n).length = h.length - n := by
  induction n generalizing h with
  | zero => rfl
  | succ n ih => rw [drop, ih, length_tail]; omega

/-- Trees are dropped in any grouping. -/
lemma drop_drop (m n : ℕ) (h : Hedge α κ) : (h.drop m).drop n = h.drop (m + n) := by
  induction m generalizing h with
  | zero => rw [drop, Nat.zero_add]
  | succ m ih => rw [drop, ih, Nat.succ_add, drop]

/-- A row is not deeper without its first tree. -/
lemma depth_tail_le (h : Hedge α κ) : h.tail.depth ≤ h.depth := by
  cases h with
  | nil => exact le_rfl
  | leaf a next => exact le_rfl
  | node k inner next => exact le_max_right _ _

/-- A row is not deeper without its first trees. -/
lemma depth_drop_le (n : ℕ) (h : Hedge α κ) : (h.drop n).depth ≤ h.depth := by
  induction n generalizing h with
  | zero => exact le_rfl
  | succ n ih => exact (ih h.tail).trans (depth_tail_le h)

/-- There are at most as many trees as marks. -/
lemma length_le_size (h : Hedge α κ) : h.length ≤ h.size := by
  induction h with
  | nil => exact le_rfl
  | leaf a next ih => rw [length, size]; omega
  | node k inner next _ ih => rw [length, size]; omega

/-- A row without trees is empty. -/
lemma length_eq_zero {h : Hedge α κ} : h.length = 0 ↔ h = nil := by
  cases h <;> simp [length]

end Hedge

/-- A place in a row of trees that is still being written. -/
structure Cursor (α κ : Type*) where
  /-- The row at hand. -/
  top : Hedge α κ
  /-- The open nodes from the inside out: the label and the row in front. -/
  frames : List (κ × Hedge α κ)

namespace Cursor

variable {α κ β : Type*}

/-- Writes a whole row. -/
def put (c : Cursor α κ) (h : Hedge α κ) : Cursor α κ := ⟨c.top.append h, c.frames⟩

/-- Writes the beginning of a node. -/
def enter (c : Cursor α κ) (k : κ) : Cursor α κ := ⟨.nil, (k, c.top) :: c.frames⟩

/-- Writing in the row at hand leaves the open nodes as they are. -/
@[simp] lemma frames_put (c : Cursor α κ) (h : Hedge α κ) : (c.put h).frames = c.frames := rfl

/-- A node that begins is open. -/
@[simp] lemma frames_enter (c : Cursor α κ) (k : κ) :
    (c.enter k).frames = (k, c.top) :: c.frames := rfl

/-- Rows are written one after another. -/
@[simp] lemma put_put (c : Cursor α κ) (g h : Hedge α κ) :
    (c.put g).put h = c.put (g.append h) := by
  rw [put, put, put, Hedge.append_assoc]

/-- The row on the outside. -/
def root (top : Hedge α κ) : List (κ × Hedge α κ) → Hedge α κ
  | [] => top
  | (_, before) :: frames => root before frames

/-- What was written before the row at hand. -/
def framesWord (S : Spelling α κ β) : List (κ × Hedge α κ) → List β
  | [] => []
  | (k, before) :: frames => framesWord S frames ++ (before.word S ++ S.enter k)

/-- What was written. -/
def word (S : Spelling α κ β) (c : Cursor α κ) : List β := framesWord S c.frames ++ c.top.word S

variable (S : Spelling α κ β)

/-- A row is written behind what was written. -/
lemma word_put (c : Cursor α κ) (h : Hedge α κ) : (c.put h).word S = c.word S ++ h.word S := by
  rw [word, word, put, Hedge.word_append, List.append_assoc]

/-- A node begins behind what was written. -/
lemma word_enter (c : Cursor α κ) (k : κ) : (c.enter k).word S = c.word S ++ S.enter k := by
  simp only [word, enter, framesWord, Hedge.word, List.append_nil, List.append_assoc]

/-- A node ends behind what was written. -/
lemma word_leave (k : κ) (top before : Hedge α κ) (frames : List (κ × Hedge α κ)) :
    word S ⟨before.append (.node k top .nil), frames⟩ =
      word S ⟨top, (k, before) :: frames⟩ ++ S.leave := by
  simp only [word, framesWord, Hedge.word_append, Hedge.word, List.append_nil, List.append_assoc]

end Cursor
