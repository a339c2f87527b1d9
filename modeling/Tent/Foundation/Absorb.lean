import Mathlib.Data.List.Basic
import Mathlib.Data.List.TakeDrop

/-!
# Absorbing a list in blocks

A hash function compresses its input block by block into a chaining value.  `blocks n xs` are the
whole blocks of `n` elements in front of a list, `rest n xs` is what is behind them, and
`absorb compress n s xs` compresses the blocks one after the other, beginning with `s`.

A list that comes in two parts is absorbed part by part, as long as the rest of the first part is
put in front of the second (`absorb_append`, `rest_append`).  This is what lets a function that
buffers less than a block take its input in parts of any length.
-/

set_option autoImplicit false

namespace Absorb

variable {α σ : Type*}

/-- The whole blocks of `n` elements in front of a list. -/
def blocks (n : ℕ) (xs : List α) : List (List α) :=
  (List.range (xs.length / n)).map fun i => (xs.drop (n * i)).take n

/-- What is behind the whole blocks. -/
def rest (n : ℕ) (xs : List α) : List α := xs.drop (n * (xs.length / n))

/-- Compress the whole blocks of a list. -/
def absorb (compress : σ → List α → σ) (n : ℕ) (s : σ) (xs : List α) : σ :=
  (blocks n xs).foldl compress s

variable {compress : σ → List α → σ} {n : ℕ} {s : σ} {block xs ys : List α}

/-- The rest is shorter than a block. -/
@[simp] lemma length_rest : (rest n xs).length = xs.length % n := by
  rw [rest, List.length_drop, Nat.mod_eq_sub]

/-! ### One block at a time -/

/-- There are no blocks in a short list. -/
lemma rest_of_lt (h : xs.length < n) : rest n xs = xs := by
  rw [rest, Nat.div_eq_of_lt h, Nat.mul_zero, List.drop_zero]

/-- Nothing of a short list is absorbed. -/
lemma absorb_of_lt (h : xs.length < n) : absorb compress n s xs = s := by
  rw [absorb, blocks, Nat.div_eq_of_lt h]
  rfl

/-- A block in front adds one to the number of blocks. -/
lemma length_block_append (hn : 0 < n) (hblock : block.length = n) :
    (block ++ xs).length / n = xs.length / n + 1 := by
  rw [List.length_append, hblock, Nat.add_div_left _ hn]

/-- A block in front is not part of the rest. -/
lemma rest_block_append (hn : 0 < n) (hblock : block.length = n) :
    rest n (block ++ xs) = rest n xs := by
  rw [rest, length_block_append hn hblock, Nat.mul_add, Nat.mul_one, Nat.add_comm, ← List.drop_drop,
    List.drop_left' hblock, rest]

/-- A block in front is the first that is compressed. -/
lemma absorb_block_append (hn : 0 < n) (hblock : block.length = n) :
    absorb compress n s (block ++ xs) = absorb compress n (compress s block) xs := by
  have hblocks : blocks n (block ++ xs) = block :: blocks n xs := by
    rw [blocks, length_block_append hn hblock, List.range_succ_eq_map, List.map_cons, Nat.mul_zero,
      List.drop_zero, List.take_left' hblock, List.map_map, blocks]
    congr 1
    refine List.map_congr_left fun i _ => ?_
    rw [Function.comp_apply, Nat.mul_succ, Nat.add_comm, ← List.drop_drop, List.drop_left' hblock]
  rw [absorb, hblocks, List.foldl_cons, absorb]

/-! ### Parts -/

/-- A long list begins with a block. -/
lemma take_block (h : n ≤ xs.length) : (xs.take n).length = n := by
  rw [List.length_take, Nat.min_eq_left h]

/-- Both halves of absorbing a list in two parts. -/
lemma append_aux (hn : 0 < n) :
    absorb compress n s (xs ++ ys) =
        absorb compress n (absorb compress n s xs) (rest n xs ++ ys) ∧
      rest n (xs ++ ys) = rest n (rest n xs ++ ys) := by
  induction hlen : xs.length using Nat.strongRecOn generalizing s xs with
  | _ len ih =>
    by_cases hshort : xs.length < n
    · rw [rest_of_lt hshort, absorb_of_lt hshort]
      exact ⟨rfl, rfl⟩
    · -- the first block comes off, and the remaining list is shorter
      have hblock := take_block (Nat.not_lt.mp hshort)
      obtain ⟨habsorb, hrest⟩ := @ih (xs.drop n).length
        (by rw [List.length_drop]; omega) (compress s (xs.take n)) (xs.drop n) rfl
      rw [← List.take_append_drop n xs, List.append_assoc, absorb_block_append hn hblock,
        absorb_block_append hn hblock, rest_block_append hn hblock, rest_block_append hn hblock]
      exact ⟨habsorb, hrest⟩

/-- A list is absorbed part by part, with the rest of the first part in front of the second. -/
lemma absorb_append (hn : 0 < n) :
    absorb compress n s (xs ++ ys) =
      absorb compress n (absorb compress n s xs) (rest n xs ++ ys) :=
  (append_aux hn).1

/-- The rest of two parts is that of the second behind the rest of the first. -/
lemma rest_append (hn : 0 < n) : rest n (xs ++ ys) = rest n (rest n xs ++ ys) :=
  (@append_aux _ ℕ (fun c _ => c) n 0 xs ys hn).2

end Absorb
