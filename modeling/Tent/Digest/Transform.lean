import Mathlib.Tactic.IntervalCases
import Tent.Digest.Sha1

/-!
# One block

`SHA1transform` is the compression of the standard (`sha1Transform_eq_compress`), in either byte
order.

Before round `i` the sixteen words of the block hold the words of the schedule from `i - 16` on, and
those from `i` on that are still as they were copied (`Expanded`).  The working variables are those
of the standard under the names that round `i` has for them (`renamed`).
-/

set_option autoImplicit false

namespace Tent

open Bytes SecureHash

/-- `rol` rotates. -/
lemma rol_eq {bits : ℕ} (h : bits < 32) (x : Word) : rol x bits = x.rotateLeft bits := by
  rw [rol, BitVec.rotateLeft_def, Nat.mod_eq_of_lt h]

/-! ### The functions of a round -/

/-- The function of the first rounds, with one operation less than in the standard. -/
lemma choose_eq (w x y : Word) : w &&& (x ^^^ y) ^^^ y = w &&& x ||| ~~~w &&& y := by
  apply BitVec.eq_of_getLsbD_eq
  intro i hi
  simp only [BitVec.getLsbD_xor, BitVec.getLsbD_and, BitVec.getLsbD_or, BitVec.getLsbD_not, hi]
  cases w.getLsbD i <;> cases x.getLsbD i <;> cases y.getLsbD i <;> rfl

/-- The function of the third rounds, with one operation less than in the standard. -/
lemma majority_eq (w x y : Word) :
    (w ||| x) &&& y ||| w &&& x = w &&& x ||| w &&& y ||| x &&& y := by
  apply BitVec.eq_of_getLsbD_eq
  intro i _
  simp only [BitVec.getLsbD_and, BitVec.getLsbD_or]
  cases w.getLsbD i <;> cases x.getLsbD i <;> cases y.getLsbD i <;> rfl

/-! ### The words of a block -/

/-- The bits of a word are those of its bytes. -/
lemma getLsbD_word (b₀ b₁ b₂ b₃ : UInt8) (i : ℕ) :
    (word b₀ b₁ b₂ b₃).getLsbD i =
      if i < 8 then b₃.toBitVec.getLsbD i else if i < 16 then b₂.toBitVec.getLsbD (i - 8)
      else if i < 24 then b₁.toBitVec.getLsbD (i - 16) else b₀.toBitVec.getLsbD (i - 24) := by
  have h₁ : i - 8 < 8 ↔ i < 16 := by omega
  have h₂ : i - 8 - 8 < 8 ↔ i < 24 := by omega
  rw [word, BitVec.getLsbD_append, BitVec.getLsbD_append, BitVec.getLsbD_append]
  simp only [h₁, h₂]
  rfl

/-- Rotating and masking a word twice turns its bytes round. -/
lemma swap_word (b₀ b₁ b₂ b₃ : UInt8) :
    rol (word b₃ b₂ b₁ b₀) 24 &&& 0xFF00FF00 ||| rol (word b₃ b₂ b₁ b₀) 8 &&& 0x00FF00FF =
      word b₀ b₁ b₂ b₃ := by
  rw [rol_eq (by decide), rol_eq (by decide)]
  apply BitVec.eq_of_getLsbD_eq
  intro i hi
  rw [BitVec.getLsbD_or, BitVec.getLsbD_and, BitVec.getLsbD_and, BitVec.getLsbD_rotateLeft,
    BitVec.getLsbD_rotateLeft]
  interval_cases i <;> simp [getLsbD_word, -BitVec.getLsbD_eq_getElem]

/-- There are as many words in memory as in the standard. -/
lemma length_load (endian : Endian) (bs : ByteString) :
    (endian.load bs).length = (words bs).length := by
  induction bs using words.induct with
  | case1 b₀ b₁ b₂ b₃ bs ih => rw [Endian.load, words, List.length_cons, List.length_cons, ih]
  | case2 bs hbs => rw [Endian.load.eq_2 _ _ hbs, words.eq_2 _ hbs]

/-- `BlkFun::apply` finds a word of the standard, and leaves it in the block. -/
lemma blk0_eq (endian : Endian) {bs : ByteString} {block : List Word} {i : ℕ}
    (hi : i < block.length) (hload : block.getD i 0 = (endian.load bs).getD i 0) :
    endian.blk0 block i = (block.set i ((words bs).getD i 0), (words bs).getD i 0) := by
  cases endian with
  | little =>
    have hswap : ∀ (bs : ByteString) (i : ℕ), rol ((Endian.little.load bs).getD i 0) 24 &&&
        0xFF00FF00 ||| rol ((Endian.little.load bs).getD i 0) 8 &&& 0x00FF00FF =
          (words bs).getD i 0 := by
      intro bs
      induction bs using words.induct with
      | case1 b₀ b₁ b₂ b₃ bs ih =>
        rintro (_ | i)
        · exact swap_word b₀ b₁ b₂ b₃
        · exact ih i
      | case2 bs hbs =>
        intro i
        rw [Endian.load.eq_2 _ _ hbs, words.eq_2 _ hbs, List.getD_nil]
        decide
    rw [Endian.blk0, littleEndianBlk0, hload, hswap]
  | big =>
    have hsame : ∀ bs : ByteString, Endian.big.load bs = words bs := by
      intro bs
      induction bs using words.induct with
      | case1 b₀ b₁ b₂ b₃ bs ih =>
        rw [Endian.load, words, ih]
        rfl
      | case2 bs hbs => rw [Endian.load.eq_2 _ _ hbs, words.eq_2 _ hbs]
    rw [hsame] at hload
    rw [Endian.blk0, bigEndianBlk0, ← hload, List.getD_eq_getElem _ _ hi, List.set_getElem_self]

/-- A word of a block after another was assigned. -/
lemma getD_set {block : List Word} {i j : ℕ} (hi : i < block.length) (x : Word) :
    (block.set i x).getD j 0 = if i = j then x else block.getD j 0 := by
  rw [List.getD_eq_getElem?_getD, List.getElem?_set]
  split_ifs with hj
  · rfl
  · rw [List.getD_eq_getElem?_getD]

/-- The block before round `i`. -/
structure Expanded (endian : Endian) (bs : ByteString) (i : ℕ) (block : List Word) : Prop where
  /-- There are sixteen words. -/
  length_eq : block.length = 16
  /-- The last words of the schedule are there. -/
  done : ∀ t < i, i ≤ t + 16 → block.getD (t % 16) 0 = (schedule bs).getD t 0
  /-- Words that no round has seen are as they were copied. -/
  todo : ∀ t < 16, i ≤ t → block.getD t 0 = (endian.load bs).getD t 0

section Expand

variable {endian : Endian} {bs : ByteString} {i : ℕ} {block : List Word}

/-- The words that were copied. -/
lemma expanded_zero (hbs : bs.length = 64) : Expanded endian bs 0 (endian.load bs) where
  length_eq := (length_load endian bs).trans (length_words hbs)
  done _ ht := absurd ht (Nat.not_lt_zero _)
  todo _ _ _ := rfl

/-- A round puts its word of the schedule where the oldest one was. -/
lemma Expanded.set (h : Expanded endian bs i block) :
    Expanded endian bs (i + 1) (block.set (i % 16) ((schedule bs).getD i 0)) := by
  have hlt : i % 16 < block.length := by
    rw [h.length_eq]
    exact Nat.mod_lt i (by decide)
  refine ⟨by rw [List.length_set, h.length_eq], fun t ht hback => ?_, fun t ht hi => ?_⟩
  · rw [getD_set hlt]
    split_ifs with hsame
    · obtain rfl : i = t := by omega
      rfl
    · exact h.done t (by omega) (by omega)
  · rw [getD_set hlt, if_neg (by omega)]
    exact h.todo t ht (by omega)

/-- The first sixteen rounds. -/
lemma Expanded.blk0 (h : Expanded endian bs i block) (hbs : bs.length = 64) (hi : i < 16) :
    endian.blk0 block i =
      (block.set (i % 16) ((schedule bs).getD i 0), (schedule bs).getD i 0) := by
  have hword : (schedule bs).getD i 0 = (words bs).getD i 0 :=
    getD_expand_of_lt (by rwa [length_words hbs])
  rw [hword, Nat.mod_eq_of_lt hi]
  exact blk0_eq endian (by rwa [h.length_eq]) (h.todo i hi (Nat.le_refl i))

/-- The other rounds. -/
lemma Expanded.blk (h : Expanded endian bs i block) (hbs : bs.length = 64) (hi : 16 ≤ i)
    (hlast : i < 80) :
    blk block i = (block.set (i % 16) ((schedule bs).getD i 0), (schedule bs).getD i 0) := by
  have hand : ∀ n, n &&& 15 = n % 16 := fun n => Nat.and_two_pow_sub_one_eq_mod n 4
  have hback : ∀ k, 0 < k → k ≤ 16 →
      block.getD ((i + (16 - k)) % 16) 0 = (schedule bs).getD (i - k) 0 := by
    intro k hpos hk
    rw [← h.done (i - k) (by omega) (by omega), show (i + (16 - k)) % 16 = (i - k) % 16 by omega]
  have hword : (schedule bs).getD i 0 = ((schedule bs).getD (i - 3) 0 ^^^
      (schedule bs).getD (i - 8) 0 ^^^ (schedule bs).getD (i - 14) 0 ^^^
        (schedule bs).getD (i - 16) 0).rotateLeft 1 := by
    have hlength := length_words hbs
    exact getD_expand_of_le (by omega) (by omega) (by omega)
  have holdest : block.getD (i % 16) 0 = (schedule bs).getD (i - 16) 0 :=
    hback 16 (by decide) (by decide)
  rw [Tent.blk, rol_eq (by decide), hand, hand, hand, hand, hback 3 (by decide) (by decide),
    hback 8 (by decide) (by decide), hback 14 (by decide) (by decide), holdest, ← hword]

end Expand

/-! ### The working variables -/

/-- The names of the working variables, again and again. -/
def varAt (k : ℕ) : Var :=
  match k % 5 with
  | 0 => .a
  | 1 => .b
  | 2 => .c
  | 3 => .d
  | _ => .e

/-- The working variables under the names that round `i` has for them. -/
def renamed (i : ℕ) (vars : Chain) : Chain where
  a := (varAt (4 * i)).get vars
  b := (varAt (4 * i + 1)).get vars
  c := (varAt (4 * i + 2)).get vars
  d := (varAt (4 * i + 3)).get vars
  e := (varAt (4 * i + 4)).get vars

/-- A round under the names that round `i` has for the variables. -/
def roundAt (mix : Word → Word → Word → Word) (fetch : List Word → ℕ → List Word × Word)
    (constant : Word) (i : ℕ) : Workspace → Workspace :=
  mixRound mix fetch constant (varAt (4 * i)) (varAt (4 * i + 1)) (varAt (4 * i + 2))
    (varAt (4 * i + 3)) (varAt (4 * i + 4)) i

section Rounds

variable {mix : Word → Word → Word → Word} {fetch : List Word → ℕ → List Word × Word}
  {constant x : Word} {i : ℕ} {s : Workspace} {block : List Word}

/-- What a round does to the block. -/
lemma block_roundAt (hfetch : fetch s.block i = (block, x)) :
    (roundAt mix fetch constant i s).block = block := by
  rw [roundAt, mixRound, hfetch]

/-- A round of the code is one of the standard, if its mix is, under the names of the next one. -/
lemma renamed_roundAt (hmix : ∀ b c d, mix b c d = f i b c d)
    (hfetch : fetch s.block i = (block, x)) :
    renamed (i + 1) (roundAt mix fetch (K i) i s).vars =
      SecureHash.round (renamed i s.vars) i x := by
  have hvar : ∀ j, varAt (4 * i + j) = varAt (4 * (i % 5) + j) := by
    intro j
    rw [varAt, varAt, show (4 * i + j) % 5 = (4 * (i % 5) + j) % 5 by omega]
  have hfirst : varAt (4 * i) = varAt (4 * (i % 5)) := hvar 0
  have hnext : ∀ j, varAt (4 * (i + 1) + j) = varAt (4 * (i % 5) + (4 + j)) := by
    intro j
    rw [Nat.mul_succ, Nat.add_assoc, hvar]
  have hnextFirst : varAt (4 * (i + 1)) = varAt (4 * (i % 5) + 4) := hnext 0
  have hsum : ∀ a b c d e : Word, e + (f i b c d + x + K i + rol a 5) =
      a.rotateLeft 5 + f i b c d + e + x + K i := by
    intro a b c d e
    rw [rol_eq (by decide)]
    ac_rfl
  rw [roundAt, mixRound, hfetch, renamed, renamed, SecureHash.round]
  simp only [hvar, hfirst, hnext, hnextFirst, hmix]
  have hlt : i % 5 < 5 := Nat.mod_lt i (by decide)
  -- the five names a round can begin with
  generalize i % 5 = k at hlt
  interval_cases k <;>
    simp only [varAt, Nat.reduceMul, Nat.reduceAdd, Nat.reduceMod, Var.get, Var.set, hsum,
      rol_eq (show 30 < 32 by decide)]

end Rounds

/-! ### All rounds -/

/-- The mix of round `i`. -/
def mixOf (i : ℕ) (w x y : Word) : Word :=
  if i < 20 then w &&& (x ^^^ y) ^^^ y
  else if i < 40 then w ^^^ x ^^^ y
  else if i < 60 then (w ||| x) &&& y ||| w &&& x
  else w ^^^ x ^^^ y

/-- Where round `i` takes its word from. -/
def fetchOf (endian : Endian) (i : ℕ) : List Word → ℕ → List Word × Word :=
  if i < 16 then endian.blk0 else blk

/-- The rounds, and the names that are written in them. -/
lemma rounds_eq (endian : Endian) :
    rounds endian =
      (List.range 80).map fun i => roundAt (mixOf i) (fetchOf endian i) (K i) i :=
  rfl

/-- The mixes are the functions of the standard. -/
lemma mixOf_eq (i : ℕ) (b c d : Word) : mixOf i b c d = f i b c d := by
  rw [mixOf, f, choose_eq, majority_eq]

/-- The word of a round is that of the schedule. -/
lemma Expanded.fetch {endian : Endian} {bs : ByteString} {i : ℕ} {block : List Word}
    (h : Expanded endian bs i block) (hbs : bs.length = 64) (hi : i < 80) :
    fetchOf endian i block i =
      (block.set (i % 16) ((schedule bs).getD i 0), (schedule bs).getD i 0) := by
  unfold fetchOf
  split_ifs with hfirst
  · exact h.blk0 hbs hfirst
  · exact h.blk hbs (not_lt.mp hfirst) hi

/-- The rounds of the code are those of the standard. -/
lemma rounds_simulate (endian : Endian) (state : Chain) {bs : ByteString} (hbs : bs.length = 64)
    {n : ℕ} (hn : n ≤ 80) :
    ∃ s : Workspace,
      (List.range n).foldl (fun s i => roundAt (mixOf i) (fetchOf endian i) (K i) i s)
        ⟨state, endian.load bs⟩ = s ∧
      Expanded endian bs n s.block ∧
      renamed n s.vars =
        (List.range n).foldl (fun r t => SecureHash.round r t ((schedule bs).getD t 0)) state := by
  induction n with
  | zero => exact ⟨_, rfl, expanded_zero hbs, rfl⟩
  | succ n ih =>
    obtain ⟨s, hs, hblock, hvars⟩ := ih (by omega)
    have hfetch := hblock.fetch hbs (by omega)
    refine ⟨_, rfl, ?_, ?_⟩
    · rw [List.range_succ, List.foldl_append, hs]
      exact (block_roundAt hfetch).symm ▸ hblock.set
    · rw [List.range_succ, List.foldl_append, List.foldl_append, hs, ← hvars]
      exact renamed_roundAt (mixOf_eq n) hfetch

/-- `SHA1transform` compresses a block as the standard says. -/
lemma sha1Transform_eq_compress (endian : Endian) (state : Chain) {bs : ByteString}
    (hbs : bs.length = 64) : sha1Transform endian state bs = compress state bs := by
  obtain ⟨s, hs, -, hvars⟩ := rounds_simulate endian state hbs (Nat.le_refl 80)
  -- eighty rounds turn the names round sixteen times
  have hnames : renamed 80 s.vars = s.vars := rfl
  rw [sha1Transform, rounds_eq, List.foldl_map, hs, compress, ← hvars, hnames]

end Tent
