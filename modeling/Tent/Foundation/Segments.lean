import Mathlib.Algebra.BigOperators.Group.List.Basic
import Mathlib.Algebra.GroupWithZero.Nat
import Mathlib.Data.List.TakeDrop

/-!
# Consecutive segments

A list of lengths describes consecutive segments of one long line: segment `j` occupies the
positions `[start sizes j, start sizes j + sizes[j])`.  This file cuts an interval of the line into
slices of segments (`cut`) and deals a string out along the slices (`paint`).

A line with something written on it is a function of the position, and `stretch` reads an interval
of it.  `Tiles` says that intervals follow each other from one position to another one, and
`Tiles.flatMap_stretch` puts what is read along them together again.

`paint_cut` is the specification: dealing a string out along the cut of an interval puts the byte
of every position of the interval at the place of that position, and touches nothing else.
Segments of length zero take part in the count but never receive a slice.
-/

set_option autoImplicit false

namespace Segments

/-- A slice of a segment: `length` positions from `offset` on. -/
structure Slice where
  /-- The segment the slice lies in. -/
  segment : ℕ
  /-- The first position, counted from the start of the segment. -/
  offset : ℕ
  /-- The number of positions. -/
  length : ℕ
deriving DecidableEq, Repr

/-- The position of the first byte of segment `j`. -/
def start (sizes : List ℕ) (j : ℕ) : ℕ :=
  (sizes.take j).sum

/-- Cut `n` positions out of the segments `sizes`, numbered from `i` on, starting `off` positions
into the first one. -/
def cut : List ℕ → ℕ → ℕ → ℕ → List Slice
  | [], _, _, _ => []
  | s :: ss, i, off, n =>
      if n = 0 then []
      else if off < s then
        ⟨i, off, min (s - off) n⟩ ::
          cut ss (i + 1) (off + min (s - off) n - s) (n - min (s - off) n)
      else cut ss (i + 1) (off - s) n

/-- The first segment starts at zero. -/
@[simp] lemma start_zero (sizes : List ℕ) : start sizes 0 = 0 := rfl

/-- Dropping the first segment shifts every start by its length. -/
@[simp] lemma start_cons_succ (s : ℕ) (ss : List ℕ) (j : ℕ) :
    start (s :: ss) (j + 1) = s + start ss j := by
  simp [start]

/-- A segment ends where the next one starts. -/
lemma start_succ {sizes : List ℕ} {j : ℕ} (h : j < sizes.length) :
    start sizes (j + 1) = start sizes j + sizes[j] := by
  simp only [start, List.take_add_one, List.getElem?_eq_getElem h, Option.toList_some,
    List.sum_append, List.sum_singleton]

/-- Later segments start later. -/
lemma start_mono (sizes : List ℕ) {j k : ℕ} (hjk : j ≤ k) : start sizes j ≤ start sizes k := by
  have hk : sizes.take k = sizes.take j ++ (sizes.drop j).take (k - j) := by
    rw [← List.take_add, Nat.add_sub_cancel' hjk]
  simp [start, hk]

/-- Starts behind a dropped head are starts relative to it. -/
lemma start_drop (sizes : List ℕ) (i j : ℕ) :
    start sizes i + start (sizes.drop i) j = start sizes (i + j) := by
  simp [start, List.take_add]

/-- No segment starts behind the end of the line. -/
lemma start_le_sum (sizes : List ℕ) (j : ℕ) : start sizes j ≤ sizes.sum := by
  calc start sizes j ≤ (sizes.take j).sum + (sizes.drop j).sum := Nat.le_add_right _ _
    _ = sizes.sum := List.sum_take_add_sum_drop sizes j

/-- A segment lies inside the line. -/
lemma start_add_getElem_le_sum {sizes : List ℕ} {j : ℕ} (h : j < sizes.length) :
    start sizes j + sizes[j] ≤ sizes.sum := by
  rw [← start_succ h]
  exact start_le_sum sizes (j + 1)

/-- Every position of the line lies in a segment. -/
lemma exists_start_add {sizes : List ℕ} {p : ℕ} (hp : p < sizes.sum) :
    ∃ j < sizes.length, ∃ o < sizes.getD j 0, start sizes j + o = p := by
  induction sizes generalizing p with
  | nil => simp at hp
  | cons s ss ih =>
    rw [List.sum_cons] at hp
    by_cases hs : p < s
    · exact ⟨0, by simp, p, by simpa using hs, by simp⟩
    · obtain ⟨j, hj, o, ho, hstart⟩ := ih (p := p - s) (by omega)
      refine ⟨j + 1, by simpa using hj, o, by simpa using ho, ?_⟩
      rw [start_cons_succ]
      omega

/-! ### Cutting an interval -/

/-- The slices of a cut have together the length of the interval, as far as it lies in the
segments. -/
lemma sum_length_cut (sizes : List ℕ) (i off n : ℕ) :
    ((cut sizes i off n).map Slice.length).sum = min n (sizes.sum - off) := by
  induction sizes generalizing i off n with
  | nil => simp [cut]
  | cons s ss ih =>
    rw [List.sum_cons]
    unfold cut
    split_ifs with hn hoff
    · simp [hn]
    · rw [List.map_cons, List.sum_cons, ih]
      change min (s - off) n + _ = _
      omega
    · rw [ih]
      omega

/-- A slice of a cut lies inside its segment and is not empty. -/
lemma mem_cut {sizes : List ℕ} {i off n : ℕ} {sl : Slice} (h : sl ∈ cut sizes i off n) :
    i ≤ sl.segment ∧ 0 < sl.length ∧
      ∃ s, sizes[sl.segment - i]? = some s ∧ sl.offset + sl.length ≤ s := by
  induction sizes generalizing i off n with
  | nil => simp [cut] at h
  | cons s ss ih =>
    have hrest : ∀ off' n', sl ∈ cut ss (i + 1) off' n' → i ≤ sl.segment ∧ 0 < sl.length ∧
        ∃ s', (s :: ss)[sl.segment - i]? = some s' ∧ sl.offset + sl.length ≤ s' := by
      intro off' n' hmem
      obtain ⟨hi, hpos, s', hs', hle⟩ := ih hmem
      have hsub : sl.segment - i = (sl.segment - (i + 1)) + 1 := by omega
      exact ⟨by omega, hpos, s', by rw [hsub, List.getElem?_cons_succ, hs'], hle⟩
    rw [cut] at h
    split_ifs at h with hn hoff
    · simp at h
    · rcases List.mem_cons.mp h with rfl | h
      · exact ⟨Nat.le_refl i, by simp; omega, s, by simp, by simp; omega⟩
      · exact hrest _ _ h
    · exact hrest _ _ h

/-! ### Dealing a string out along slices -/

variable {α : Type*}

/-- Deal `data` out along the slices, over an image that maps a segment and an offset to a byte. -/
def paint : List Slice → List α → (ℕ → ℕ → Option α) → ℕ → ℕ → Option α
  | [], _, img => img
  | sl :: sls, data, img =>
      paint sls (data.drop sl.length) fun j o =>
        if j = sl.segment ∧ sl.offset ≤ o ∧ o < sl.offset + sl.length then
          data[o - sl.offset]?
        else img j o

/-- Segments before the first one of a cut are untouched. -/
lemma paint_cut_of_lt {sizes : List ℕ} {i off n : ℕ} (data : List α)
    (img : ℕ → ℕ → Option α) {j : ℕ} (hj : j < i) (o : ℕ) :
    paint (cut sizes i off n) data img j o = img j o := by
  induction sizes generalizing i off n data img with
  | nil => rfl
  | cons s ss ih =>
    unfold cut
    split_ifs with hn hoff
    · rfl
    · unfold paint
      rw [ih _ _ (by omega), if_neg (by simp; omega)]
    · exact ih _ _ (by omega)

/-- Dealing a string out along the cut of an interval changes exactly the positions of the
interval, and puts there the bytes of the string in order. -/
theorem paint_cut {sizes : List ℕ} {off n : ℕ} {data : List α} (hdata : data.length = n)
    (hle : off + n ≤ sizes.sum) (i : ℕ) (img : ℕ → ℕ → Option α) (j o : ℕ) :
    paint (cut sizes i off n) data img (i + j) o =
      if o < sizes.getD j 0 ∧ off ≤ start sizes j + o ∧ start sizes j + o < off + n then
        data[start sizes j + o - off]?
      else img (i + j) o := by
  induction sizes generalizing i off n data img j with
  | nil => simp [cut, paint]
  | cons s ss ih =>
    rw [List.sum_cons] at hle
    by_cases hn : n = 0
    · unfold cut
      rw [if_pos hn, paint, if_neg (by omega)]
    by_cases hoff : off < s
    · -- the first segment takes a slice, the others share the rest of the string
      have hmin : off + min (s - off) n = min s (off + n) := by omega
      unfold cut
      rw [if_neg hn, if_pos hoff, paint]
      cases j with
      | zero =>
        rw [paint_cut_of_lt _ _ (show i + 0 < i + 1 by omega)]
        simp only [List.getD_cons_zero, start_zero, Nat.zero_add, Nat.add_zero, true_and, hmin]
        congr 1
        exact propext (by omega)
      | succ j =>
        have hdrop : (data.drop (min (s - off) n)).length = n - min (s - off) n := by simp; omega
        rw [show i + (j + 1) = i + 1 + j by omega, ih hdrop (by omega), List.getD_cons_succ,
          start_cons_succ, if_neg (show ¬ (i + 1 + j = i ∧ _) by omega), List.getElem?_drop]
        by_cases hc : o < ss.getD j 0 ∧ off ≤ s + start ss j + o ∧ s + start ss j + o < off + n
        · rw [if_pos (by omega), if_pos hc]
          congr 1
          omega
        · rw [if_neg (by omega), if_neg hc]
    · -- the interval starts behind the first segment
      unfold cut
      rw [if_neg hn, if_neg hoff]
      cases j with
      | zero =>
        rw [paint_cut_of_lt _ _ (show i + 0 < i + 1 by omega), List.getD_cons_zero,
          start_zero, if_neg (by omega)]
      | succ j =>
        rw [show i + (j + 1) = i + 1 + j by omega, ih hdata (by omega), List.getD_cons_succ,
          start_cons_succ]
        by_cases hc : o < ss.getD j 0 ∧ off ≤ s + start ss j + o ∧ s + start ss j + o < off + n
        · rw [if_pos (by omega), if_pos hc]
          congr 1
          omega
        · rw [if_neg (by omega), if_neg hc]

/-- Dealing out a string that is long enough leaves something at every position of the slices, and
at those where there was something. -/
lemma isSome_paint (slices : List Slice) {data : List α}
    (hdata : (slices.map Slice.length).sum ≤ data.length) (img : ℕ → ℕ → Option α) (j o : ℕ) :
    (paint slices data img j o).isSome = true ↔
      (img j o).isSome = true ∨
        ∃ sl ∈ slices, j = sl.segment ∧ sl.offset ≤ o ∧ o < sl.offset + sl.length := by
  induction slices generalizing data img with
  | nil => simp [paint]
  | cons sl slices ih =>
    rw [List.map_cons, List.sum_cons] at hdata
    rw [paint, ih (by rw [List.length_drop]; omega), List.exists_mem_cons_iff, ← or_assoc]
    refine or_congr_left ?_
    by_cases hin : j = sl.segment ∧ sl.offset ≤ o ∧ o < sl.offset + sl.length
    · rw [if_pos hin, List.getElem?_eq_getElem (by omega)]
      exact iff_of_true rfl (.inr hin)
    · rw [if_neg hin, or_iff_left hin]

/-! ### Reading an interval -/

/-- The `n` entries of an infinite line from position `p` on. -/
def stretch (line : ℕ → α) (p n : ℕ) : List α :=
  (List.range n).map fun j => line (p + j)

/-- A stretch has the requested length. -/
@[simp] lemma length_stretch (line : ℕ → α) (p n : ℕ) : (stretch line p n).length = n := by
  simp [stretch]

/-- The entries of a stretch are entries of the line. -/
lemma getElem?_stretch (line : ℕ → α) (p : ℕ) {n j : ℕ} (hj : j < n) :
    (stretch line p n)[j]? = some (line (p + j)) := by
  simp [stretch, hj]

/-- Consecutive stretches make up one. -/
lemma stretch_append (line : ℕ → α) (p m n : ℕ) :
    stretch line p m ++ stretch line (p + m) n = stretch line p (m + n) := by
  simp only [stretch, List.range_add, List.map_append, List.map_map]
  congr 1
  refine List.map_congr_left fun j _ => ?_
  simp [Nat.add_assoc]

/-! ### Tilings -/

/-- The intervals, each given by its start and its length, follow each other from `a` to `b`. -/
def Tiles : ℕ → List (ℕ × ℕ) → ℕ → Prop
  | a, [], b => a = b
  | a, t :: ts, b => t.1 = a ∧ Tiles (a + t.2) ts b

/-- The lengths of the tiles of an interval have together its length. -/
lemma Tiles.sum_eq {ts : List (ℕ × ℕ)} {a b : ℕ} (h : Tiles a ts b) :
    a + (ts.map Prod.snd).sum = b := by
  induction ts generalizing a with
  | nil => exact h
  | cons t ts ih =>
    rcases h with ⟨-, hrest⟩
    rw [List.map_cons, List.sum_cons, ← Nat.add_assoc]
    exact ih hrest

/-- The tiles of two neighbouring intervals are those of both together. -/
lemma Tiles.append {ts us : List (ℕ × ℕ)} {a b c : ℕ} (h : Tiles a ts b) (h' : Tiles b us c) :
    Tiles a (ts ++ us) c := by
  induction ts generalizing a with
  | nil =>
    obtain rfl : a = b := h
    exact h'
  | cons t ts ih =>
    rcases h with ⟨hstart, hrest⟩
    exact ⟨hstart, ih hrest⟩

/-- Tiles of one length, the last one cut off at the end of the interval, tile it as far as they
reach. -/
lemma tiles_range (p tile size : ℕ) {n : ℕ} (hn : ∀ k < n, k * tile ≤ size) :
    Tiles p ((List.range n).map fun k => (p + k * tile, min tile (size - k * tile)))
      (p + min (n * tile) size) := by
  induction n with
  | zero => simp [Tiles]
  | succ n ih =>
    have hle := hn n (Nat.lt_succ_self n)
    have hmin : min ((n + 1) * tile) size = n * tile + min tile (size - n * tile) := by
      rw [Nat.succ_mul]
      omega
    have hfront := ih fun k hk => hn k (Nat.lt_succ_of_lt hk)
    rw [Nat.min_eq_left hle] at hfront
    rw [List.range_succ, List.map_append, hmin, ← Nat.add_assoc]
    exact hfront.append ⟨rfl, rfl⟩

/-- What is read along the tiles of an interval is what is read in the interval. -/
lemma Tiles.flatMap_stretch {ts : List (ℕ × ℕ)} {a n : ℕ} (h : Tiles a ts (a + n))
    (line : ℕ → α) : (ts.flatMap fun t => stretch line t.1 t.2) = stretch line a n := by
  induction ts generalizing a n with
  | nil =>
    obtain rfl : n = 0 := Nat.add_eq_left.mp h.symm
    rfl
  | cons t ts ih =>
    rcases h with ⟨hstart, hrest⟩
    have hle : a + t.2 ≤ a + n := Nat.le.intro hrest.sum_eq
    have hsplit : a + n = a + t.2 + (n - t.2) := by omega
    rw [hsplit] at hrest
    rw [List.flatMap_cons, ih hrest, hstart, stretch_append, Nat.add_sub_cancel' (by omega)]

/-- The tiles of an interval, the last one cut off at its end, make up the interval as far as they
reach. -/
lemma flatMap_stretch (line : ℕ → α) (p tile size : ℕ) {n : ℕ}
    (hn : ∀ k < n, k * tile ≤ size) :
    ((List.range n).flatMap fun k => stretch line (p + k * tile) (min tile (size - k * tile))) =
      stretch line p (min (n * tile) size) := by
  rw [← (tiles_range p tile size hn).flatMap_stretch line, List.flatMap_map]

/-- Lengths that are bounded one by one and have together at least the total of their bounds are the
bounds. -/
lemma eq_of_sum_map_le {β : Type*} {f g : β → ℕ} {l : List β} (hle : ∀ x ∈ l, f x ≤ g x)
    (hsum : (l.map g).sum ≤ (l.map f).sum) : ∀ x ∈ l, f x = g x := by
  have hboth : (l.map f).sum ≤ (l.map g).sum ∧
      ((l.map g).sum ≤ (l.map f).sum → ∀ x ∈ l, f x = g x) := by
    clear hsum
    induction l with
    | nil => simp
    | cons x l ih =>
      have hx := hle x List.mem_cons_self
      obtain ⟨hrest, heq⟩ := ih fun y hy => hle y (List.mem_cons_of_mem x hy)
      rw [List.map_cons, List.map_cons, List.sum_cons, List.sum_cons]
      refine ⟨by omega, fun hsum y hy => ?_⟩
      rcases List.mem_cons.mp hy with rfl | hy
      · omega
      · exact heq (by omega) y hy
  exact hboth.2 hsum

end Segments
