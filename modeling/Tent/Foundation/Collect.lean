import Mathlib.Data.List.Infix
import Mathlib.Data.List.Nodup

/-!
# Collecting without duplicates

`addKey` appends an element to a list unless it is there, and folding it over a list collects the
elements of the list in the order in which they first come.  A list is `Ordered` by a relation if
everything that must come before an element stands in front of it; collecting keeps that
(`Ordered.foldl_addKey`).
-/

set_option autoImplicit false

namespace Collect

variable {κ : Type*} [DecidableEq κ]

/-! ### What is collected -/

/-- Append an element that is not there yet. -/
def addKey (keys : List κ) (k : κ) : List κ := if k ∈ keys then keys else keys ++ [k]

/-- Collecting keeps a list free of duplicates. -/
lemma nodup_foldl_addKey {keys ks : List κ} (h : keys.Nodup) : (ks.foldl addKey keys).Nodup := by
  induction ks generalizing keys with
  | nil => exact h
  | cons k ks ih =>
    rw [List.foldl_cons]
    refine ih ?_
    unfold addKey
    split_ifs with hk
    · exact h
    · refine List.nodup_append.mpr ⟨h, List.nodup_singleton k, ?_⟩
      rintro x hx y hy rfl
      exact hk (List.mem_singleton.mp hy ▸ hx)

/-- What is collected is what was there and what was added. -/
lemma mem_foldl_addKey {keys ks : List κ} {k : κ} :
    k ∈ ks.foldl addKey keys ↔ k ∈ keys ∨ k ∈ ks := by
  induction ks generalizing keys with
  | nil => simp
  | cons x ks ih =>
    have hadd : k ∈ addKey keys x ↔ k ∈ keys ∨ k = x := by
      unfold addKey
      split_ifs with hx
      · refine ⟨.inl, ?_⟩
        rintro (hk | rfl)
        · exact hk
        · exact hx
      · simp
    rw [List.foldl_cons, ih, hadd, List.mem_cons, or_assoc]

/-- Collecting leaves what was there in front. -/
lemma prefix_foldl_addKey (keys ks : List κ) : keys <+: ks.foldl addKey keys := by
  induction ks generalizing keys with
  | nil => exact List.prefix_rfl
  | cons k ks ih =>
    refine List.IsPrefix.trans ?_ (ih (addKey keys k))
    unfold addKey
    split_ifs
    · exact List.prefix_rfl
    · exact List.prefix_append keys [k]

/-- Collecting what is there changes nothing. -/
lemma foldl_addKey_of_subset {keys ks : List κ} (h : ks ⊆ keys) : ks.foldl addKey keys = keys := by
  induction ks with
  | nil => rfl
  | cons k ks ih =>
    obtain ⟨hk, hks⟩ := List.cons_subset.mp h
    rw [List.foldl_cons, addKey, if_pos hk, ih hks]

/-- Collecting makes a list longer exactly if something is added that was not there. -/
lemma length_lt_foldl_addKey {keys ks : List κ} :
    keys.length < (ks.foldl addKey keys).length ↔ ∃ k ∈ ks, k ∉ keys := by
  constructor
  · intro hlt
    by_contra hnone
    push Not at hnone
    rw [foldl_addKey_of_subset hnone] at hlt
    exact Nat.lt_irrefl _ hlt
  · rintro ⟨k, hk, hnew⟩
    have hfront := prefix_foldl_addKey keys ks
    refine lt_of_le_of_ne hfront.length_le fun heq => hnew ?_
    rw [hfront.eq_of_length heq]
    exact mem_foldl_addKey.mpr (.inr hk)

/-- Nothing is collected exactly if everything is there. -/
lemma foldl_addKey_eq_self_iff {keys ks : List κ} :
    ks.foldl addKey keys = keys ↔ ∀ k ∈ ks, k ∈ keys := by
  constructor
  · intro heq k hk
    rw [← heq]
    exact mem_foldl_addKey.mpr (.inr hk)
  · exact fun hsub => foldl_addKey_of_subset hsub

/-! ### In which order -/

/-- Everything that must come before an element of the list stands in front of it. -/
def Ordered {κ : Type*} (before : κ → κ → Prop) (ks : List κ) : Prop :=
  ∀ pre k, pre ++ [k] <+: ks → ∀ p, before p k → p ∈ pre

namespace Ordered

variable {before : κ → κ → Prop} {ks ls : List κ} {k : κ}

omit [DecidableEq κ]

/-- The empty list is ordered. -/
lemma nil : Ordered before [] := by
  intro pre k hpre
  simp at hpre

/-- A list is ordered with one more element if what must come before this is in the list. -/
lemma concat_iff :
    Ordered before (ks ++ [k]) ↔ Ordered before ks ∧ ∀ p, before p k → p ∈ ks := by
  constructor
  · intro h
    exact ⟨fun pre l hpre => h pre l (hpre.trans (List.prefix_append ks [k])),
      h ks k List.prefix_rfl⟩
  · rintro ⟨hks, hk⟩ pre l hpre
    rcases List.prefix_concat_iff.mp hpre with heq | hpre
    · obtain ⟨rfl, hl⟩ := List.append_inj' heq rfl
      rw [(List.cons.inj hl).1]
      exact hk
    · exact hks pre l hpre

/-- A list that is sorted and closed under what must come before is ordered, if nothing must come
before an element that the sorting puts behind it. -/
lemma of_pairwise {sorted : κ → κ → Prop} (hsorted : ks.Pairwise sorted)
    (hclosed : ∀ k ∈ ks, ∀ p, before p k → p ∈ ks)
    (hbefore : ∀ p k, before p k → p ≠ k ∧ ¬ sorted k p) : Ordered before ks := by
  rintro pre k ⟨post, rfl⟩ p hp
  have hmem := hclosed k (by simp) p hp
  obtain ⟨hne, hnot⟩ := hbefore p k hp
  rw [List.append_assoc, List.mem_append, List.singleton_append, List.mem_cons] at hmem
  rcases hmem with hmem | heq | hmem
  · exact hmem
  · exact absurd heq hne
  · have hbehind := (List.pairwise_append.mp hsorted).2.2 k (by simp) p hmem
    exact absurd hbehind hnot

/-- Two ordered lists behind each other are ordered. -/
lemma append (hks : Ordered before ks) (hls : Ordered before ls) : Ordered before (ks ++ ls) := by
  induction ls using List.reverseRecOn with
  | nil => rwa [List.append_nil]
  | append_singleton ls l ih =>
    obtain ⟨hls, hl⟩ := concat_iff.mp hls
    rw [← List.append_assoc]
    exact concat_iff.mpr ⟨ih hls, fun p hp => List.mem_append_right ks (hl p hp)⟩

/-- Ordered lists behind each other are ordered. -/
lemma flatMap {α : Type*} {f : α → List κ} {xs : List α} (h : ∀ x ∈ xs, Ordered before (f x)) :
    Ordered before (xs.flatMap f) := by
  induction xs with
  | nil => exact nil
  | cons x xs ih =>
    rw [List.flatMap_cons]
    exact append (h x List.mem_cons_self) (ih fun y hy => h y (List.mem_cons_of_mem x hy))

/-- Collecting from an ordered list gives an ordered list: an element is collected where it first
comes, and so is what must come before it. -/
lemma foldl_addKey [DecidableEq κ] (hks : Ordered before ks) :
    Ordered before (ks.foldl addKey []) := by
  induction ks using List.reverseRecOn with
  | nil => exact nil
  | append_singleton ks k ih =>
    obtain ⟨hks, hk⟩ := concat_iff.mp hks
    rw [List.foldl_append, List.foldl_cons, List.foldl_nil, addKey]
    split_ifs
    · exact ih hks
    · exact concat_iff.mpr ⟨ih hks, fun p hp => mem_foldl_addKey.mpr (.inr (hk p hp))⟩

end Ordered

end Collect
