import Mathlib.Data.List.Nodup

/-!
# A queue that is refilled when it runs empty

A consumer pops a queue until it finds an entry that is still good; an empty queue is refilled from
a fixed supply before it is popped.

`draws good supply n queue` are the entries that at most `n` such calls in a row return.  They are
the good entries of the queue, followed by the supply over and over again, unless the queue ends
with an entry that is not good: then the call that meets this entry drains the queue and returns
nothing (`draws_eq`).  `nodup_map_draws_iff` says when no entry is drawn twice.
-/

set_option autoImplicit false

namespace Refill

variable {α β : Type*} (good : α → Bool)

/-- Pop until the popped entry is good: what remains in the queue, and the entry. -/
def pop : List α → List α × Option α
  | [] => ([], none)
  | x :: queue => if good x then (queue, some x) else pop queue

/-- At most `n` calls that pop the queue, which is refilled before a call if it is empty. -/
def draws (supply : List α) : ℕ → List α → List α
  | 0, _ => []
  | n + 1, queue =>
    let popped := pop good (if queue = [] then supply else queue)
    match popped.2 with
    | none => []
    | some x => x :: draws supply n popped.1

/-- The last entry, if there is one, is good. -/
def EndsGood (queue : List α) : Prop :=
  ∀ x ∈ queue.getLast?, good x = true

variable {good} {supply queue : List α}

instance : Decidable (EndsGood good queue) :=
  inferInstanceAs (Decidable (∀ x ∈ queue.getLast?, good x = true))

/-- The empty queue does not end with a bad entry. -/
@[simp] lemma endsGood_nil : EndsGood good ([] : List α) := by
  simp [EndsGood]

/-- A good entry in front does not change how the queue ends. -/
lemma endsGood_cons {x : α} (hx : good x = true) :
    EndsGood good (x :: queue) ↔ EndsGood good queue := by
  unfold EndsGood
  cases queue with
  | nil => simpa using hx
  | cons y queue => rw [List.getLast?_cons_cons]

/-- A queue without bad entries does not end with one. -/
lemma endsGood_of_forall (hgood : ∀ x ∈ queue, good x = true) : EndsGood good queue :=
  fun x hx => hgood x (List.mem_of_mem_getLast? hx)

/-- Popping finds the first good entry, if there is one. -/
lemma pop_snd : (pop good queue).2 = queue.find? good := by
  induction queue with
  | nil => rfl
  | cons x queue ih =>
    rw [pop, List.find?_cons]
    cases hx : good x with
    | true => simp
    | false => simpa using ih

/-- Popping an entry takes it and the bad ones in front of it; the queue ends as before. -/
lemma pop_some {x : α} (hx : (pop good queue).2 = some x) :
    good x = true ∧ queue.filter good = x :: (pop good queue).1.filter good ∧
      (EndsGood good queue ↔ EndsGood good (pop good queue).1) := by
  induction queue with
  | nil => cases hx
  | cons y queue ih =>
    rw [pop] at hx ⊢
    cases hy : good y with
    | true =>
      rw [hy, if_pos rfl] at hx
      obtain rfl := Option.some.inj hx
      simp [hy, endsGood_cons hy]
    | false =>
      rw [hy, if_neg Bool.false_ne_true] at hx
      rw [if_neg Bool.false_ne_true]
      obtain ⟨hgood, hfilter, hends⟩ := ih hx
      refine ⟨hgood, by rw [List.filter_cons_of_neg (by simp [hy]), hfilter], ?_⟩
      rw [← hends]
      cases queue with
      | nil => cases hx
      | cons z queue =>
        unfold EndsGood
        rw [List.getLast?_cons_cons]

/-- Popping returns nothing if there is no good entry; such a queue ends with a bad one or is
empty. -/
lemma pop_none (hnone : (pop good queue).2 = none) :
    queue.filter good = [] ∧ (EndsGood good queue → queue = []) := by
  rw [pop_snd, List.find?_eq_none] at hnone
  refine ⟨List.filter_eq_nil_iff.mpr hnone, fun hends => ?_⟩
  by_contra hne
  have hlast := List.getLast?_eq_some_getLast hne
  exact hnone _ (List.getLast_mem hne) (hends _ hlast)

/-- The good entries of the queue are drawn, and then the supply over and over again, unless the
queue ends with a bad entry. -/
theorem draws_eq (hsupply : ∀ x ∈ supply, good x = true) {n k : ℕ} (hk : n ≤ k)
    (queue : List α) :
    draws good supply n queue =
      (queue.filter good ++
        if EndsGood good queue then (List.replicate k supply).flatten else []).take n := by
  induction n generalizing queue k with
  | zero => simp [draws]
  | succ n ih =>
    have hfilter : supply.filter good = supply := List.filter_eq_self.mpr hsupply
    by_cases hempty : queue = []
    · subst hempty
      obtain ⟨k, rfl⟩ : ∃ j, k = j + 1 := ⟨k - 1, by omega⟩
      simp only [draws, if_pos, List.filter_nil, List.nil_append, endsGood_nil]
      cases hpop : (pop good supply).2 with
      | none =>
        have hnil : supply = [] := hfilter ▸ (pop_none hpop).1
        simp [hnil]
      | some x =>
        obtain ⟨-, hpopped, hends⟩ := pop_some hpop
        -- the rest of the supply is drawn before the next round
        have hround : supply = x :: (pop good supply).1.filter good := by
          rw [← hpopped, hfilter]
        have hrest := ih (show n ≤ k by omega) (pop good supply).1
        rw [if_pos (hends.mp (endsGood_of_forall hsupply))] at hrest
        calc x :: draws good supply n (pop good supply).1
            = ((x :: (pop good supply).1.filter good) ++
                (List.replicate k supply).flatten).take (n + 1) := by
              rw [hrest, List.cons_append, List.take_succ_cons]
          _ = (List.replicate (k + 1) supply).flatten.take (n + 1) := by
              rw [← hround, List.replicate_succ, List.flatten_cons]
    · simp only [draws, if_neg hempty]
      cases hpop : (pop good queue).2 with
      | none =>
        obtain ⟨hnil, hends⟩ := pop_none hpop
        rw [hnil, if_neg fun h => hempty (hends h)]
        rfl
      | some x =>
        obtain ⟨-, hpopped, hends⟩ := pop_some hpop
        have hrest := ih (show n ≤ k by omega) (pop good queue).1
        rw [hpopped, List.cons_append, List.take_succ_cons]
        simp only [hends]
        exact congrArg (x :: ·) hrest

/-! ### Rounds through the supply -/

/-- Within the first round the entries are those of the supply. -/
lemma take_rounds {n m : ℕ} (hn : 0 < n) (hm : m ≤ supply.length) :
    (List.replicate n supply).flatten.take m = supply.take m := by
  obtain ⟨n, rfl⟩ : ∃ k, n = k + 1 := ⟨n - 1, by omega⟩
  rw [List.replicate_succ, List.flatten_cons, List.take_append_of_le_length hm]

/-- The second round begins with an entry of the first. -/
lemma not_nodup_take_rounds (f : α → β) (hsupply : supply ≠ []) {n m : ℕ}
    (hm : supply.length < m) (hn : m ≤ n) :
    ¬ (((List.replicate n supply).flatten.take m).map f).Nodup := by
  cases supply with
  | nil => exact absurd rfl hsupply
  | cons x rest =>
    rw [List.length_cons] at hm
    obtain ⟨n, rfl⟩ : ∃ k, n = k + 2 := ⟨n - 2, by omega⟩
    obtain ⟨j, rfl⟩ : ∃ j, m = (x :: rest).length + (j + 1) :=
      ⟨m - (rest.length + 2), by rw [List.length_cons]; omega⟩
    rw [List.replicate_succ, List.flatten_cons, List.take_length_add_append, List.replicate_succ,
      List.flatten_cons, List.map_append, List.nodup_append]
    rintro ⟨-, -, hdisj⟩
    exact hdisj (f x) (by simp) (f x) (by simp) rfl

/-- No entry is drawn twice exactly if the good entries of the queue suffice, or the draws end with
the queue or for lack of a supply, or the part of the supply that is drawn is one round at most and
has nothing that the queue still held. -/
theorem nodup_map_draws_iff {f : α → β} (hgood : ∀ x ∈ supply, good x = true)
    (hsupply : (supply.map f).Nodup) (hqueue : (queue.map f).Nodup) (n : ℕ) :
    ((draws good supply n queue).map f).Nodup ↔
      n ≤ (queue.filter good).length ∨ ¬ EndsGood good queue ∨ supply = [] ∨
        (n - (queue.filter good).length ≤ supply.length ∧
          ∀ x ∈ supply.take (n - (queue.filter good).length), ∀ y ∈ queue.filter good,
            f x ≠ f y) := by
  have hlive : ((queue.filter good).map f).Nodup :=
    hqueue.sublist (List.filter_sublist.map f)
  rw [draws_eq hgood (Nat.le_refl n)]
  set live := queue.filter good with hset
  by_cases hn : n ≤ live.length
  · refine iff_of_true ?_ (.inl hn)
    rw [List.take_append_of_le_length hn]
    exact hlive.sublist ((List.take_sublist n live).map f)
  by_cases hends : EndsGood good queue
  · rw [if_pos hends, or_iff_right hn, or_iff_right (not_not.mpr hends)]
    by_cases hnil : supply = []
    · refine iff_of_true ?_ (.inl hnil)
      subst hnil
      rw [List.flatten_replicate_nil, List.append_nil]
      exact hlive.sublist ((List.take_sublist n live).map f)
    obtain ⟨m, rfl⟩ : ∃ m, n = live.length + m := ⟨n - live.length, by omega⟩
    have hpos : 0 < live.length + m := by omega
    rw [or_iff_right hnil, List.take_length_add_append, Nat.add_sub_cancel_left, List.map_append,
      List.nodup_append]
    by_cases hm : m ≤ supply.length
    · rw [take_rounds hpos hm]
      have hround : ((supply.take m).map f).Nodup :=
        hsupply.sublist ((List.take_sublist m supply).map f)
      constructor
      · rintro ⟨-, -, hdisj⟩
        exact ⟨hm, fun x hx y hy heq =>
          hdisj (f y) (List.mem_map_of_mem hy) (f x) (List.mem_map_of_mem hx) heq.symm⟩
      · rintro ⟨-, hdisj⟩
        refine ⟨hlive, hround, fun a ha b hb heq => ?_⟩
        obtain ⟨y, hy, rfl⟩ := List.mem_map.mp ha
        obtain ⟨x, hx, rfl⟩ := List.mem_map.mp hb
        exact hdisj x hx y hy heq.symm
    · refine iff_of_false (fun h => ?_) fun h => hm h.1
      exact not_nodup_take_rounds f hnil (by omega) (by omega) h.2.1
  · refine iff_of_true ?_ (.inr (.inl hends))
    rw [if_neg hends, List.append_nil]
    exact hlive.sublist ((List.take_sublist n live).map f)

end Refill
