import Mathlib.Data.List.Basic
import Mathlib.Data.List.Infix
import Mathlib.Logic.Function.Iterate
import Mathlib.Logic.Relation

/-!
# Runs, loops and histories

General facts about programs that move from state to state.

* `run step s ls` is the state after the labels `ls`.  `Along step P s ls` says that `P` holds in
  every state the run passes through, `Meets step C s ls` that every step of the run satisfies the
  condition `C` on the state before it and its label.  `along_iff_meets` reduces an exactness
  statement about whole runs (`P` holds throughout iff every step meets `C`) to one step.
* `pass guard body` is one pass of a `while` loop, and `Terminates guard body s` says that the loop
  started in `s` leaves.  `whileFuel` is the loop with a bound on the number of passes.
* `bind_eq_ok` and `map_eq_ok` take apart a computation that may fail and did not,
  `bind_eq_error` and `map_eq_error` one that did.  `foldlM_eq_error_iff` finds the pass of a loop
  that failed.
* `Each ok tr` says that every event of the history `tr` is admissible after the events before it,
  and `since mark tr` is the part of it after the last `mark`.
-/

set_option autoImplicit false

namespace Transition

variable {σ ℓ τ : Type*}

/-! ### Runs of a step function -/

/-- The state reached from `s` by the labels `ls`. -/
def run (step : σ → ℓ → σ) (s : σ) (ls : List ℓ) : σ :=
  ls.foldl step s

/-- The empty run stays where it is. -/
@[simp] lemma run_nil (step : σ → ℓ → σ) (s : σ) : run step s [] = s := rfl

/-- A run makes its first step first. -/
@[simp] lemma run_cons (step : σ → ℓ → σ) (s : σ) (l : ℓ) (ls : List ℓ) :
    run step s (l :: ls) = run step (step s l) ls := rfl

/-- A run over a concatenation continues where the first part ended. -/
lemma run_append (step : σ → ℓ → σ) (s : σ) (ls ks : List ℓ) :
    run step s (ls ++ ks) = run step (run step s ls) ks :=
  List.foldl_append

/-- `P` holds in every state the run passes through, the first and the last included. -/
def Along (step : σ → ℓ → σ) (P : σ → Prop) (s : σ) (ls : List ℓ) : Prop :=
  ∀ pre, pre <+: ls → P (run step s pre)

/-- Every step of the run satisfies `C` on the state before it and its label. -/
def Meets (step : σ → ℓ → σ) (C : σ → ℓ → Prop) (s : σ) (ls : List ℓ) : Prop :=
  ∀ pre l, pre ++ [l] <+: ls → C (run step s pre) l

/-- A property along the empty run is a property of the only state. -/
@[simp] lemma along_nil {step : σ → ℓ → σ} {P : σ → Prop} {s : σ} :
    Along step P s [] ↔ P s := by
  simp [Along]

/-- A property along a run is a property of its first state and along the rest. -/
lemma along_cons {step : σ → ℓ → σ} {P : σ → Prop} {s : σ} {l : ℓ} {ls : List ℓ} :
    Along step P s (l :: ls) ↔ P s ∧ Along step P (step s l) ls := by
  constructor
  · intro h
    refine ⟨h [] List.nil_prefix, fun pre hpre => ?_⟩
    exact h (l :: pre) (List.cons_prefix_cons.mpr ⟨rfl, hpre⟩)
  · rintro ⟨h₀, h⟩ pre hpre
    cases pre with
    | nil => exact h₀
    | cons k pre =>
      obtain ⟨rfl, htail⟩ := List.cons_prefix_cons.mp hpre
      exact h pre htail

/-- The empty run meets every condition. -/
@[simp] lemma meets_nil {step : σ → ℓ → σ} {C : σ → ℓ → Prop} {s : σ} :
    Meets step C s [] := by
  intro pre l h
  simp at h

/-- The steps of a run are its first step and the steps of the rest. -/
lemma meets_cons {step : σ → ℓ → σ} {C : σ → ℓ → Prop} {s : σ} {l : ℓ} {ls : List ℓ} :
    Meets step C s (l :: ls) ↔ C s l ∧ Meets step C (step s l) ls := by
  constructor
  · intro h
    refine ⟨h [] l (by simp), fun pre k hpre => ?_⟩
    exact h (l :: pre) k (List.cons_prefix_cons.mpr ⟨rfl, hpre⟩)
  · rintro ⟨h₀, h⟩ pre k hpre
    cases pre with
    | nil =>
      obtain ⟨rfl, -⟩ := List.cons_prefix_cons.mp hpre
      exact h₀
    | cons j pre =>
      obtain ⟨rfl, htail⟩ := List.cons_prefix_cons.mp hpre
      exact h pre k htail

/-- A run meets a decidable condition or not, which running it decides. -/
instance decidableMeets {step : σ → ℓ → σ} {C : σ → ℓ → Prop} [∀ s l, Decidable (C s l)] :
    ∀ (s : σ) (ls : List ℓ), Decidable (Meets step C s ls)
  | _, [] => isTrue meets_nil
  | s, l :: ls =>
    have : Decidable (Meets step C (step s l) ls) := decidableMeets (step s l) ls
    decidable_of_iff _ meets_cons.symm

/-- The last state of a run is one of the states it passes through. -/
lemma Along.last {step : σ → ℓ → σ} {P : σ → Prop} {s : σ} {ls : List ℓ}
    (h : Along step P s ls) : P (run step s ls) :=
  h ls List.prefix_rfl

/-- What holds along a run can be weakened. -/
lemma Along.mono {step : σ → ℓ → σ} {P Q : σ → Prop} (hPQ : ∀ s, P s → Q s) {s : σ} {ls : List ℓ}
    (h : Along step P s ls) : Along step Q s ls :=
  fun pre hpre => hPQ _ (h pre hpre)

/-- Two conditions are met together. -/
lemma Meets.and {step : σ → ℓ → σ} {C D : σ → ℓ → Prop} {s : σ} {ls : List ℓ}
    (hC : Meets step C s ls) (hD : Meets step D s ls) :
    Meets step (fun s l => C s l ∧ D s l) s ls :=
  fun pre l hpre => ⟨hC pre l hpre, hD pre l hpre⟩

/-- A condition on the labels alone is met by a run over such labels. -/
lemma meets_of_forall {step : σ → ℓ → σ} {V : ℓ → Prop} {s : σ} {ls : List ℓ}
    (hV : ∀ l ∈ ls, V l) : Meets step (fun _ l => V l) s ls :=
  fun pre l hpre => hV l (hpre.subset (by simp))

/-- A run meets a condition on the labels alone exactly when all of its labels satisfy it. -/
lemma meets_iff_forall {step : σ → ℓ → σ} {V : ℓ → Prop} {s : σ} {ls : List ℓ} :
    Meets step (fun _ l => V l) s ls ↔ ∀ l ∈ ls, V l := by
  refine ⟨fun h l hl => ?_, meets_of_forall⟩
  obtain ⟨pre, post, rfl⟩ := List.append_of_mem hl
  exact h pre l ⟨post, by simp⟩

/-- An invariant of the steps that meet a condition holds along the runs that do. -/
theorem along_of_meets {step : σ → ℓ → σ} {C : σ → ℓ → Prop} {P : σ → Prop}
    (hstep : ∀ s l, C s l → P s → P (step s l)) {s : σ} {ls : List ℓ}
    (hC : Meets step C s ls) (hs : P s) : Along step P s ls := by
  induction ls generalizing s with
  | nil => simpa using hs
  | cons l ls ih =>
    obtain ⟨hl, hls⟩ := meets_cons.mp hC
    exact along_cons.mpr ⟨hs, ih hls (hstep s l hl hs)⟩

/-- A relation that the steps which meet a condition keep relates a run that meets it to the other
run over the same labels. -/
theorem run_rel_of_meets {step : σ → ℓ → σ} {step' : τ → ℓ → τ} {C : σ → ℓ → Prop}
    {R : σ → τ → Prop} (hstep : ∀ s t l, C s l → R s t → R (step s l) (step' t l)) {s : σ} {t : τ}
    {ls : List ℓ} (hC : Meets step C s ls) (h : R s t) : R (run step s ls) (run step' t ls) := by
  induction ls generalizing s t with
  | nil => exact h
  | cons l ls ih =>
    obtain ⟨hl, hls⟩ := meets_cons.mp hC
    rw [run_cons, run_cons]
    exact ih hls (hstep s t l hl h)

/-- An invariant preserved by the admissible labels survives every run over such labels. -/
lemma run_invariant {step : σ → ℓ → σ} {V : ℓ → Prop} {P : σ → Prop}
    (hstep : ∀ s l, V l → P s → P (step s l)) {s : σ} {ls : List ℓ} (hV : ∀ l ∈ ls, V l)
    (hs : P s) : P (run step s ls) :=
  (along_of_meets (C := fun _ l => V l) hstep (meets_of_forall hV) hs).last

/-- Two runs over the same labels keep a relation that every label preserves. -/
lemma run_rel {step : σ → ℓ → σ} {step' : τ → ℓ → τ} {V : ℓ → Prop} {R : σ → τ → Prop}
    (hstep : ∀ s t l, V l → R s t → R (step s l) (step' t l)) {s : σ} {t : τ} {ls : List ℓ}
    (hV : ∀ l ∈ ls, V l) (h : R s t) : R (run step s ls) (run step' t ls) :=
  run_rel_of_meets (C := fun _ l => V l) hstep (meets_of_forall hV) h

/-- Exactness of a step condition: if in good states the property survives a step exactly when the
step meets the condition, then it holds along a whole run exactly when every step does.  The steps
of the run may be assumed to meet another condition. -/
theorem along_iff_meets_of_meets {step : σ → ℓ → σ} {V C : σ → ℓ → Prop} {I P : σ → Prop}
    (hexact : ∀ s l, V s l → I s → P s → (P (step s l) ↔ C s l))
    (hinv : ∀ s l, V s l → I s → P s → C s l → I (step s l)) {s : σ} {ls : List ℓ}
    (hV : Meets step V s ls) (hs : I s) (hp : P s) :
    Along step P s ls ↔ Meets step C s ls := by
  induction ls generalizing s with
  | nil => simp [hp]
  | cons l ls ih =>
    obtain ⟨hl, hls⟩ := meets_cons.mp hV
    rw [along_cons, meets_cons]
    constructor
    · rintro ⟨-, halong⟩
      have hnext : P (step s l) := halong [] List.nil_prefix
      have hC : C s l := (hexact s l hl hs hp).mp hnext
      exact ⟨hC, (ih hls (hinv s l hl hs hp hC) hnext).mp halong⟩
    · rintro ⟨hC, hmeets⟩
      have hnext : P (step s l) := (hexact s l hl hs hp).mpr hC
      exact ⟨hp, (ih hls (hinv s l hl hs hp hC) hnext).mpr hmeets⟩

/-- Exactness of a step condition for runs over admissible labels. -/
theorem along_iff_meets {step : σ → ℓ → σ} {V : ℓ → Prop} {I P : σ → Prop}
    {C : σ → ℓ → Prop} (hexact : ∀ s l, V l → I s → P s → (P (step s l) ↔ C s l))
    (hinv : ∀ s l, V l → I s → P s → C s l → I (step s l)) {s : σ} {ls : List ℓ}
    (hV : ∀ l ∈ ls, V l) (hs : I s) (hp : P s) :
    Along step P s ls ↔ Meets step C s ls :=
  along_iff_meets_of_meets (V := fun _ l => V l) hexact hinv (meets_of_forall hV) hs hp

/-- What holds along a run holds at its start and behind every step. -/
lemma along_iff_meets_step {step : σ → ℓ → σ} {P : σ → Prop} {s : σ} {ls : List ℓ} :
    Along step P s ls ↔ P s ∧ Meets step (fun s l => P (step s l)) s ls := by
  induction ls generalizing s with
  | nil => simp
  | cons l ls ih => rw [along_cons, meets_cons, ih]

/-- What no step can establish holds along a run if it holds at its end. -/
lemma along_of_last {step : σ → ℓ → σ} {P : σ → Prop} (hback : ∀ s l, P (step s l) → P s) {s : σ}
    {ls : List ℓ} (h : P (run step s ls)) : Along step P s ls := by
  induction ls generalizing s with
  | nil => exact along_nil.mpr h
  | cons l ls ih =>
    have hrest : Along step P (step s l) ls := ih h
    exact along_cons.mpr ⟨hback s l (hrest [] List.nil_prefix), hrest⟩

/-- Two conditions that agree in the states that the first of them leads to are met by the same
runs.  The steps of the run may be assumed to meet another condition. -/
theorem meets_iff_meets {step : σ → ℓ → σ} {I : σ → Prop} {V C D : σ → ℓ → Prop}
    (hiff : ∀ s l, V s l → I s → (C s l ↔ D s l))
    (hinv : ∀ s l, V s l → I s → C s l → I (step s l)) {s : σ} {ls : List ℓ}
    (hV : Meets step V s ls) (hs : I s) : Meets step C s ls ↔ Meets step D s ls := by
  induction ls generalizing s with
  | nil => exact iff_of_true meets_nil meets_nil
  | cons l ls ih =>
    obtain ⟨hl, hls⟩ := meets_cons.mp hV
    rw [meets_cons, meets_cons, hiff s l hl hs]
    refine and_congr_right fun hD => ?_
    exact ih hls (hinv s l hl hs ((hiff s l hl hs).mpr hD))

/-! ### While loops -/

section While

variable (guard : σ → Bool) (body : σ → σ)

/-- One pass of the loop: the body if the guard holds, nothing otherwise. -/
def pass (s : σ) : σ :=
  if guard s then body s else s

/-- The loop started in `s` leaves: some pass finds the guard false. -/
def Terminates (s : σ) : Prop :=
  ∃ n, guard ((pass guard body)^[n] s) = false

/-- The loop with a bound on the number of passes; `none` if it has not left by then. -/
def whileFuel : ℕ → σ → Option σ
  | 0, _ => none
  | n + 1, s => if guard s then whileFuel n (body s) else some s

variable {guard body}

/-- A pass under a true guard runs the body. -/
lemma pass_of_guard {s : σ} (h : guard s = true) : pass guard body s = body s := by
  simp [pass, h]

/-- A pass under a false guard does nothing. -/
lemma pass_of_not_guard {s : σ} (h : guard s = false) : pass guard body s = s := by
  simp [pass, h]

/-- A loop that has left stays where it left. -/
lemma iterate_pass_of_not_guard {s : σ} (h : guard s = false) (n : ℕ) :
    (pass guard body)^[n] s = s :=
  Function.iterate_fixed (pass_of_not_guard h) n

/-- A loop every pass of which lowers a measure leaves. -/
lemma terminates_of_measure {s : σ} (m : σ → ℕ) (P : σ → Prop) (hs : P s)
    (hstep : ∀ s, P s → guard s = true → P (body s) ∧ m (body s) < m s) :
    Terminates guard body s := by
  induction hn : m s using Nat.strong_induction_on generalizing s with
  | _ n ih =>
    cases hg : guard s with
    | false => exact ⟨0, hg⟩
    | true =>
      obtain ⟨hP, hlt⟩ := hstep s hs hg
      obtain ⟨k, hk⟩ := ih (m (body s)) (hn ▸ hlt) hP rfl
      exact ⟨k + 1, by rwa [Function.iterate_succ_apply, pass_of_guard hg]⟩

/-- A loop that keeps an invariant under which the guard is true never leaves. -/
lemma not_terminates_of_invariant {s : σ} {P : σ → Prop} (hs : P s)
    (hstep : ∀ s, P s → guard s = true ∧ P (body s)) : ¬ Terminates guard body s := by
  rintro ⟨n, hn⟩
  have hP : P ((pass guard body)^[n] s) := by
    clear hn
    induction n with
    | zero => exact hs
    | succ n ih =>
      rw [Function.iterate_succ_apply', pass_of_guard (hstep _ ih).1]
      exact (hstep _ ih).2
  rw [(hstep _ hP).1] at hn
  exact Bool.noConfusion hn

/-- The bounded loop returns a state exactly when some pass within the bound leaves there. -/
lemma whileFuel_eq_some_iff {n : ℕ} {s t : σ} :
    whileFuel guard body n s = some t ↔
      ∃ k < n, (pass guard body)^[k] s = t ∧ guard t = false := by
  induction n generalizing s with
  | zero => simp [whileFuel]
  | succ n ih =>
    cases hg : guard s with
    | false =>
      simp only [whileFuel, hg, Bool.false_eq_true, if_false, Option.some.injEq]
      constructor
      · rintro rfl
        exact ⟨0, Nat.succ_pos n, rfl, hg⟩
      · rintro ⟨k, -, hk, -⟩
        rwa [iterate_pass_of_not_guard hg] at hk
    | true =>
      simp only [whileFuel, hg, if_true, ih]
      constructor
      · rintro ⟨k, hk, hst, ht⟩
        exact ⟨k + 1, by omega, by rwa [Function.iterate_succ_apply, pass_of_guard hg], ht⟩
      · rintro ⟨k, hk, hst, ht⟩
        cases k with
        | zero =>
          rw [Function.iterate_zero, id] at hst
          rw [← hst, hg] at ht
          exact absurd ht (by simp)
        | succ k =>
          rw [Function.iterate_succ_apply, pass_of_guard hg] at hst
          exact ⟨k, by omega, hst, ht⟩

/-- A bounded loop that returns gives the same state whatever the bound. -/
lemma whileFuel_unique {n m : ℕ} {s t u : σ} (ht : whileFuel guard body n s = some t)
    (hu : whileFuel guard body m s = some u) : t = u := by
  obtain ⟨k, -, rfl, hk⟩ := whileFuel_eq_some_iff.mp ht
  obtain ⟨j, -, rfl, hj⟩ := whileFuel_eq_some_iff.mp hu
  rcases Nat.le_total k j with hkj | hjk
  · obtain ⟨d, rfl⟩ := Nat.exists_eq_add_of_le' hkj
    rw [Function.iterate_add_apply, iterate_pass_of_not_guard hk]
  · obtain ⟨d, rfl⟩ := Nat.exists_eq_add_of_le' hjk
    rw [Function.iterate_add_apply, iterate_pass_of_not_guard hj]

/-- A loop whose passes lower a measure returns within as many passes as the measure allows. -/
lemma whileFuel_of_measure {s : σ} (m : σ → ℕ)
    (hdec : ∀ n, guard ((pass guard body)^[n] s) = true →
      m ((pass guard body)^[n + 1] s) < m ((pass guard body)^[n] s)) :
    ∃ t, whileFuel guard body (m s + 1) s = some t ∧ guard t = false := by
  obtain ⟨k, hk, hguard⟩ : ∃ k < m s + 1, guard ((pass guard body)^[k] s) = false := by
    by_contra hnone
    push Not at hnone
    have hlower : ∀ n ≤ m s + 1, m ((pass guard body)^[n] s) + n ≤ m s := by
      intro n
      induction n with
      | zero => exact fun _ => Nat.le_refl _
      | succ n ih =>
        intro hn
        have hstep := hdec n (by simpa using hnone n (by omega))
        have hbefore := ih (by omega)
        omega
    have hlast := hlower (m s + 1) (Nat.le_refl _)
    omega
  exact ⟨_, whileFuel_eq_some_iff.mpr ⟨k, hk, rfl, hguard⟩, hguard⟩

/-- A loop seen through a projection that commutes with its guard and its body is the loop of the
projections. -/
lemma whileFuel_map {g : τ → Bool} {b : τ → τ} {view : σ → τ}
    (hguard : ∀ s, guard s = g (view s))
    (hbody : ∀ s, guard s = true → view (body s) = b (view s)) (n : ℕ) (s : σ) :
    (whileFuel guard body n s).map view = whileFuel g b n (view s) := by
  induction n generalizing s with
  | zero => rfl
  | succ n ih =>
    cases hg : guard s with
    | false =>
      have hg' : g (view s) = false := (hguard s).symm.trans hg
      simp [whileFuel, hg, hg']
    | true =>
      have hg' : g (view s) = true := (hguard s).symm.trans hg
      simp only [whileFuel, hg, hg', if_true, ih, hbody s hg]

/-- Two loops that agree as long as an invariant holds return the same. -/
lemma whileFuel_congr {g : σ → Bool} {b : σ → σ} {I : σ → Prop}
    (hguard : ∀ s, I s → guard s = g s)
    (hbody : ∀ s, I s → guard s = true → body s = b s ∧ I (body s)) (n : ℕ) {s : σ} (hs : I s) :
    whileFuel guard body n s = whileFuel g b n s := by
  induction n generalizing s with
  | zero => rfl
  | succ n ih =>
    cases hg : guard s with
    | false =>
      have hg' : g s = false := (hguard s hs).symm.trans hg
      simp [whileFuel, hg, hg']
    | true =>
      have hg' : g s = true := (hguard s hs).symm.trans hg
      obtain ⟨heq, hnext⟩ := hbody s hs hg
      simp only [whileFuel, hg, hg', if_true]
      rw [ih hnext, heq]

/-- What every pass of a loop does to a relation that composes, the whole loop does. -/
lemma whileFuel_rel {R : σ → σ → Prop} (hrefl : ∀ s, R s s)
    (htrans : ∀ s t u, R s t → R t u → R s u) (hbody : ∀ s, guard s = true → R s (body s)) {n : ℕ}
    {s t : σ} (h : whileFuel guard body n s = some t) : R s t := by
  induction n generalizing s with
  | zero => simp [whileFuel] at h
  | succ n ih =>
    cases hg : guard s with
    | false =>
      obtain rfl : s = t := by simpa [whileFuel, hg] using h
      exact hrefl s
    | true =>
      rw [whileFuel, hg, if_pos rfl] at h
      exact htrans s (body s) t (hbody s hg) (ih h)

/-- The passes of a loop seen through a projection that commutes with its guard and its body. -/
lemma iterate_pass_map {guard' : τ → Bool} {body' : τ → τ} {view : σ → τ}
    (hguard : ∀ s, guard s = guard' (view s))
    (hbody : ∀ s, guard s = true → view (body s) = body' (view s)) (n : ℕ) (s : σ) :
    view ((pass guard body)^[n] s) = (pass guard' body')^[n] (view s) := by
  induction n generalizing s with
  | zero => rfl
  | succ n ih =>
    rw [Function.iterate_succ_apply, Function.iterate_succ_apply, ih]
    congr 1
    cases hg : guard s with
    | false =>
      rw [pass_of_not_guard hg, pass_of_not_guard ((hguard s).symm.trans hg)]
    | true =>
      rw [pass_of_guard hg, pass_of_guard ((hguard s).symm.trans hg), hbody s hg]

end While

/-! ### Loops that may fail -/

section Loops

variable {α β ι ε : Type*} {f : σ → ι → Except ε σ}

/-- A computation that returns goes on with what its first part returns. -/
lemma bind_eq_ok {x : Except ε α} {g : α → Except ε β} {b : β} :
    x.bind g = .ok b ↔ ∃ a, x = .ok a ∧ g a = .ok b := by
  constructor
  · intro h
    cases x with
    | error e => cases h
    | ok a => exact ⟨a, rfl, h⟩
  · rintro ⟨a, rfl, h⟩
    exact h

/-- A computation and what it is mapped to return together. -/
lemma map_eq_ok {x : Except ε α} {g : α → β} {b : β} :
    x.map g = .ok b ↔ ∃ a, x = .ok a ∧ g a = b := by
  constructor
  · intro h
    cases x with
    | error e => cases h
    | ok a => exact ⟨a, rfl, Except.ok.inj h⟩
  · rintro ⟨a, rfl, rfl⟩
    rfl

/-- A computation and what it is mapped to fail together. -/
lemma exists_map_ok_iff {x : Except ε α} {g : α → β} :
    (∃ b, x.map g = .ok b) ↔ ∃ a, x = .ok a := by
  constructor
  · rintro ⟨b, h⟩
    obtain ⟨a, ha, -⟩ := map_eq_ok.mp h
    exact ⟨a, ha⟩
  · rintro ⟨a, ha⟩
    exact ⟨g a, map_eq_ok.mpr ⟨a, ha, rfl⟩⟩

/-- A computation fails in its first part or in the rest. -/
lemma bind_eq_error {x : Except ε α} {g : α → Except ε β} {e : ε} :
    x.bind g = .error e ↔ x = .error e ∨ ∃ a, x = .ok a ∧ g a = .error e := by
  cases x with
  | error e' =>
    refine ⟨fun h => Or.inl (congrArg Except.error (Except.error.inj h)), ?_⟩
    rintro (h | ⟨a, h, -⟩)
    · exact congrArg Except.error (Except.error.inj h)
    · cases h
  | ok a =>
    refine ⟨fun h => Or.inr ⟨a, rfl, h⟩, ?_⟩
    rintro (h | ⟨b, h, hb⟩)
    · cases h
    · obtain rfl := Except.ok.inj h
      exact hb

/-- What is mapped fails as before. -/
lemma map_eq_error {x : Except ε α} {g : α → β} {e : ε} :
    x.map g = .error e ↔ x = .error e := by
  cases x with
  | error e' => exact ⟨fun h => congrArg Except.error (Except.error.inj h),
      fun h => congrArg Except.error (Except.error.inj h)⟩
  | ok a => exact iff_of_false (fun h => by cases h) (fun h => by cases h)

/-- A loop whose passes fail or not whatever the state returns exactly when none of them fails. -/
lemma exists_foldlM_ok_iff {Q : ι → Prop} (h : ∀ s x, (∃ t, f s x = .ok t) ↔ Q x) (xs : List ι)
    (s : σ) : (∃ t, xs.foldlM f s = .ok t) ↔ ∀ x ∈ xs, Q x := by
  induction xs generalizing s with
  | nil => exact iff_of_true ⟨s, rfl⟩ (by simp)
  | cons x xs ih =>
    rw [List.forall_mem_cons, ← h s x, List.foldlM_cons]
    cases hx : f s x with
    | error e =>
      refine iff_of_false ?_ ?_
      · rintro ⟨t, ht⟩
        cases ht
      · rintro ⟨⟨t, ht⟩, -⟩
        cases ht
    | ok t =>
      rw [← ih t]
      exact (and_iff_right ⟨t, rfl⟩).symm

/-- A loop every pass of which is a run is a run. -/
lemma run_of_foldlM_ok {step : σ → ℓ → σ} {g : ι → List ℓ} {I : σ → Prop}
    (h : ∀ s x t, I s → f s x = .ok t → t = run step s (g x) ∧ I t) {xs : List ι} {s t : σ}
    (hs : I s) (hfold : xs.foldlM f s = .ok t) : t = run step s (xs.flatMap g) := by
  induction xs generalizing s with
  | nil =>
    obtain rfl : s = t := Except.ok.inj hfold
    rfl
  | cons x xs ih =>
    rw [List.foldlM_cons] at hfold
    obtain ⟨u, hx, hrest⟩ := bind_eq_ok.mp hfold
    obtain ⟨rfl, hu⟩ := h s x u hs hx
    rw [List.flatMap_cons, run_append]
    exact ih hu hrest

/-- A loop every pass of which is a step of a relation makes steps of that relation. -/
lemma reflTransGen_of_foldlM_ok {R : σ → σ → Prop} {xs : List ι}
    (h : ∀ s, ∀ x ∈ xs, ∀ t, f s x = .ok t → R s t) {s t : σ} (hfold : xs.foldlM f s = .ok t) :
    Relation.ReflTransGen R s t := by
  induction xs generalizing s with
  | nil =>
    obtain rfl : s = t := Except.ok.inj hfold
    exact Relation.ReflTransGen.refl
  | cons x xs ih =>
    rw [List.foldlM_cons] at hfold
    obtain ⟨u, hx, hrest⟩ := bind_eq_ok.mp hfold
    exact Relation.ReflTransGen.head (h s x List.mem_cons_self u hx)
      (ih (fun s' y hy => h s' y (List.mem_cons_of_mem x hy)) hrest)

/-- A loop fails with the first of its passes that does. -/
lemma foldlM_eq_error_iff {e : ε} {xs : List ι} {s : σ} :
    xs.foldlM f s = .error e ↔
      ∃ pre x post t, xs = pre ++ x :: post ∧ pre.foldlM f s = .ok t ∧ f t x = .error e := by
  induction xs generalizing s with
  | nil =>
    refine iff_of_false (fun h => by cases h) ?_
    rintro ⟨pre, x, post, t, hsplit, -⟩
    simp at hsplit
  | cons x xs ih =>
    rw [List.foldlM_cons]
    constructor
    · intro h
      cases hx : f s x with
      | error e' =>
        rw [hx] at h
        obtain rfl : e' = e := Except.error.inj h
        exact ⟨[], x, xs, s, rfl, rfl, hx⟩
      | ok u =>
        rw [hx] at h
        obtain ⟨pre, y, post, t, rfl, hpre, hy⟩ := ih.mp h
        refine ⟨x :: pre, y, post, t, rfl, ?_, hy⟩
        rw [List.foldlM_cons, hx]
        exact hpre
    · rintro ⟨pre, y, post, t, hsplit, hpre, hy⟩
      rcases List.cons_eq_append_iff.mp hsplit with ⟨rfl, hcons⟩ | ⟨pre, rfl, rfl⟩
      · obtain ⟨rfl, rfl⟩ := List.cons.inj hcons
        obtain rfl : s = t := Except.ok.inj hpre
        rw [hy]
        rfl
      · rw [List.foldlM_cons] at hpre
        obtain ⟨u, hx, hrest⟩ := bind_eq_ok.mp hpre
        rw [hx]
        exact ih.mpr ⟨pre, y, post, t, rfl, hrest, hy⟩

end Loops

/-! ### Histories -/

section History

variable {ε : Type*}

/-- Every event of the history is admissible after the events before it. -/
def Each (ok : List ε → ε → Prop) (tr : List ε) : Prop :=
  ∀ pre e post, tr = pre ++ e :: post → ok pre e

/-- The empty history has nothing to admit. -/
@[simp] lemma each_nil (ok : List ε → ε → Prop) : Each ok [] := by
  intro pre e post h
  simp at h

/-- Appending an event asks for its admissibility and nothing else. -/
lemma each_concat {ok : List ε → ε → Prop} {tr : List ε} {e : ε} :
    Each ok (tr ++ [e]) ↔ Each ok tr ∧ ok tr e := by
  constructor
  · intro h
    refine ⟨fun pre x post hx => h pre x (post ++ [e]) (by rw [hx]; simp), ?_⟩
    exact h tr e [] rfl
  · rintro ⟨htr, he⟩ pre x post hx
    rcases List.eq_nil_or_concat post with rfl | ⟨post, y, rfl⟩
    · obtain ⟨rfl, hxe⟩ := List.append_inj' hx rfl
      obtain rfl : e = x := by simpa using hxe
      exact he
    · have hx' : tr ++ [e] = (pre ++ x :: post) ++ [y] := by simpa using hx
      obtain ⟨rfl, -⟩ := List.append_inj' hx' rfl
      exact htr pre x post rfl

/-- Events that are admissible after every continuation of a history can be appended to it. -/
lemma each_append_of_forall {ok : List ε → ε → Prop} {tr es : List ε}
    (h : ∀ pre, tr <+: pre → ∀ e ∈ es, ok pre e) : Each ok (tr ++ es) ↔ Each ok tr := by
  induction es using List.reverseRecOn with
  | nil => simp
  | append_singleton es e ih =>
    have hes : ∀ pre, tr <+: pre → ∀ x ∈ es, ok pre x := fun pre hpre x hx =>
      h pre hpre x (by simp [hx])
    rw [← List.append_assoc, each_concat, ih hes]
    exact and_iff_left (h _ (List.prefix_append tr es) e (by simp))

variable [DecidableEq ε]

/-- The events of a history after the last occurrence of `mark`. -/
def since (mark : ε) (tr : List ε) : List ε :=
  tr.foldl (fun acc e => if e = mark then [] else acc ++ [e]) []

/-- Nothing happened since the beginning of the empty history. -/
@[simp] lemma since_nil (mark : ε) : since mark [] = [] := rfl

/-- The mark starts afresh. -/
@[simp] lemma since_concat_mark (mark : ε) (tr : List ε) : since mark (tr ++ [mark]) = [] := by
  simp [since]

/-- Events that are not the mark are appended. -/
lemma since_append {mark : ε} {es : List ε} (hes : mark ∉ es) (tr : List ε) :
    since mark (tr ++ es) = since mark tr ++ es := by
  induction es using List.reverseRecOn with
  | nil => simp
  | append_singleton es e ih =>
    have hne : e ≠ mark := fun h => hes (by simp [h])
    have hfold : since mark (tr ++ es ++ [e]) = since mark (tr ++ es) ++ [e] := by
      simp [since, hne]
    rw [← List.append_assoc, hfold, ih fun h => hes (List.mem_append_left _ h), List.append_assoc]

end History

end Transition
