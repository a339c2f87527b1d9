import Tent.Foundation.Transition

/-!
# Systems that drive other systems

A step of a system may put out steps for another one: the labels of the other system, in order,
none at all if the step means nothing to it.  `outputs step out s ls` are the labels that a whole
run puts out, and `run_simulates` says that a relation between the two systems which survives every
step, with what the step puts out, survives every run.

In a system of several threads a step may be disabled: `runs step s ls` is the state after the
labels `ls`, if each of them was enabled in its turn.  Invariants survive such runs
(`runs_invariant`), and a rank that some of the steps lower bounds how often they can be taken
(`countP_add_rank_le`).

A component that is asked and answers is known by its answers: `dialogue ask s ks` are the answers
to the requests `ks`, one after another, and `dialogue_simulates` says that a component which
answers every request as another one does answers every list of requests so.
-/

set_option autoImplicit false

namespace Transition

variable {σ ℓ τ κ : Type*}

/-- What the steps of a run put out, in order. -/
def outputs (step : σ → ℓ → σ) (out : σ → ℓ → List κ) : σ → List ℓ → List κ
  | _, [] => []
  | s, l :: ls => out s l ++ outputs step out (step s l) ls

variable {step : σ → ℓ → σ} {out : σ → ℓ → List κ}

/-- What a run over a concatenation puts out. -/
lemma outputs_append (s : σ) (ls ks : List ℓ) :
    outputs step out s (ls ++ ks) =
      outputs step out s ls ++ outputs step out (run step s ls) ks := by
  induction ls generalizing s with
  | nil => rfl
  | cons l ls ih => rw [List.cons_append, outputs, outputs, ih, run_cons, List.append_assoc]

/-- A run puts out what its first part puts out, and goes on. -/
lemma outputs_isPrefix (s : σ) {pre ls : List ℓ} (hpre : pre <+: ls) :
    outputs step out s pre <+: outputs step out s ls := by
  obtain ⟨post, rfl⟩ := hpre
  rw [outputs_append]
  exact List.prefix_append _ _

/-- A relation that every step keeps, when the other system takes the steps that it puts out,
relates the ends of a run and of the run that it puts out. -/
theorem run_simulates {step' : τ → κ → τ} {ok : κ → Prop} {R : σ → τ → Prop}
    (hstep : ∀ s t l, (∀ x ∈ out s l, ok x) → R s t → R (step s l) (run step' t (out s l)))
    {s : σ} {t : τ} {ls : List ℓ} (hok : ∀ x ∈ outputs step out s ls, ok x) (h : R s t) :
    R (run step s ls) (run step' t (outputs step out s ls)) := by
  induction ls generalizing s t with
  | nil => exact h
  | cons l ls ih =>
    rw [outputs] at hok ⊢
    rw [run_append, run_cons]
    exact ih (fun x hx => hok x (List.mem_append_right _ hx))
      (hstep s t l (fun x hx => hok x (List.mem_append_left _ hx)) h)

/-! ### Steps that may be disabled -/

/-- The state reached from `s` by the labels `ls`; none if one of them is disabled. -/
def runs (step : σ → ℓ → Option σ) : σ → List ℓ → Option σ
  | s, [] => some s
  | s, l :: ls => (step s l).bind fun t => runs step t ls

section Runs

variable {step : σ → ℓ → Option σ} {s t : σ} {l : ℓ} {ls : List ℓ}

/-- The empty run stays where it is. -/
@[simp] lemma runs_nil (step : σ → ℓ → Option σ) (s : σ) : runs step s [] = some s := rfl

/-- A run makes its first step first. -/
lemma runs_cons_eq_some :
    runs step s (l :: ls) = some t ↔ ∃ u, step s l = some u ∧ runs step u ls = some t :=
  Option.bind_eq_some_iff

/-- A run is made in two parts. -/
lemma runs_append (h : runs step s ls = some t) (more : List ℓ) :
    runs step s (ls ++ more) = runs step t more := by
  induction ls generalizing s with
  | nil =>
    obtain rfl := Option.some.inj h
    rfl
  | cons l ls ih =>
    obtain ⟨u, hu, hrest⟩ := runs_cons_eq_some.mp h
    rw [← ih hrest, List.cons_append, runs, hu, Option.bind_some]

/-- What every enabled step keeps survives every run. -/
theorem runs_invariant {P : σ → Prop} (hstep : ∀ s l t, P s → step s l = some t → P t)
    (hs : P s) (h : runs step s ls = some t) : P t := by
  induction ls generalizing s with
  | nil => exact Option.some.inj h ▸ hs
  | cons l ls ih =>
    obtain ⟨u, hu, hrest⟩ := runs_cons_eq_some.mp h
    exact ih (hstep s l u hs hu) hrest

/-- If the steps with some labels lower a rank and the others do not raise it, a run has at most as
many such labels as the rank allows. -/
theorem countP_add_rank_le {P : σ → Prop} (p : ℓ → Bool) (rank : σ → ℕ)
    (hstep : ∀ s l t, P s → step s l = some t →
      P t ∧ (if p l then rank t < rank s else rank t ≤ rank s))
    (hs : P s) (h : runs step s ls = some t) : ls.countP p + rank t ≤ rank s := by
  induction ls generalizing s with
  | nil =>
    obtain rfl := Option.some.inj h
    simp
  | cons l ls ih =>
    obtain ⟨u, hu, hrest⟩ := runs_cons_eq_some.mp h
    obtain ⟨hP, hrank⟩ := hstep s l u hs hu
    have hle := ih hP hrest
    rw [List.countP_cons]
    split_ifs at hrank ⊢ <;> omega

/-- A run drives another system if every enabled step does. -/
theorem runs_simulates {step' : τ → κ → τ} (out : ℓ → List κ) (f : σ → τ)
    (hstep : ∀ s l t, step s l = some t → f t = run step' (f s) (out l))
    (h : runs step s ls = some t) : f t = run step' (f s) (ls.flatMap out) := by
  induction ls generalizing s with
  | nil =>
    obtain rfl := Option.some.inj h
    rfl
  | cons l ls ih =>
    obtain ⟨u, hu, hrest⟩ := runs_cons_eq_some.mp h
    rw [ih hrest, hstep s l u hu, List.flatMap_cons, run_append]

end Runs

/-! ### Requests and answers -/

/-- The answers to a list of requests and the state after them; none if one is not answered. -/
def dialogue {ρ : Type*} (ask : σ → κ → Option (ρ × σ)) : σ → List κ → Option (List ρ × σ)
  | s, [] => some ([], s)
  | s, k :: ks =>
    (ask s k).bind fun (r, t) => (dialogue ask t ks).map fun (rs, u) => (r :: rs, u)

/-- Whoever gives each answer that another one gives gives all of them. -/
theorem dialogue_simulates {ρ : Type*} {ask : σ → κ → Option (ρ × σ)}
    {ask' : τ → κ → Option (ρ × τ)} {R : σ → τ → Prop}
    (hask : ∀ s t k r t', R s t → ask' t k = some (r, t') → ∃ s', ask s k = some (r, s') ∧ R s' t')
    {s : σ} {t t' : τ} {ks : List κ} {rs : List ρ} (h : R s t)
    (hrs : dialogue ask' t ks = some (rs, t')) :
    ∃ s', dialogue ask s ks = some (rs, s') ∧ R s' t' := by
  induction ks generalizing s t rs with
  | nil =>
    obtain ⟨rfl, rfl⟩ := Prod.mk.inj (Option.some.inj hrs)
    exact ⟨s, rfl, h⟩
  | cons k ks ih =>
    obtain ⟨⟨r, u⟩, hr, hrest⟩ := Option.bind_eq_some_iff.mp hrs
    obtain ⟨⟨rs', u'⟩, hrs', heq⟩ := Option.map_eq_some_iff.mp hrest
    obtain ⟨rfl, rfl⟩ := Prod.mk.inj heq
    obtain ⟨v, hv, hR⟩ := hask s t k r u h hr
    obtain ⟨s', hs', hR'⟩ := ih hR hrs'
    exact ⟨s', by simp only [dialogue, hv, hs', Option.bind_some, Option.map_some], hR'⟩

end Transition
