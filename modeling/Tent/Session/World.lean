import Tent.Agent.Effects

/-!
# The session

`session` owns the agents, one for each peer that the tracker named, and what they share.  A `World`
is the session with all its agents; its steps are the steps of single agents, in any order.

What one agent does touches the others only through the shared handler, reactor and timer.  So a
property of single agents that a step of an agent keeps exactly under some condition, whatever is
shared, holds of all agents along a run exactly when all steps of the run meet the condition
(`along_iff_meets_agents`).
-/

set_option autoImplicit false

namespace Tent

open Transition

/-- A session: its agents by number, and what they share. -/
structure World where
  /-- `agents_`. -/
  agents : ℕ → Agent
  /-- The handler, the reactor and the timer. -/
  shared : Shared

/-- A peer that the tracker named, with the descriptor that its agent gets and the answer of its
first `connect`. -/
structure Peer where
  /-- `peer_info::id_`. -/
  id : PeerId
  /-- The descriptor of the first socket. -/
  fd : ℕ
  /-- Whether the first `connect` succeeds at once. -/
  success : Bool
deriving DecidableEq, Repr

namespace World

/-- An agent in its surroundings. -/
def ctx (w : World) (i : ℕ) : Ctx := ⟨i, w.agents i, w.shared⟩

/-- Put an agent and what it shares back. -/
def put (w : World) (i : ℕ) (c : Ctx) : World := ⟨Function.update w.agents i c.agent, c.shared⟩

/-- The agent that was put back. -/
lemma put_agents_self (w : World) (i : ℕ) (c : Ctx) : (w.put i c).agents i = c.agent :=
  Function.update_self _ _ _

/-- Putting an agent back leaves the others alone. -/
lemma put_agents_of_ne (w : World) (c : Ctx) {i j : ℕ} (hj : j ≠ i) :
    (w.put i c).agents j = w.agents j :=
  Function.update_of_ne hj _ _

/-- The surroundings of an agent that was put back. -/
lemma ctx_put_self (w : World) {i : ℕ} {c : Ctx} (hc : c.self = i) : (w.put i c).ctx i = c := by
  unfold ctx
  rw [put_agents_self, ← hc]
  rfl

variable {Digest : Type*} (env : AgentEnv Digest)

/-- The loop of `session::start` over the peers, numbered from `i` on. -/
def createAgents : List Peer → ℕ → World → World
  | [], _, w => w
  | peer :: peers, i, w =>
    createAgents peers (i + 1)
      (w.put i (Ctx.create env peer.fd peer.success ⟨i, Agent.idle peer.id, w.shared⟩))

/-- The session after its start. -/
def create (peers : List Peer) : World :=
  createAgents env peers 0 ⟨fun _ => Agent.idle [], Shared.initial env.toEnv⟩

variable [DecidableEq Digest]

/-- One step of one agent. -/
def step (w : World) (label : ℕ × Label) : World :=
  w.put label.1 ((w.ctx label.1).step env label.2)

variable {env}

variable (env) in
/-- A step of an agent changes no other agent. -/
lemma step_agents_of_ne {w : World} {label : ℕ × Label} {i : ℕ} (hi : i ≠ label.1) :
    (w.step env label).agents i = w.agents i :=
  put_agents_of_ne w _ hi

variable (env) in
/-- What a step does to its own agent. -/
lemma step_agents_self (w : World) (label : ℕ × Label) :
    (w.step env label).agents label.1 = ((w.ctx label.1).step env label.2).agent :=
  put_agents_self w label.1 _

/-- The surroundings of an agent after its own step. -/
lemma ctx_step_self (w : World) (i : ℕ) (l : Label) :
    (w.step env (i, l)).ctx i = (w.ctx i).step env l :=
  ctx_put_self w (Ctx.step_self l _)

omit [DecidableEq Digest] in
/-- What holds of agents before and after their constructors holds of all agents of a new
session. -/
lemma forall_agents_create {P : Agent → Prop} (hidle : ∀ peerId, P (Agent.idle peerId))
    (hcreate : ∀ i peerId shared fd success,
      P (Ctx.create env fd success ⟨i, Agent.idle peerId, shared⟩).agent) (peers : List Peer) :
    ∀ i, P ((create env peers).agents i) := by
  have hall : ∀ (peers : List Peer) (i : ℕ) (w : World), (∀ j, P (w.agents j)) →
      ∀ j, P ((createAgents env peers i w).agents j) := by
    intro peers
    induction peers with
    | nil => exact fun _ _ hw => hw
    | cons peer peers ih =>
      intro i w hw
      refine ih (i + 1) _ fun j => ?_
      by_cases hj : j = i
      · subst hj
        rw [put_agents_self]
        exact hcreate j peer.id w.shared peer.fd peer.success
      · rw [put_agents_of_ne _ _ hj]
        exact hw j
  exact hall peers 0 _ fun _ => hidle []

/-- Exactness for all agents of a session: if in good states a property of an agent survives a step
exactly when the step meets a condition, then it holds of all agents along a run exactly when all
steps of the run meet the condition. -/
theorem along_iff_meets_agents {V : Label → Prop} {I P : Agent → Prop}
    {C : Ctx → Label → Prop}
    (hexact : ∀ c l, V l → I c.agent → P c.agent → (P (c.step env l).agent ↔ C c l))
    (hinv : ∀ c l, V l → I c.agent → P c.agent → C c l → I (c.step env l).agent)
    {w : World} {labels : List (ℕ × Label)} (hV : ∀ label ∈ labels, V label.2)
    (hw : ∀ i, I (w.agents i)) (hp : ∀ i, P (w.agents i)) :
    Along (step env) (fun w => ∀ i, P (w.agents i)) w labels ↔
      Meets (step env) (fun w label => C (w.ctx label.1) label.2) w labels := by
  refine along_iff_meets (V := fun label => V label.2) (I := fun w => ∀ i, I (w.agents i))
    ?_ ?_ hV hw hp
  · intro w label hl hw hp
    have hself := hexact (w.ctx label.1) label.2 hl (hw label.1) (hp label.1)
    rw [← hself, ← step_agents_self]
    refine ⟨fun h => h label.1, fun h i => ?_⟩
    by_cases hi : i = label.1
    · rw [hi]
      exact h
    · rw [step_agents_of_ne env hi]
      exact hp i
  · intro w label hl hw hp hC i
    by_cases hi : i = label.1
    · rw [hi, step_agents_self]
      exact hinv (w.ctx label.1) label.2 hl (hw label.1) (hp label.1) hC
    · rw [step_agents_of_ne env hi]
      exact hw i

end World

end Tent
