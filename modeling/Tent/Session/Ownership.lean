import Tent.Agent.Registration
import Tent.Session.World

/-!
# Who owns an agent

The reactor and the timer are what drives the agents of a session: an agent that neither of them
knows is dead, and one that both know is driven twice.  A `Session` is a world together with the
number of its agents, so that agents can be constructed at any time of a run.

The invariant `Owned` says that every agent is live under its own descriptor or waits for a timeout,
and that the reactor knows of nothing else.  It is kept by every step whose new descriptors are
free, as those that `socket` returns are.  Two results are read off it: `agents_owned_once`, and
`no_lost_wakeup` about the masks that `epoll` was given.
-/

set_option autoImplicit false

namespace Tent

open Transition

/-- A session with the number of the agents that were constructed. -/
structure Session where
  /-- The agents and what they share. -/
  world : World
  /-- The number of agents. -/
  count : ℕ

/-- What can happen to a session. -/
inductive SessionLabel where
  /-- An agent is constructed. -/
  | construct (peer : Peer)
  /-- A step of an agent. -/
  | agent (i : ℕ) (label : Label)
deriving DecidableEq, Repr

namespace Session

variable {Digest : Type*} (env : AgentEnv Digest)

/-- A session without agents. -/
def initial : Session := ⟨⟨fun _ => Agent.idle [], Shared.initial env.toEnv⟩, 0⟩

/-- The constructor of the next agent. -/
def construct (peer : Peer) (s : Session) : Session :=
  ⟨s.world.put s.count
    (Ctx.create env peer.fd peer.success ⟨s.count, Agent.idle peer.id, s.world.shared⟩),
    s.count + 1⟩

variable [DecidableEq Digest]

/-- One step of a session. -/
def step (s : Session) : SessionLabel → Session
  | .construct peer => s.construct env peer
  | .agent i label => if i < s.count then ⟨s.world.step env (i, label), s.count⟩ else s

/-- A descriptor that `socket` returns is not open: no agent has it. -/
def FreshFd (s : Session) : SessionLabel → Prop
  | .construct peer => ∀ j, (s.world.agents j).fd ≠ some peer.fd
  | .agent _ (.timeout fd _) => ∀ j, (s.world.agents j).fd ≠ some fd
  | .agent _ _ => True

/-- Constructing an agent for each peer is the start of the session. -/
lemma run_construct (peers : List Peer) :
    run (step env) (initial env) (peers.map .construct) =
      ⟨World.create env peers, peers.length⟩ := by
  have hall : ∀ (peers : List Peer) (s : Session),
      run (step env) s (peers.map .construct) =
        ⟨World.createAgents env peers s.count s.world, s.count + peers.length⟩ := by
    intro peers
    induction peers with
    | nil => exact fun _ => rfl
    | cons peer peers ih =>
      intro s
      rw [List.map_cons, run_cons, ih, List.length_cons]
      change (⟨_, s.count + 1 + peers.length⟩ : Session) = _
      rw [Nat.add_assoc, Nat.add_comm 1]
      rfl
  rw [hall, show (initial env).count = 0 from rfl, Nat.zero_add]
  rfl

end Session

/-- Every agent is owned by the reactor or by the timer, and the reactor knows of nothing else. -/
structure Session.Owned (s : Session) : Prop where
  /-- Every agent is live or waits. -/
  agent : ∀ i < s.count, (∃ fd, (s.world.ctx i).Live fd) ∨ (s.world.ctx i).Waiting
  /-- The entries of `clients_` are agents with their descriptors. -/
  client : ∀ fd i, s.world.shared.reactor.clients fd = some i →
    i < s.count ∧ (s.world.agents i).fd = some fd
  /-- The interest list has no other entries. -/
  mask : ∀ fd, s.world.shared.reactor.clients fd = none → s.world.shared.reactor.epoll fd = none
  /-- The timer has no other entries. -/
  timer : ∀ i ∈ s.world.shared.timer.clients, i < s.count

namespace Session

variable {Digest : Type*} {env : AgentEnv Digest}

/-- A new session owns nothing. -/
lemma owned_initial : (initial env).Owned where
  agent i hi := absurd hi (Nat.not_lt_zero i)
  client fd i h := by simp [initial, Shared.initial] at h
  mask fd _ := rfl
  timer i hi := by simp [initial, Shared.initial] at hi

/-- An agent that was spared is live under its descriptor or waits as before. -/
lemma spared {s : Session} {c c' : Ctx} {fd j : ℕ} (hspares : c.Spares fd c')
    (hshared : c.shared = s.world.shared) (hj : j ≠ c.self)
    (hfd : s.world.shared.reactor.clients fd ≠ some j)
    (h : (∃ g, (s.world.ctx j).Live g) ∨ (s.world.ctx j).Waiting) :
    (∃ g, Ctx.Live g ⟨j, s.world.agents j, c'.shared⟩) ∨
      Ctx.Waiting ⟨j, s.world.agents j, c'.shared⟩ := by
  have htimer : c'.shared.timer.clients.count j = s.world.shared.timer.clients.count j := by
    rw [hspares.timer j hj, hshared]
  rcases h with ⟨g, hlive⟩ | hwaiting
  · have hg : g ≠ fd := by
      rintro rfl
      exact hfd hlive.client
    refine .inl ⟨g, ⟨hlive.fd_eq, ?_, ?_, hlive.epollin, ?_⟩, hlive.epollout⟩
    · change c'.shared.reactor.clients g = some j
      rw [hspares.clients g hg, hshared]
      exact hlive.client
    · change c'.shared.reactor.epoll g = _
      rw [hspares.epoll g hg, hshared]
      exact hlive.mask
    · have hzero : s.world.shared.timer.clients.count j = 0 :=
        List.count_eq_zero.mpr hlive.notMem_timer
      exact List.count_eq_zero.mp (htimer.trans hzero)
  · exact .inr ⟨hwaiting.fd_eq, hwaiting.connected, hwaiting.reading, htimer.trans hwaiting.timer⟩

/-- Putting an agent back that is live under its descriptor, or waits and has left it, when nothing
happened to the others. -/
lemma Owned.put {s : Session} (hs : s.Owned) {i count fd : ℕ} {c c' : Ctx}
    (hcount : s.count ≤ count) (hi : i < count) (hnew : ∀ j < count, j ≠ i → j < s.count)
    (hself : c.self = i) (hshared : c.shared = s.world.shared) (hspares : c.Spares fd c')
    (hfd : ∀ j ≠ i, s.world.shared.reactor.clients fd ≠ some j)
    (hother : ∀ g ≠ fd, s.world.shared.reactor.clients g ≠ some i)
    (hc : c'.Live fd ∨ c'.Waiting ∧ c'.Unlisted fd) :
    (⟨s.world.put i c', count⟩ : Session).Owned := by
  have hself' : c'.self = i := hspares.self.trans hself
  constructor
  · intro j hj
    by_cases hji : j = i
    · subst hji
      change (∃ fd, ((s.world.put j c').ctx j).Live fd) ∨ ((s.world.put j c').ctx j).Waiting
      rw [World.ctx_put_self s.world hself']
      exact hc.imp (fun hlive => ⟨fd, hlive⟩) And.left
    · have hspared := spared hspares hshared (by rwa [hself]) (hfd j hji)
        (hs.agent j (hnew j hj hji))
      rw [← World.put_agents_of_ne s.world c' hji] at hspared
      exact hspared
  · intro g j hg
    change c'.shared.reactor.clients g = some j at hg
    by_cases hgf : g = fd
    · subst hgf
      rcases hc with hlive | ⟨-, hfree⟩
      · rw [hlive.client, hself', Option.some.injEq] at hg
        subst hg
        exact ⟨hi, by rw [World.put_agents_self, hlive.fd_eq]⟩
      · rw [hfree.client] at hg
        exact absurd hg (by simp)
    · rw [hspares.clients g hgf, hshared] at hg
      have hji : j ≠ i := by
        rintro rfl
        exact hother g hgf hg
      obtain ⟨hlt, hjfd⟩ := hs.client g j hg
      exact ⟨Nat.lt_of_lt_of_le hlt hcount, by rw [World.put_agents_of_ne _ _ hji, hjfd]⟩
  · intro g hg
    change c'.shared.reactor.clients g = none at hg
    change c'.shared.reactor.epoll g = none
    by_cases hgf : g = fd
    · subst hgf
      rcases hc with hlive | ⟨-, hfree⟩
      · rw [hlive.client] at hg
        exact absurd hg (by simp)
      · exact hfree.mask
    · rw [hspares.clients g hgf, hshared] at hg
      rw [hspares.epoll g hgf, hshared]
      exact hs.mask g hg
  · intro j hj
    change j ∈ c'.shared.timer.clients at hj
    by_cases hji : j = i
    · exact hji ▸ hi
    · rw [← List.count_pos_iff, hspares.timer j (by rwa [hself]), hshared,
        List.count_pos_iff] at hj
      exact Nat.lt_of_lt_of_le (hs.timer j hj) hcount

/-- A descriptor that no agent has is listed nowhere. -/
lemma Owned.unlisted {s : Session} (hs : s.Owned) {fd : ℕ}
    (hfresh : ∀ j, (s.world.agents j).fd ≠ some fd) :
    s.world.shared.reactor.clients fd = none ∧ s.world.shared.reactor.epoll fd = none := by
  have hclient : s.world.shared.reactor.clients fd = none := by
    cases hcase : s.world.shared.reactor.clients fd with
    | none => rfl
    | some j => exact absurd (hs.client fd j hcase).2 (hfresh j)
  exact ⟨hclient, hs.mask fd hclient⟩

/-- What is registered under a descriptor is a live agent. -/
lemma Owned.live {s : Session} (hs : s.Owned) {fd i : ℕ}
    (hclient : s.world.shared.reactor.clients fd = some i) :
    i < s.count ∧ (s.world.ctx i).Live fd := by
  obtain ⟨hi, hfd⟩ := hs.client fd i hclient
  rcases hs.agent i hi with ⟨g, hlive⟩ | hwaiting
  · obtain rfl : g = fd := Option.some.inj (hlive.fd_eq.symm.trans hfd)
    exact ⟨hi, hlive⟩
  · exact absurd (hwaiting.fd_eq.symm.trans hfd) (by simp)

variable [DecidableEq Digest]

/-- A step of a live agent keeps every agent owned. -/
lemma Owned.step_live {s : Session} (hs : s.Owned) {i fd : ℕ} (hi : i < s.count)
    (hlive : (s.world.ctx i).Live fd) (label : Label) :
    (⟨s.world.step env (i, label), s.count⟩ : Session).Owned := by
  obtain ⟨hspares, hnext⟩ := hlive.step env label
  have hclient : s.world.shared.reactor.clients fd = some i := hlive.client
  refine hs.put (Nat.le_refl _) hi (fun _ hj _ => hj) ?_ ?_ hspares ?_ ?_ hnext
  · rfl
  · rfl
  · intro j hj hcon
    rw [hclient, Option.some.injEq] at hcon
    exact hj hcon.symm
  · intro g hg hcon
    have hsame := (hs.client g i hcon).2.symm.trans hlive.fd_eq
    exact hg (Option.some.inj hsame)

/-- A waiting agent changes nothing but when it times out. -/
lemma step_of_waiting {w : World} {i : ℕ} (hwaiting : (w.ctx i).Waiting) {label : Label}
    (hl : ∀ fd success, label ≠ .timeout fd success) : w.step env (i, label) = w := by
  have hstay : (w.ctx i).step env label = w.ctx i := Ctx.step_of_waiting hwaiting hl
  unfold World.step World.put
  rw [hstay]
  exact congrArg₂ World.mk (Function.update_eq_self i _) rfl

/-- A step of a waiting agent keeps every agent owned. -/
lemma Owned.step_waiting {s : Session} (hs : s.Owned) {i : ℕ} (hi : i < s.count)
    (hwaiting : (s.world.ctx i).Waiting) {label : Label} (hl : s.FreshFd (.agent i label)) :
    (⟨s.world.step env (i, label), s.count⟩ : Session).Owned := by
  by_cases htimeout : ∃ fd success, label = .timeout fd success
  · obtain ⟨fd, success, rfl⟩ := htimeout
    obtain ⟨hclient, hmask⟩ := hs.unlisted hl
    obtain ⟨hlive, hspares⟩ := Ctx.onTimeout_of_waiting env hwaiting
      ⟨hclient, hmask⟩ success
    unfold World.step
    dsimp only
    rw [Ctx.step_timeout_of_waiting hwaiting]
    refine hs.put (Nat.le_refl _) hi (fun _ hj _ => hj) ?_ ?_ hspares ?_ ?_ (.inl hlive)
    · rfl
    · rfl
    · intro j _
      rw [hclient]
      simp
    · intro g _ hcon
      have hsame := (hs.client g i hcon).2.symm.trans hwaiting.fd_eq
      exact absurd hsame (by simp)
  · rw [step_of_waiting hwaiting fun fd success heq => htimeout ⟨fd, success, heq⟩]
    exact hs

omit [DecidableEq Digest] in
/-- The constructor of an agent keeps every agent owned. -/
lemma Owned.construct {s : Session} (hs : s.Owned) {peer : Peer}
    (hl : s.FreshFd (.construct peer)) : (s.construct env peer).Owned := by
  obtain ⟨hclient, hmask⟩ := hs.unlisted hl
  have hoff : s.count ∉ s.world.shared.timer.clients := fun hmem =>
    absurd (hs.timer s.count hmem) (Nat.lt_irrefl _)
  have hfree : Ctx.Unlisted peer.fd ⟨s.count, Agent.idle peer.id, s.world.shared⟩ :=
    ⟨hclient, hmask⟩
  obtain ⟨hlive, hspares⟩ := Ctx.start_of_unlisted env hfree hoff peer.success
  refine hs.put (Nat.le_succ _) (Nat.lt_succ_self _) ?_ ?_ ?_ hspares ?_ ?_ (.inl hlive)
  · intro j hj hne
    omega
  · rfl
  · rfl
  · intro j _
    rw [hclient]
    simp
  · intro g _ hg
    exact absurd (hs.client g s.count hg).1 (Nat.lt_irrefl _)

/-- Every step whose new descriptor is free keeps every agent owned. -/
theorem owned_step {s : Session} (hs : s.Owned) {l : SessionLabel} (hl : s.FreshFd l) :
    (s.step env l).Owned := by
  cases l with
  | construct peer => exact hs.construct hl
  | agent i label =>
    unfold step
    dsimp only
    split_ifs with hi
    · rcases hs.agent i hi with ⟨fd, hlive⟩ | hwaiting
      · exact hs.step_live hi hlive label
      · exact hs.step_waiting hi hwaiting hl
    · exact hs

/-- Every agent is owned in every state of a run whose new descriptors are free. -/
lemma owned_along {labels : List SessionLabel}
    (hfresh : Meets (step env) FreshFd (initial env) labels) :
    Along (step env) Owned (initial env) labels :=
  along_of_meets (fun _ _ hl hs => owned_step hs hl) hfresh owned_initial

end Session

/-! ### Exactly one owner -/

/-- The reactor has the agent, under its own descriptor and no other, and the timer does not. -/
def Session.OwnedByReactor (s : Session) (i : ℕ) : Prop :=
  ∃ fd, (s.world.agents i).fd = some fd ∧
    (∀ g, s.world.shared.reactor.clients g = some i ↔ g = fd) ∧
    i ∉ s.world.shared.timer.clients

/-- The timer has the agent once, its socket is closed, and the reactor does not have it. -/
def Session.OwnedByTimer (s : Session) (i : ℕ) : Prop :=
  (s.world.agents i).fd = none ∧ s.world.shared.timer.clients.count i = 1 ∧
    ∀ g, s.world.shared.reactor.clients g ≠ some i

namespace Session

variable {Digest : Type*} [DecidableEq Digest]

/-- In every state of every run each agent is owned by exactly one of the reactor and the timer, and
every entry of `clients_` is an agent under its own descriptor. -/
theorem agents_owned_once (env : AgentEnv Digest) (labels : List SessionLabel)
    (hfresh : Meets (step env) FreshFd (initial env) labels) :
    Along (step env) (fun s =>
      (∀ i < s.count, s.OwnedByReactor i ∨ s.OwnedByTimer i) ∧
      ∀ fd i, s.world.shared.reactor.clients fd = some i →
        i < s.count ∧ (s.world.agents i).fd = some fd) (initial env) labels := by
  refine (owned_along hfresh).mono fun s hs => ⟨fun i hi => ?_, hs.client⟩
  rcases hs.agent i hi with ⟨fd, hlive⟩ | hwaiting
  · refine .inl ⟨fd, hlive.fd_eq, fun g => ⟨fun hg => ?_, ?_⟩, hlive.notMem_timer⟩
    · exact Option.some.inj ((hs.client g i hg).2.symm.trans hlive.fd_eq)
    · rintro rfl
      exact hlive.client
  · refine .inr ⟨hwaiting.fd_eq, hwaiting.timer, fun g hg => ?_⟩
    exact absurd ((hs.client g i hg).2.symm.trans hwaiting.fd_eq) (by simp)

/-- A run of two agents: the first one fails to connect, waits, and connects again under the
descriptor that it had. -/
def sampleLabels : List SessionLabel :=
  [.construct ⟨[], 3, false⟩, .construct ⟨[], 4, true⟩, .agent 0 (.write ⟨some 1, 0, []⟩),
   .agent 0 (.timeout 3 true)]

/-- The descriptors of the run are free. -/
lemma freshFd_sampleLabels :
    Meets (step sampleAgentEnv) FreshFd (initial sampleAgentEnv) sampleLabels := by
  unfold sampleLabels
  rw [meets_cons, meets_cons, meets_cons, meets_cons]
  refine ⟨?_, ?_, trivial, ?_, meets_nil⟩
  · intro j
    exact Option.some_ne_none 3 ∘ Eq.symm
  · rintro (_ | j)
    · decide +kernel
    · exact Option.some_ne_none 4 ∘ Eq.symm
  · rintro (_ | _ | j)
    · decide +kernel
    · decide +kernel
    · exact Option.some_ne_none 3 ∘ Eq.symm

/-- The two agents are owned all along. -/
theorem agents_owned_once_sample :
    Along (step sampleAgentEnv) (fun s =>
      (∀ i < s.count, s.OwnedByReactor i ∨ s.OwnedByTimer i) ∧
      ∀ fd i, s.world.shared.reactor.clients fd = some i →
        i < s.count ∧ (s.world.agents i).fd = some fd) (initial sampleAgentEnv) sampleLabels :=
  agents_owned_once sampleAgentEnv sampleLabels freshFd_sampleLabels

/-- No wake-up is lost: in every state of every run, the mask that `epoll` was given for a
registered agent is the mask the agent remembers, it asks for input, and it asks for output as long
as the agent is not connected or has something to send. -/
theorem no_lost_wakeup (env : AgentEnv Digest) (labels : List SessionLabel)
    (hfresh : Meets (step env) FreshFd (initial env) labels) :
    Along (step env) (fun s =>
      ∀ fd i, s.world.shared.reactor.clients fd = some i →
        s.world.shared.reactor.epoll fd = some (s.world.agents i).events ∧
        (s.world.agents i).events.epollin = true ∧
        ((s.world.agents i).connected = false ∨ (s.world.agents i).sendQueue ≠ [] →
          (s.world.agents i).events.epollout = true)) (initial env) labels := by
  refine (owned_along hfresh).mono fun s hs fd i hclient => ?_
  obtain ⟨-, hlive⟩ := hs.live hclient
  exact ⟨hlive.mask, hlive.epollin, hlive.epollout⟩

/-- The two agents miss no wake-up. -/
theorem no_lost_wakeup_sample :
    Along (step sampleAgentEnv) (fun s =>
      ∀ fd i, s.world.shared.reactor.clients fd = some i →
        s.world.shared.reactor.epoll fd = some (s.world.agents i).events ∧
        (s.world.agents i).events.epollin = true ∧
        ((s.world.agents i).connected = false ∨ (s.world.agents i).sendQueue ≠ [] →
          (s.world.agents i).events.epollout = true)) (initial sampleAgentEnv) sampleLabels :=
  no_lost_wakeup sampleAgentEnv sampleLabels freshFd_sampleLabels

end Session

end Tent
