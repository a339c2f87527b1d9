import Tent.Session.Ownership

/-!
# Dispatching a batch of events

`net_reactor::poll` looks the client of an event up once and calls `read` and `write` through the
iterator that it found.  A `read` that unregisters its client erases the entry the iterator points
to, and when the event asks for output too, `write` is called through it all the same.

The callbacks are arbitrary functions on an arbitrary state: `dispatches_registered_iff` says for
which of them every call of a batch goes to a client that is registered at that moment.  The agents
of a session are an instance (`agentCallbacks`): there the condition is that no agent whose
descriptor is ready for both reads the end of its stream (`agent_dispatches_registered_iff`).
-/

set_option autoImplicit false

namespace Tent

open Bytes Transition

/-! ### The loop of `poll` -/

/-- An entry of the batch that `epoll_wait` returned, with what the system calls inside the
callbacks will return. -/
structure ReadyEvent (ι : Type*) where
  /-- `data.fd`. -/
  fd : ℕ
  /-- `events`. -/
  events : Events
  /-- What the callbacks are given. -/
  input : ι

/-- What `poll` calls. -/
inductive Callback where
  /-- `read()`. -/
  | read
  /-- `write()`. -/
  | write
deriving DecidableEq, Repr

/-- A call that `poll` makes. -/
structure Dispatch where
  /-- The function that is called. -/
  callback : Callback
  /-- The client that it is called on. -/
  client : ℕ
  /-- The entry of `clients_` under the descriptor of the event at that moment. -/
  entry : Option ℕ
deriving DecidableEq, Repr

/-- The client is registered when it is called. -/
def Dispatch.Registered (d : Dispatch) : Prop := d.entry = some d.client

/-- A state with `clients_` in it, and what the callbacks of the clients do to it. -/
structure Callbacks (σ ι : Type*) where
  /-- `clients_`. -/
  clients : σ → ℕ → Option ℕ
  /-- `read()` of a client. -/
  read : ι → ℕ → σ → σ
  /-- `write()` of a client. -/
  write : ι → ℕ → σ → σ

namespace Callbacks

variable {σ ι : Type*} (cb : Callbacks σ ι)

/-- A call of `read()` through the iterator. -/
def dispatchRead (e : ReadyEvent ι) (client : ℕ) (s : σ × List Dispatch) : σ × List Dispatch :=
  (cb.read e.input client s.1, s.2 ++ [⟨.read, client, cb.clients s.1 e.fd⟩])

/-- A call of `write()` through the iterator. -/
def dispatchWrite (e : ReadyEvent ι) (client : ℕ) (s : σ × List Dispatch) : σ × List Dispatch :=
  (cb.write e.input client s.1, s.2 ++ [⟨.write, client, cb.clients s.1 e.fd⟩])

/-- The body of the loop of `poll`.  The iterator is not looked up again between the calls: it
stands for the client that was found. -/
def pollEvent (s : σ × List Dispatch) (e : ReadyEvent ι) : σ × List Dispatch :=
  match cb.clients s.1 e.fd with
  | none => s
  | some client =>
    let s := if e.events.epollin then cb.dispatchRead e client s else s
    if e.events.epollout then cb.dispatchWrite e client s else s

/-- `net_reactor::poll` for the batch that `epoll_wait` returned: the state after it, and the calls
that it made. -/
def poll (s : σ) (batch : List (ReadyEvent ι)) : σ × List Dispatch :=
  run cb.pollEvent (s, []) batch

/-- If the event asks for input and output, the `read()` of its client leaves the client
registered. -/
def Stays (s : σ × List Dispatch) (e : ReadyEvent ι) : Prop :=
  e.events.epollin = true → e.events.epollout = true → ∀ client,
    cb.clients s.1 e.fd = some client →
      cb.clients (cb.read e.input client s.1) e.fd = some client

/-- One more call. -/
lemma forall_registered_concat {calls : List Dispatch} {d : Dispatch} :
    (∀ x ∈ calls ++ [d], x.Registered) ↔ (∀ x ∈ calls, x.Registered) ∧ d.Registered := by
  rw [List.forall_mem_append, List.forall_mem_singleton]

/-- The calls for one event are made on a registered client exactly if the client stays. -/
lemma registered_pollEvent_iff (s : σ × List Dispatch) (e : ReadyEvent ι) :
    (∀ d ∈ (cb.pollEvent s e).2, d.Registered) ↔
      (∀ d ∈ s.2, d.Registered) ∧ cb.Stays s e := by
  unfold pollEvent Stays
  cases hclient : cb.clients s.1 e.fd with
  | none => simp
  | some client =>
    have hread : (∀ d ∈ (cb.dispatchRead e client s).2, d.Registered) ↔
        ∀ d ∈ s.2, d.Registered :=
      forall_registered_concat.trans (and_iff_left hclient)
    have hwrite : (∀ d ∈ (cb.dispatchWrite e client s).2, d.Registered) ↔
        ∀ d ∈ s.2, d.Registered :=
      forall_registered_concat.trans (and_iff_left hclient)
    have hboth : (∀ d ∈ (cb.dispatchWrite e client (cb.dispatchRead e client s)).2,
        d.Registered) ↔ (∀ d ∈ s.2, d.Registered) ∧
          cb.clients (cb.read e.input client s.1) e.fd = some client :=
      forall_registered_concat.trans (and_congr_left' hread)
    cases e.events.epollin with
    | false =>
      cases e.events.epollout with
      | false => simp
      | true => simpa using hwrite
    | true =>
      cases e.events.epollout with
      | false => simpa using hread
      | true => simpa using hboth

/-- The calls of a batch, made after others. -/
lemma registered_run_iff (s : σ × List Dispatch) (batch : List (ReadyEvent ι)) :
    (∀ d ∈ (run cb.pollEvent s batch).2, d.Registered) ↔
      (∀ d ∈ s.2, d.Registered) ∧ Meets cb.pollEvent cb.Stays s batch := by
  induction batch generalizing s with
  | nil => simp
  | cons e batch ih => rw [run_cons, ih, registered_pollEvent_iff, meets_cons, and_assoc]

end Callbacks

/-! ### The agents of a session -/

/-- What the system calls inside the callbacks of an agent return. -/
structure AgentInput where
  /-- What `::read` returns. -/
  result : Option ByteString
  /-- The passes of the loop of `on_read`. -/
  passes : ℕ
  /-- How the socket answers `write`. -/
  answer : WriteAnswer
deriving DecidableEq, Repr

namespace Session

variable {Digest : Type*} [DecidableEq Digest] (env : AgentEnv Digest)

/-- The callbacks of the agents of a session. -/
def agentCallbacks : Callbacks Session AgentInput where
  clients s := s.world.shared.reactor.clients
  read input i s := run (step env) s
    (.agent i (.read input.result) :: List.replicate input.passes (.agent i .frame))
  write input i s := s.step env (.agent i (.write input.answer))

variable {env}

/-- The callbacks keep every agent owned. -/
lemma Owned.pollEvent {s : Session × List Dispatch} (hs : s.1.Owned)
    (e : ReadyEvent AgentInput) : ((agentCallbacks env).pollEvent s e).1.Owned := by
  have hread : ∀ {s : Session}, s.Owned → ∀ i,
      ((agentCallbacks env).read e.input i s).Owned := by
    intro s hs i
    refine run_invariant (V := fun l => ∀ s : Session, s.FreshFd l)
      (fun s l hl hs => owned_step hs (hl s)) ?_ hs
    intro l hl s
    rcases List.mem_cons.mp hl with rfl | hl
    · trivial
    · rw [List.eq_of_mem_replicate hl]
      trivial
  have hwrite : ∀ {s : Session}, s.Owned → ∀ i,
      ((agentCallbacks env).write e.input i s).Owned := by
    intro s hs i
    have hfresh : s.FreshFd (.agent i (.write e.input.answer)) := trivial
    exact owned_step hs hfresh
  unfold Callbacks.pollEvent
  cases (agentCallbacks env).clients s.1 e.fd with
  | none => exact hs
  | some client =>
    dsimp only
    split_ifs
    · exact hwrite (hread hs client) client
    · exact hwrite hs client
    · exact hread hs client
    · exact hs

/-- A step of an agent of the session. -/
lemma ctx_step {s : Session} {i : ℕ} (hi : i < s.count) (label : Label) :
    (s.step env (.agent i label)).world.ctx i = (s.world.ctx i).step env label := by
  unfold step
  dsimp only
  rw [if_pos hi]
  exact World.ctx_step_self s.world i label

/-- The number of agents after a step of one of them. -/
lemma count_step_agent (s : Session) (i : ℕ) (label : Label) :
    (s.step env (.agent i label)).count = s.count := by
  unfold step
  dsimp only
  split_ifs <;> rfl

/-- The passes of the receive loop keep a live agent live and leave a waiting one alone. -/
lemma run_frames {s : Session} {i : ℕ} (hi : i < s.count) (passes : ℕ) :
    (∀ fd, (s.world.ctx i).Live fd →
        ((run (step env) s (List.replicate passes (.agent i .frame))).world.ctx i).Live fd) ∧
      ((s.world.ctx i).Waiting →
        run (step env) s (List.replicate passes (.agent i .frame)) = s) := by
  induction passes generalizing s with
  | zero => exact ⟨fun _ h => h, fun _ => rfl⟩
  | succ passes ih =>
    rw [List.replicate_succ, run_cons]
    constructor
    · intro fd hlive
      refine (ih (by rwa [count_step_agent])).1 fd ?_
      rw [ctx_step hi]
      exact (hlive.step_frame env).1
    · intro hwaiting
      have hstay : s.step env (.agent i .frame) = s := by
        unfold step
        dsimp only
        rw [if_pos hi, step_of_waiting hwaiting (by simp)]
      rw [hstay]
      exact (ih hi).2 hwaiting

/-- The `read()` of a registered agent leaves it registered unless it reads the end of the
stream. -/
lemma Owned.clients_read_iff {s : Session} (hs : s.Owned) {fd i : ℕ}
    (hclient : s.world.shared.reactor.clients fd = some i) (input : AgentInput) :
    (agentCallbacks env).clients ((agentCallbacks env).read input i s) fd = some i ↔
      ¬ (input.result = some [] ∧ (s.world.agents i).reading = false) := by
  obtain ⟨hi, hlive⟩ := hs.live hclient
  obtain ⟨-, hnext⟩ := hlive.step_read env input.result
  rw [← ctx_step hi] at hnext
  have hcount : i < (s.step env (.agent i (.read input.result))).count := by
    rwa [count_step_agent]
  change (run (step env) s (.agent i (.read input.result) :: _)).world.shared.reactor.clients fd =
    some i ↔ _
  rw [run_cons]
  split_ifs at hnext with hclosed
  · obtain ⟨hwaiting, hfree⟩ := hnext
    rw [(run_frames hcount input.passes).2 hwaiting]
    refine iff_of_false (fun hcon => ?_) (not_not.mpr hclosed)
    exact absurd (hfree.client.symm.trans hcon) (by simp)
  · exact iff_of_true ((run_frames hcount input.passes).1 fd hnext).client hclosed

/-- For the agents of a session every call of a batch is made on a registered client exactly if no
agent whose descriptor is ready for input and output reads the end of its stream. -/
theorem agent_dispatches_registered_iff {s : Session} (hs : s.Owned)
    (batch : List (ReadyEvent AgentInput)) :
    (∀ d ∈ ((agentCallbacks env).poll s batch).2, d.Registered) ↔
      Meets (agentCallbacks env).pollEvent (fun s e => e.events.epollin = true →
        e.events.epollout = true → ∀ i, s.1.world.shared.reactor.clients e.fd = some i →
          ¬ (e.input.result = some [] ∧ (s.1.world.agents i).reading = false)) (s, []) batch := by
  rw [Callbacks.poll, Callbacks.registered_run_iff,
    and_iff_right fun d hd => absurd hd List.not_mem_nil]
  refine meets_iff_meets (V := fun _ _ => True) (I := fun s => s.1.Owned) ?_
    (fun s e _ hs _ => hs.pollEvent e) (fun _ _ _ => trivial) hs
  intro s e _ hs
  refine forall_congr' fun _ => forall_congr' fun _ => forall_congr' fun i =>
    forall_congr' fun hclient => hs.clients_read_iff hclient e.input

end Session

namespace Callbacks

end Callbacks

end Tent
