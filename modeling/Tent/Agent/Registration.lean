import Tent.Agent.Effects

/-!
# Registration with the reactor and the timer

An agent is registered with the reactor as long as its socket is open (`Live`) and with the timer
while it waits for its next attempt to connect (`Waiting`).  A live agent is listed under its own
descriptor, with the mask that it remembers, and the mask asks for whatever the agent needs: input
always, output while it is not connected or has something to send.

Every step takes a live agent to a live or a waiting one (`Live.step`), and a timeout takes a
waiting agent to a live one.  What a step does to the reactor and to the timer concerns the agent
itself and its descriptor (`Spares`).
-/

set_option autoImplicit false

namespace Tent

open Bytes Transition

/-- A queue that was sent to its end is empty. -/
lemma drain_queue_of_drained {queue : List ByteString} {answer : WriteAnswer}
    (h : (drain queue answer).drained = true) : (drain queue answer).queue = [] := by
  induction queue generalizing answer with
  | nil => rfl
  | cons msg queue ih =>
    rw [drain] at h ⊢
    dsimp only at h ⊢
    split_ifs at h ⊢ with hsuccess
    exact ih h

namespace Ctx

/-- The agent is listed under the descriptor of its socket, with the mask that it remembers. -/
structure Listed (fd : ℕ) (c : Ctx) : Prop where
  /-- The descriptor is that of the socket. -/
  fd_eq : c.agent.fd = some fd
  /-- `clients_` has the agent under the descriptor. -/
  client : c.shared.reactor.clients fd = some c.self
  /-- The mask that `epoll` was given last is `events_`. -/
  mask : c.shared.reactor.epoll fd = some c.agent.events
  /-- The mask asks for input. -/
  epollin : c.agent.events.epollin = true
  /-- The agent does not wait for a timeout. -/
  notMem_timer : c.self ∉ c.shared.timer.clients

/-- The agent is listed, and its mask asks for output if it needs any. -/
structure Live (fd : ℕ) (c : Ctx) : Prop extends Listed fd c where
  /-- The mask asks for output while a connection or a message is pending. -/
  epollout : c.agent.connected = false ∨ c.agent.sendQueue ≠ [] → c.agent.events.epollout = true

/-- The agent has no socket and waits for a timeout. -/
structure Waiting (c : Ctx) : Prop where
  /-- The socket is closed. -/
  fd_eq : c.agent.fd = none
  /-- The agent is not connected. -/
  connected : c.agent.connected = false
  /-- The agent is not inside the receive loop. -/
  reading : c.agent.reading = false
  /-- The timer has the agent once. -/
  timer : c.shared.timer.clients.count c.self = 1

/-- Nothing is listed under the descriptor. -/
structure Unlisted (fd : ℕ) (c : Ctx) : Prop where
  /-- `clients_` has no entry. -/
  client : c.shared.reactor.clients fd = none
  /-- The interest list of `epoll` has no entry. -/
  mask : c.shared.reactor.epoll fd = none

/-- Between two states of an agent nothing happened to other descriptors and other agents. -/
structure Spares (fd : ℕ) (c c' : Ctx) : Prop where
  /-- It is the same agent. -/
  self : c'.self = c.self
  /-- The entries of `clients_` are the same. -/
  clients : ∀ g ≠ fd, c'.shared.reactor.clients g = c.shared.reactor.clients g
  /-- The entries of the interest list are the same. -/
  epoll : ∀ g ≠ fd, c'.shared.reactor.epoll g = c.shared.reactor.epoll g
  /-- The others are on the timer as often as before. -/
  timer : ∀ j ≠ c.self, c'.shared.timer.clients.count j = c.shared.timer.clients.count j

/-- Between two states of an agent nothing happened to its registration. -/
structure Quiet (c c' : Ctx) : Prop where
  /-- It is the same agent. -/
  self : c'.self = c.self
  /-- It has the same socket. -/
  fd : c'.agent.fd = c.agent.fd
  /-- It remembers the same mask. -/
  events : c'.agent.events = c.agent.events
  /-- The reactor is the same. -/
  reactor : c'.shared.reactor = c.shared.reactor
  /-- The timer is the same. -/
  timer : c'.shared.timer = c.shared.timer

/-! ### Sparing the others -/

/-- A change of the agent alone spares the others. -/
lemma Spares.of_shared {c c' : Ctx} (hself : c'.self = c.self)
    (hreactor : c'.shared.reactor = c.shared.reactor)
    (htimer : ∀ j ≠ c.self, c'.shared.timer.clients.count j = c.shared.timer.clients.count j)
    (fd : ℕ) : Spares fd c c' := by
  refine ⟨hself, ?_, ?_, htimer⟩
  · exact fun g _ => by rw [hreactor]
  · exact fun g _ => by rw [hreactor]

/-- What does not touch the registration spares the others. -/
lemma Quiet.spares {c c' : Ctx} (h : Quiet c c') (fd : ℕ) : Spares fd c c' :=
  Spares.of_shared h.self h.reactor (fun j _ => by rw [h.timer]) fd

/-- Sparing the others twice. -/
lemma Spares.trans {fd : ℕ} {c₁ c₂ c₃ : Ctx} (h : Spares fd c₁ c₂) (h' : Spares fd c₂ c₃) :
    Spares fd c₁ c₃ where
  self := h'.self.trans h.self
  clients g hg := (h'.clients g hg).trans (h.clients g hg)
  epoll g hg := (h'.epoll g hg).trans (h.epoll g hg)
  timer j hj := (h'.timer j (by rwa [h.self])).trans (h.timer j hj)

/-- What does not touch the registration keeps an agent listed. -/
lemma Listed.quiet {fd : ℕ} {c c' : Ctx} (hc : c.Listed fd) (h : Quiet c c') : c'.Listed fd where
  fd_eq := h.fd.trans hc.fd_eq
  client := by rw [h.reactor, h.self, hc.client]
  mask := by rw [h.reactor, h.events, hc.mask]
  epollin := by rw [h.events, hc.epollin]
  notMem_timer := by rw [h.timer, h.self]; exact hc.notMem_timer

/-- What touches neither the registration nor the need for output keeps an agent live. -/
lemma Live.quiet {fd : ℕ} {c c' : Ctx} (hc : c.Live fd) (h : Quiet c c')
    (hconn : c'.agent.connected = c.agent.connected)
    (hqueue : c'.agent.sendQueue = c.agent.sendQueue) : c'.Live fd ∧ Spares fd c c' := by
  refine ⟨⟨hc.toListed.quiet h, ?_⟩, h.spares fd⟩
  rw [hconn, hqueue, h.events]
  exact hc.epollout

/-! ### The calls of the reactor -/

/-- Events are added to the mask of a listed agent. -/
lemma reg_of_listed {fd : ℕ} {c : Ctx} (hc : c.Listed fd) (events : Events) :
    (c.reg events).Listed fd ∧ (c.reg events).agent.events = c.agent.events.union events ∧
      Spares fd c (c.reg events) := by
  obtain ⟨hfd, hclient, hmask, hin, htimer⟩ := hc
  have hreg : c.shared.reactor.reg c.self c.agent.fd c.agent.events events =
      (c.shared.reactor.ctlMod fd (c.agent.events.union events),
        c.agent.events.union events) := by
    simp [NetReactor.reg, hfd, hclient]
  have hmod : c.shared.reactor.ctlMod fd (c.agent.events.union events) =
      { c.shared.reactor with
        epoll := Function.update c.shared.reactor.epoll fd
          (some (c.agent.events.union events)) } := by
    simp [NetReactor.ctlMod, hmask]
  unfold reg
  rw [hreg, hmod]
  refine ⟨⟨hfd, hclient, Function.update_self _ _ _, ?_, htimer⟩, rfl, rfl, fun _ _ => rfl, ?_,
    fun _ _ => rfl⟩
  · simp [Events.union, hin]
  · exact fun g hg => Function.update_of_ne hg _ _

/-- Output is taken out of the mask of a listed agent. -/
lemma unregEvents_of_listed {fd : ℕ} {c : Ctx} (hc : c.Listed fd) :
    (c.unregEvents .writable).Listed fd ∧ Spares fd c (c.unregEvents .writable) := by
  obtain ⟨hfd, hclient, hmask, hin, htimer⟩ := hc
  have hunreg : c.shared.reactor.unregEvents c.agent.fd c.agent.events .writable =
      (c.shared.reactor.ctlMod fd (c.agent.events.diff .writable),
        c.agent.events.diff .writable) := by
    simp [NetReactor.unregEvents, hfd, hclient]
  have hmod : c.shared.reactor.ctlMod fd (c.agent.events.diff .writable) =
      { c.shared.reactor with
        epoll := Function.update c.shared.reactor.epoll fd
          (some (c.agent.events.diff .writable)) } := by
    simp [NetReactor.ctlMod, hmask]
  unfold unregEvents
  rw [hunreg, hmod]
  refine ⟨⟨hfd, hclient, Function.update_self _ _ _, ?_, htimer⟩, rfl, fun _ _ => rfl, ?_,
    fun _ _ => rfl⟩
  · simp [Events.diff, Events.writable, hin]
  · exact fun g hg => Function.update_of_ne hg _ _

/-- An agent with a new socket is listed for input. -/
lemma reg_of_unlisted {fd : ℕ} {c : Ctx} (hfd : c.agent.fd = some fd) (hc : c.Unlisted fd)
    (htimer : c.self ∉ c.shared.timer.clients) :
    (c.reg .readable).Listed fd ∧ Spares fd c (c.reg .readable) := by
  have hreg : c.shared.reactor.reg c.self c.agent.fd c.agent.events .readable =
      (⟨Function.update c.shared.reactor.clients fd (some c.self),
        Function.update c.shared.reactor.epoll fd (some .readable)⟩, .readable) := by
    simp [NetReactor.reg, NetReactor.ctlAdd, hfd, hc.client, hc.mask]
  unfold reg
  rw [hreg]
  refine ⟨⟨hfd, Function.update_self _ _ _, Function.update_self _ _ _, rfl, htimer⟩, rfl, ?_, ?_,
    fun _ _ => rfl⟩
  · exact fun g hg => Function.update_of_ne hg _ _
  · exact fun g hg => Function.update_of_ne hg _ _

/-- A listed agent that asks for output is live, whatever it has to send. -/
lemma reg_writable_of_listed {fd : ℕ} {c c' : Ctx} (hc : c.Listed fd) (h : Quiet c c') :
    (c'.reg .writable).Live fd ∧ Spares fd c (c'.reg .writable) := by
  obtain ⟨hlisted, hevents, hspares⟩ := reg_of_listed (hc.quiet h) .writable
  refine ⟨⟨hlisted, fun _ => ?_⟩, (h.spares fd).trans hspares⟩
  rw [hevents]
  exact Bool.or_true _

/-- A listed agent that disconnects waits, and its descriptor is free. -/
lemma disconnected_of_listed {fd : ℕ} {c : Ctx} (hc : c.Listed fd)
    (hreading : c.agent.reading = false) :
    c.disconnected.Waiting ∧ c.disconnected.Unlisted fd ∧ Spares fd c c.disconnected := by
  have hclients : c.disconnected.shared.reactor.clients =
      Function.update c.shared.reactor.clients fd none := by
    simp [disconnected, closeSocket, unreg, NetReactor.unreg, NetReactor.close,
      NetReactor.ctlDel, hc.fd_eq]
  have hepoll : c.disconnected.shared.reactor.epoll =
      Function.update c.shared.reactor.epoll fd none := by
    simp [disconnected, closeSocket, unreg, NetReactor.unreg, NetReactor.close,
      NetReactor.ctlDel, hc.fd_eq]
  have htimer : c.disconnected.shared.timer.clients = c.shared.timer.clients ++ [c.self] := rfl
  refine ⟨⟨rfl, rfl, hreading, ?_⟩, ⟨?_, ?_⟩, rfl, ?_, ?_, ?_⟩
  · have hnone : c.shared.timer.clients.count c.self = 0 :=
      List.count_eq_zero_of_not_mem hc.notMem_timer
    rw [htimer, List.count_append, show c.disconnected.self = c.self from rfl, hnone]
    simp
  · rw [hclients, Function.update_self]
  · rw [hepoll, Function.update_self]
  · intro g hg
    rw [hclients, Function.update_of_ne hg]
  · intro g hg
    rw [hepoll, Function.update_of_ne hg]
  · intro j hj
    rw [htimer, List.count_append, List.count_singleton, if_neg (by simpa using hj.symm),
      Nat.add_zero]

variable {Digest : Type*} {env : AgentEnv Digest}

/-! ### The actions of the state machine -/

variable (env) in
/-- A start asks for output: for the end of the connection attempt or for the handshake. -/
lemma start_of_listed {fd : ℕ} {c : Ctx} (hc : c.Listed fd) (success : Bool) :
    (c.start env success).Live fd ∧ Spares fd c (c.start env success) := by
  unfold start connect
  split_ifs with hsuccess
  · exact reg_writable_of_listed hc ⟨rfl, rfl, rfl, rfl, rfl⟩
  · exact reg_writable_of_listed hc ⟨rfl, rfl, rfl, rfl, rfl⟩

variable (env) in
/-- `request_pieces` asks for output if it has pushed a request. -/
lemma requestPieces_of_live {fd : ℕ} {c c' : Ctx} (hc : c.Live fd) (h : Quiet c c')
    (hconn : c'.agent.connected = c.agent.connected)
    (hqueue : c'.agent.sendQueue = c.agent.sendQueue) :
    (c'.requestPieces env).Live fd ∧ Spares fd c (c'.requestPieces env) := by
  unfold requestPieces
  split_ifs with hchoked
  · exact hc.quiet h hconn hqueue
  · have hquiet : ∀ sendQueue trace handler, Quiet c
        { c' with agent.sendQueue := sendQueue, agent.trace := trace,
                  shared.handler := handler } :=
      fun _ _ _ => ⟨h.self, h.fd, h.events, h.reactor, h.timer⟩
    dsimp only
    split_ifs with hempty
    · refine hc.quiet (hquiet _ _ _) hconn ?_
      rw [List.isEmpty_iff.mp hempty]
      simpa using hqueue
    · exact reg_writable_of_listed hc.toListed (hquiet _ _ _)

variable [DecidableEq Digest]

/-- Handling a message keeps a live agent live. -/
lemma handleMsg_of_live {fd : ℕ} {c c' : Ctx} (hc : c.Live fd) (h : Quiet c c')
    (hconn : c'.agent.connected = c.agent.connected)
    (hqueue : c'.agent.sendQueue = c.agent.sendQueue) (msg : Message) :
    (c'.handleMsg env msg).Live fd ∧ Spares fd c (c'.handleMsg env msg) := by
  obtain ⟨hself, hfd, hevents, hreactor, htimer⟩ := h
  apply handleMsg_cases (P := fun c' => c'.Live fd ∧ Spares fd c c')
  · exact fun _ => hc.quiet ⟨hself, hfd, hevents, hreactor, htimer⟩ hconn hqueue
  · exact fun _ => requestPieces_of_live env hc ⟨hself, hfd, hevents, hreactor, htimer⟩ hconn hqueue
  · exact fun _ => hc.quiet ⟨hself, hfd, hevents, hreactor, htimer⟩ hconn hqueue
  · exact fun _ => requestPieces_of_live env hc ⟨hself, hfd, hevents, hreactor, htimer⟩ hconn hqueue
  · exact fun _ _ _ _ => hc.quiet ⟨hself, hfd, hevents, hreactor, htimer⟩ hconn hqueue

variable (env) in
/-- A pass of the receive loop keeps a live agent live. -/
lemma frame_of_live {fd : ℕ} {c : Ctx} (hc : c.Live fd) :
    (c.frame env).Live fd ∧ Spares fd c (c.frame env) := by
  apply frame_cases (P := fun c' => c'.Live fd ∧ Spares fd c c')
  · exact fun _ _ => hc.quiet ⟨rfl, rfl, rfl, rfl, rfl⟩ rfl rfl
  · exact fun _ _ => reg_writable_of_listed hc.toListed ⟨rfl, rfl, rfl, rfl, rfl⟩
  · have hchop : Quiet c (c.chop env) := ⟨rfl, rfl, rfl, rfl, rfl⟩
    exact fun _ => handleMsg_of_live hc hchop rfl rfl _

/-! ### Steps -/

variable (env) in
omit [DecidableEq Digest] in
/-- An agent that opens its socket under a free descriptor and starts is live. -/
lemma start_of_unlisted {fd : ℕ} {c : Ctx} (hc : c.Unlisted fd)
    (htimer : c.self ∉ c.shared.timer.clients) (success : Bool) :
    (((c.openSocket fd).reg .readable).start env success).Live fd ∧
      Spares fd c (((c.openSocket fd).reg .readable).start env success) := by
  obtain ⟨hlisted, hreg⟩ :=
    reg_of_unlisted (c := c.openSocket fd) rfl ⟨hc.client, hc.mask⟩ htimer
  obtain ⟨hlive, hstart⟩ := start_of_listed env hlisted success
  have hopen : Spares fd c (c.openSocket fd) :=
    ⟨rfl, fun _ _ => rfl, fun _ _ => rfl, fun _ _ => rfl⟩
  exact ⟨hlive, (hopen.trans hreg).trans hstart⟩

variable (env) in
omit [DecidableEq Digest] in
/-- A timeout of a waiting agent opens its socket and lists it. -/
lemma onTimeout_of_waiting {fd : ℕ} {c : Ctx} (hc : c.Waiting) (hfree : c.Unlisted fd)
    (success : Bool) :
    (c.onTimeout env fd success).Live fd ∧ Spares fd c (c.onTimeout env fd success) := by
  have hreactor : c.clearQueue.closeSocket.shared.reactor = c.shared.reactor := by
    change c.shared.reactor.close c.agent.fd = _
    rw [hc.fd_eq]
    rfl
  have htimer : c.clearQueue.closeSocket.shared.timer.clients =
      c.shared.timer.clients.filter (· ≠ c.self) := rfl
  have hclear : Spares fd c c.clearQueue.closeSocket := by
    refine Spares.of_shared ?_ hreactor (fun j hj => ?_) fd
    · rfl
    · rw [htimer]
      exact List.count_filter (by simpa using hj)
  have hoff : c.clearQueue.closeSocket.self ∉ c.clearQueue.closeSocket.shared.timer.clients := by
    rw [htimer, show c.clearQueue.closeSocket.self = c.self from rfl]
    simp
  obtain ⟨hlive, hstart⟩ := start_of_unlisted env (c := c.clearQueue.closeSocket)
    ⟨by rw [hreactor, hfree.client], by rw [hreactor, hfree.mask]⟩ hoff success
  exact ⟨hlive, hclear.trans hstart⟩

/-- A waiting agent does nothing but time out. -/
lemma step_of_waiting {c : Ctx} (hc : c.Waiting) {l : Label}
    (hl : ∀ fd success, l ≠ .timeout fd success) : c.step env l = c := by
  obtain ⟨hfd, hconn, hreading, -⟩ := hc
  cases l with
  | read result => simp [step, read, hfd, hreading]
  | frame => simp [step, hreading]
  | write answer => simp [step, write, hfd, hconn, hreading, WriteAnswer.on]
  | timeout fd success => exact absurd rfl (hl fd success)
  | execute => simp [step, execute, hconn, hreading]

/-- The timer calls a waiting agent. -/
lemma step_timeout_of_waiting {c : Ctx} (hc : c.Waiting) (fd : ℕ) (success : Bool) :
    c.step env (.timeout fd success) = c.onTimeout env fd success := by
  have hmem : c.self ∈ c.shared.timer.clients :=
    List.count_pos_iff.mp (by rw [hc.timer]; exact Nat.one_pos)
  simp [step, hc.reading, hmem]

variable (env) in
/-- A pass of the receive loop, or its end, keeps a live agent live. -/
lemma Live.step_frame {fd : ℕ} {c : Ctx} (hc : c.Live fd) :
    (c.step env .frame).Live fd ∧ Spares fd c (c.step env .frame) := by
  apply step_frame_cases (P := fun c' => c'.Live fd ∧ Spares fd c c')
  · exact fun _ => hc.quiet ⟨rfl, rfl, rfl, rfl, rfl⟩ rfl rfl
  · intro _ _
    have hleave : Quiet c (c.setReading false) := ⟨rfl, rfl, rfl, rfl, rfl⟩
    exact hc.quiet hleave rfl rfl
  · exact fun _ _ => frame_of_live env hc

variable (env) in
/-- Reading keeps a live agent live, unless the peer has closed the connection: then the descriptor
is free. -/
lemma Live.step_read {fd : ℕ} {c : Ctx} (hc : c.Live fd) (result : Option ByteString) :
    Spares fd c (c.step env (.read result)) ∧
      if result = some [] ∧ c.agent.reading = false then
        (c.step env (.read result)).Waiting ∧ (c.step env (.read result)).Unlisted fd
      else (c.step env (.read result)).Live fd := by
  obtain ⟨hsame, hspares⟩ := hc.quiet (Quiet.mk rfl rfl rfl rfl rfl) rfl rfl
  by_cases hclosed : result = some [] ∧ c.agent.reading = false
  · obtain ⟨rfl, hreading⟩ := hclosed
    have hraise : Quiet c (c.raise .disconnected .disconnected) := ⟨rfl, rfl, rfl, rfl, rfl⟩
    obtain ⟨hwaiting, hfree, hspares⟩ :=
      disconnected_of_listed (hc.toListed.quiet hraise) hreading
    have hstep : c.step env (.read (some [])) = c.onDisconnected := by
      simp [step, read, hreading, hc.fd_eq]
    rw [if_pos ⟨rfl, hreading⟩, hstep]
    exact ⟨(hraise.spares fd).trans hspares, hwaiting, hfree⟩
  · rw [if_neg hclosed]
    apply step_read_cases (P := fun c' => Spares fd c c' ∧ c'.Live fd) ⟨hspares, hsame⟩
    · exact fun hreading _ hresult => absurd ⟨hresult, hreading⟩ hclosed
    · intro b bytes _ _ _
      have hdata : Quiet c ((c.append (b :: bytes)).setReading true) :=
        ⟨rfl, rfl, rfl, rfl, rfl⟩
      exact (hc.quiet hdata rfl rfl).symm

variable (env) in
/-- A live agent stays live or starts to wait. -/
theorem Live.step {fd : ℕ} {c : Ctx} (hc : c.Live fd) (l : Label) :
    Spares fd c (c.step env l) ∧
      ((c.step env l).Live fd ∨ (c.step env l).Waiting ∧ (c.step env l).Unlisted fd) := by
  have hlisted := hc.toListed
  have hstay : Spares fd c c ∧ (c.Live fd ∨ c.Waiting ∧ c.Unlisted fd) :=
    ⟨Quiet.spares ⟨rfl, rfl, rfl, rfl, rfl⟩ fd, .inl hc⟩
  cases l with
  | read result =>
    obtain ⟨hspares, hnext⟩ := hc.step_read env result
    split_ifs at hnext with hclosed
    · exact ⟨hspares, .inr hnext⟩
    · exact ⟨hspares, .inl hnext⟩
  | frame =>
    obtain ⟨hlive, hspares⟩ := hc.step_frame env
    exact ⟨hspares, .inl hlive⟩
  | write answer =>
    apply step_write_cases (P := fun c' => Spares fd c c' ∧ (c'.Live fd ∨ c'.Waiting ∧
      c'.Unlisted fd))
    · exact fun _ => hstay
    · intro _ _ _
      -- output is taken out of the mask and put back for the handshake
      have hset : Quiet c c.setConnected := ⟨rfl, rfl, rfl, rfl, rfl⟩
      obtain ⟨hunreg, hspares⟩ := unregEvents_of_listed (hlisted.quiet hset)
      have hpush : Quiet (c.setConnected.unregEvents .writable)
          (((c.setConnected.unregEvents .writable).raise .connected .connected).push .handshake
            (MsgFactory.handshake env.oob env.localPeerId env.infoHash)) :=
        ⟨rfl, rfl, rfl, rfl, rfl⟩
      obtain ⟨hlive, hreg⟩ := reg_writable_of_listed hunreg hpush
      exact ⟨((hset.spares fd).trans hspares).trans hreg, .inl hlive⟩
    · intro hreading _ _
      obtain ⟨hwaiting, hfree, hspares⟩ := disconnected_of_listed hlisted hreading
      exact ⟨hspares, .inr ⟨hwaiting, hfree⟩⟩
    · intro _ _ hblocked
      -- only a non-empty queue can be blocked
      have hqueue : c.agent.sendQueue ≠ [] := by
        intro hnil
        rw [hnil] at hblocked
        exact Bool.noConfusion hblocked
      have hsent : Quiet c (c.sent answer) := ⟨rfl, rfl, rfl, rfl, rfl⟩
      exact ⟨hsent.spares fd, .inl ⟨hlisted.quiet hsent, fun _ => hc.epollout (.inr hqueue)⟩⟩
    · intro _ hconn hdrained
      have hsent : Quiet c (c.sent answer) := ⟨rfl, rfl, rfl, rfl, rfl⟩
      obtain ⟨hunreg, hspares⟩ := unregEvents_of_listed (hlisted.quiet hsent)
      refine ⟨(hsent.spares fd).trans hspares, .inl ⟨hunreg, ?_⟩⟩
      rintro (hcon | hcon)
      · exact absurd (hconn.symm.trans hcon) (by simp)
      · exact absurd (drain_queue_of_drained hdrained) hcon
  | timeout fd' success =>
    apply step_timeout_cases (P := fun c' => Spares fd c c' ∧ (c'.Live fd ∨ c'.Waiting ∧
      c'.Unlisted fd)) hstay
    exact fun _ hmem => absurd hmem hlisted.notMem_timer
  | execute =>
    apply step_execute_cases (P := fun c' => Spares fd c c' ∧ (c'.Live fd ∨ c'.Waiting ∧
      c'.Unlisted fd))
    · exact fun _ => hstay
    · intro _ _ _
      obtain ⟨hlive, hspares⟩ :=
        requestPieces_of_live env hc ⟨rfl, rfl, rfl, rfl, rfl⟩ rfl rfl
      exact ⟨hspares, .inl hlive⟩

end Ctx

end Tent
