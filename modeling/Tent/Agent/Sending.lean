import Tent.Session.World

/-!
# The outgoing stream

The bytes that the socket of a connection accepts should be the messages pushed on that connection,
in order and without gaps.  `StreamIntact` says so for the current connection of an agent: what was
accepted, followed by what is still queued, is what was pushed.

`write` pops the front of the queue whether or not it was sent.  When the socket refuses in the
middle of the queue, the message at the front loses its unsent bytes, and the messages behind it
follow the gap on the wire.  So the stream is intact along a run exactly when in every call of
`write` the socket takes the whole queue (`stream_intact_iff_unrefused`).
-/

set_option autoImplicit false

namespace Tent

open Bytes Transition

/-! ### Draining the queue -/

/-- `send` sends as many bytes as the socket has room for. -/
lemma sendLoop_spec {fuel available : ℕ} (h : available ≤ fuel) (answer : WriteAnswer) :
    (sendLoop fuel available answer).count = min available answer.room ∧
      (sendLoop fuel available answer).answer.room = answer.room - available ∧
      (sendLoop fuel available answer).success = decide (available ≤ answer.room) := by
  induction fuel generalizing available answer with
  | zero =>
    obtain rfl : available = 0 := Nat.le_zero.mp h
    simp [sendLoop]
  | succ fuel ih =>
    rw [sendLoop]
    by_cases h0 : available = 0
    · simp [h0]
    rw [if_neg h0]
    by_cases hroom : answer.room = 0
    · have hnone : answer.write available = none := by simp [WriteAnswer.write, hroom]
      rw [hnone]
      refine ⟨by simp [hroom], by simp [hroom], ?_⟩
      simp [hroom, h0]
    · set count := min (max 1 (answer.counts.headD available)) (min answer.room available)
        with hcount
      have hsome : answer.write available = some count := by simp [WriteAnswer.write, hroom, hcount]
      have hpos : 0 < count := by omega
      have hle : count ≤ available := by omega
      have hle' : count ≤ answer.room := by omega
      rw [hsome]
      obtain ⟨hc, hr, hs⟩ := ih (show available - count ≤ fuel by omega) (answer.after count)
      have hafter : (answer.after count).room = answer.room - count := rfl
      rw [hafter] at hc hr hs
      refine ⟨?_, ?_, ?_⟩
      · change count + (sendLoop fuel (available - count) (answer.after count)).count = _
        omega
      · change (sendLoop fuel (available - count) (answer.after count)).answer.room = _
        omega
      · change (sendLoop fuel (available - count) (answer.after count)).success = _
        rw [hs, decide_eq_decide]
        omega

/-- With enough room the whole queue is sent. -/
lemma drain_of_le {queue : List ByteString} {answer : WriteAnswer}
    (h : queue.flatten.length ≤ answer.room) :
    drain queue answer = ⟨queue.flatten, [], true⟩ := by
  induction queue generalizing answer with
  | nil => rfl
  | cons msg queue ih =>
    rw [List.flatten_cons, List.length_append] at h
    obtain ⟨hcount, hroom, hsuccess⟩ := sendLoop_spec (Nat.le_refl msg.length) answer
    have hok : (send msg.length answer).success = true := by
      unfold send
      rw [hsuccess, decide_eq_true_eq]
      omega
    have htake : msg.take (send msg.length answer).count = msg := by
      unfold send
      rw [hcount]
      exact List.take_of_length_le (by omega)
    have hroom' : queue.flatten.length ≤ (send msg.length answer).answer.room := by
      unfold send
      rw [hroom]
      omega
    have hrest := ih hroom'
    rw [drain]
    simp only [hok, if_true, hrest, htake, List.flatten_cons]

/-- Without enough room bytes are lost: what was accepted and what remains in the queue are
together shorter than the queue. -/
lemma drain_of_lt {queue : List ByteString} {answer : WriteAnswer}
    (h : answer.room < queue.flatten.length) :
    ((drain queue answer).accepted ++ (drain queue answer).queue.flatten).length <
      queue.flatten.length := by
  induction queue generalizing answer with
  | nil => simp at h
  | cons msg queue ih =>
    rw [List.flatten_cons, List.length_append] at h
    obtain ⟨hcount, hroom, hsuccess⟩ := sendLoop_spec (Nat.le_refl msg.length) answer
    have hcount' : (send msg.length answer).count = min msg.length answer.room := hcount
    rw [drain]
    by_cases hle : msg.length ≤ answer.room
    · have hok : (send msg.length answer).success = true := by
        unfold send
        rw [hsuccess, decide_eq_true_eq]
        exact hle
      have hroom' : (send msg.length answer).answer.room < queue.flatten.length := by
        unfold send
        rw [hroom]
        omega
      have hrest := ih hroom'
      simp only [hok, if_true, List.flatten_cons, List.length_append, List.length_take,
        hcount'] at hrest ⊢
      omega
    · have hfail : (send msg.length answer).success = false := by
        unfold send
        rw [hsuccess, decide_eq_false_iff_not]
        exact hle
      simp only [hfail, Bool.false_eq_true, if_false, List.flatten_cons, List.length_append,
        List.length_take, hcount']
      omega

/-- Nothing is lost by sending the queue exactly when the socket has room for it. -/
lemma drain_lossless_iff (queue : List ByteString) (answer : WriteAnswer) :
    (drain queue answer).accepted ++ (drain queue answer).queue.flatten = queue.flatten ↔
      queue.flatten.length ≤ answer.room := by
  constructor
  · intro heq
    by_contra hcon
    have hlt := drain_of_lt (Nat.lt_of_not_le hcon)
    rw [heq] at hlt
    exact Nat.lt_irrefl _ hlt
  · intro hle
    rw [drain_of_le hle]
    simp

/-! ### The stream of a connection -/

/-- The bytes of the messages pushed in a history, in order. -/
def pushedBytes (trace : List AgentEvent) : ByteString :=
  trace.flatMap fun
    | .pushed _ bytes => bytes
    | _ => []

/-- The bytes that the socket accepted in a history. -/
def acceptedBytes (trace : List AgentEvent) : ByteString :=
  trace.flatMap fun
    | .accepted bytes => bytes
    | _ => []

@[simp] lemma pushedBytes_append (trace₁ trace₂ : List AgentEvent) :
    pushedBytes (trace₁ ++ trace₂) = pushedBytes trace₁ ++ pushedBytes trace₂ :=
  List.flatMap_append

@[simp] lemma acceptedBytes_append (trace₁ trace₂ : List AgentEvent) :
    acceptedBytes (trace₁ ++ trace₂) = acceptedBytes trace₁ ++ acceptedBytes trace₂ :=
  List.flatMap_append

namespace Agent

/-- The outgoing stream of the current connection is intact. -/
structure StreamIntact (a : Agent) : Prop where
  /-- The accepted bytes are a prefix of the messages pushed on the connection. -/
  accepted_isPrefix : acceptedBytes a.connection <+: pushedBytes a.connection
  /-- The bytes not accepted yet are those in the queue, in order. -/
  pushed_eq : pushedBytes a.connection = acceptedBytes a.connection ++ a.sendQueue.flatten

/-- The second half of the definition is the whole of it. -/
lemma streamIntact_iff (a : Agent) :
    a.StreamIntact ↔
      pushedBytes a.connection = acceptedBytes a.connection ++ a.sendQueue.flatten :=
  ⟨fun h => h.pushed_eq, fun h => ⟨⟨_, h.symm⟩, h⟩⟩

end Agent

namespace Ctx

/-- Between two states of an agent nothing happened but that messages were pushed onto its queue. -/
structure PushesOnly (c c' : Ctx) : Prop where
  /-- The new events open no connection and accept no bytes, and their pushes are appended to the
  queue. -/
  exists_events : ∃ es, c'.agent.trace = c.agent.trace ++ es ∧ .opened ∉ es ∧
    acceptedBytes es = [] ∧
    c'.agent.sendQueue.flatten = c.agent.sendQueue.flatten ++ pushedBytes es

/-- Pushing messages keeps the stream intact. -/
lemma PushesOnly.streamIntact_iff {c c' : Ctx} (h : PushesOnly c c') :
    c'.agent.StreamIntact ↔ c.agent.StreamIntact := by
  obtain ⟨es, htrace, hopened, haccepted, hqueue⟩ := h.exists_events
  have hconn : c'.agent.connection = c.agent.connection ++ es := by
    rw [Agent.connection, htrace, since_append hopened]
    rfl
  rw [Agent.streamIntact_iff, Agent.streamIntact_iff, hconn, pushedBytes_append,
    acceptedBytes_append, haccepted, List.append_nil, hqueue, ← List.append_assoc,
    List.append_left_inj]

/-- What pushes messages and then pushes messages pushes messages. -/
lemma PushesOnly.trans {c₁ c₂ c₃ : Ctx} (h₁₂ : PushesOnly c₁ c₂) (h₂₃ : PushesOnly c₂ c₃) :
    PushesOnly c₁ c₃ := by
  obtain ⟨es, htrace, hopened, haccepted, hqueue⟩ := h₁₂.exists_events
  obtain ⟨es', htrace', hopened', haccepted', hqueue'⟩ := h₂₃.exists_events
  refine ⟨es ++ es', ?_, ?_, ?_, ?_⟩
  · rw [htrace', htrace, List.append_assoc]
  · rw [List.mem_append, not_or]
    exact ⟨hopened, hopened'⟩
  · rw [acceptedBytes_append, haccepted, haccepted', List.append_nil]
  · rw [hqueue', hqueue, pushedBytes_append, List.append_assoc]

/-- A single event that is no push. -/
lemma PushesOnly.of_event {c c' : Ctx} {e : AgentEvent}
    (htrace : c'.agent.trace = c.agent.trace ++ [e]) (hopened : e ≠ .opened)
    (haccepted : acceptedBytes [e] = []) (hpushed : pushedBytes [e] = [])
    (hqueue : c'.agent.sendQueue = c.agent.sendQueue) : PushesOnly c c' :=
  ⟨[e], htrace, by simpa using hopened.symm, haccepted, by rw [hqueue, hpushed, List.append_nil]⟩

/-- No event at all. -/
lemma PushesOnly.of_eq {c c' : Ctx} (htrace : c'.agent.trace = c.agent.trace)
    (hqueue : c'.agent.sendQueue = c.agent.sendQueue) : PushesOnly c c' :=
  ⟨[], by rw [htrace, List.append_nil], by simp, rfl,
    by rw [hqueue]; exact (List.append_nil _).symm⟩

/-- A single push. -/
lemma pushesOnly_push (msg : Outgoing) (bytes : ByteString) (c : Ctx) :
    PushesOnly c (c.push msg bytes) :=
  ⟨[.pushed msg bytes], rfl, by simp, rfl, by simp [push, pushedBytes]⟩

/-- A change of state pushes nothing. -/
lemma pushesOnly_raise (ev : SessionEvent) (state : SessionState) (c : Ctx) :
    PushesOnly c (c.raise ev state) :=
  .of_event rfl (by simp) rfl rfl rfl

variable {Digest : Type*} (env : AgentEnv Digest)

/-- Requests are pushed. -/
lemma pushesOnly_requestPieces (c : Ctx) : PushesOnly c (c.requestPieces env) := by
  refine ⟨(c.burst env).map pushedRequest, requestPieces_trace env c, ?_, ?_, ?_⟩
  · simp [pushedRequest]
  · unfold acceptedBytes
    rw [List.flatMap_eq_nil_iff]
    intro e he
    obtain ⟨req, -, rfl⟩ := List.mem_map.mp he
    rfl
  · rw [requestPieces_sendQueue, List.flatten_append]
    congr 1
    induction c.burst env with
    | nil => rfl
    | cons req reqs ih =>
      rw [List.map_cons, List.flatten_cons, ih]
      rfl

/-- The actions of the state machine push messages only. -/
lemma pushesOnly_onConnected (c : Ctx) : PushesOnly c (c.onConnected env) :=
  (pushesOnly_raise _ _ c).trans ((pushesOnly_push _ _ _).trans (.of_eq rfl rfl))

lemma pushesOnly_onHandshake (c : Ctx) : PushesOnly c c.onHandshake :=
  (pushesOnly_raise _ _ c).trans ((pushesOnly_push _ _ _).trans (.of_eq rfl rfl))

lemma pushesOnly_onChoke (c : Ctx) : PushesOnly c c.onChoke :=
  (pushesOnly_raise .choke .choked c).trans (.of_eq rfl rfl)

lemma pushesOnly_onUnchoke (c : Ctx) : PushesOnly c (c.onUnchoke env) := by
  have hset : PushesOnly c ((c.raise .unchoke .unchoked).setChoked false) :=
    (pushesOnly_raise .unchoke .unchoked c).trans (.of_eq rfl rfl)
  exact hset.trans (pushesOnly_requestPieces env _)

/-- A new connection starts with an empty queue, on which its start pushes messages only. -/
lemma streamIntact_start {c : Ctx} (hqueue : c.agent.sendQueue = []) (fd : ℕ) (success : Bool) :
    (((c.openSocket fd).reg .readable).start env success).agent.StreamIntact := by
  have hopen : (c.openSocket fd).agent.StreamIntact := by
    have hconn : (c.openSocket fd).agent.connection = [] := since_concat_mark _ _
    have hq : (c.openSocket fd).agent.sendQueue = [] := hqueue
    rw [Agent.streamIntact_iff, hconn, hq]
    rfl
  have hstart : PushesOnly (c.openSocket fd)
      (((c.openSocket fd).reg .readable).start env success) := by
    have hattempt : PushesOnly (c.openSocket fd)
        ((((c.openSocket fd).reg .readable).raise .start .started).attempt success) :=
      .of_event rfl (by simp) rfl rfl rfl
    unfold start connect
    split_ifs
    · exact hattempt.trans (pushesOnly_onConnected env _)
    · exact hattempt.trans (.of_eq rfl rfl)
  exact hstart.streamIntact_iff.mpr hopen

variable [DecidableEq Digest]

/-- Handling a message pushes messages only. -/
lemma pushesOnly_handleMsg (msg : Message) (c : Ctx) : PushesOnly c (c.handleMsg env msg) := by
  have hlog : PushesOnly c (c.logMsg msg) := .of_event rfl (by simp) rfl rfl rfl
  apply handleMsg_cases
  · exact fun _ => hlog.trans (pushesOnly_onChoke _)
  · exact fun _ => hlog.trans (pushesOnly_onUnchoke env _)
  · exact fun _ => hlog.trans (.of_eq rfl rfl)
  · intro _
    refine (hlog.trans ?_).trans (pushesOnly_requestPieces env _)
    exact .of_eq rfl rfl
  · exact fun _ _ _ _ => hlog

/-- A pass of the receive loop pushes messages only. -/
lemma pushesOnly_frame (c : Ctx) : PushesOnly c (c.frame env) := by
  have hchop : PushesOnly c (c.chop env) := .of_event rfl (by simp) rfl rfl rfl
  have hset : PushesOnly c (c.chopHandshake env) := hchop.trans (.of_eq rfl rfl)
  apply frame_cases
  · exact fun _ _ => hset
  · exact fun _ _ => hset.trans (pushesOnly_onHandshake _)
  · exact fun _ => hchop.trans (pushesOnly_handleMsg env _ _)

/-- In the call of `write` on a connected agent the socket takes the whole queue. -/
def Unrefused (c : Ctx) : Label → Prop
  | .write answer => c.agent.reading = false → c.agent.connected = true →
      c.agent.sendQueue.flatten.length ≤ answer.room
  | _ => True

variable {env}

/-- What a step does to an intact stream: it stays intact exactly when the socket does not refuse
inside the queue. -/
lemma streamIntact_step_iff {c : Ctx} (l : Label) (hopen : c.agent.SocketOpen)
    (hc : c.agent.StreamIntact) : (c.step env l).agent.StreamIntact ↔ Unrefused c l := by
  cases l with
  | read result =>
    refine iff_of_true ?_ trivial
    apply step_read_cases (P := fun c' => c'.agent.StreamIntact) hc
    · intro _ _ _
      have hclosed : PushesOnly c c.onDisconnected :=
        (pushesOnly_raise .disconnected .disconnected c).trans (.of_eq rfl rfl)
      exact hclosed.streamIntact_iff.mpr hc
    · intro b bytes _ _ _
      have happend : PushesOnly c ((c.append (b :: bytes)).setReading true) :=
        .of_event rfl (by simp) rfl rfl rfl
      exact happend.streamIntact_iff.mpr hc
  | frame =>
    refine iff_of_true ?_ trivial
    apply step_frame_cases (P := fun c' => c'.agent.StreamIntact)
    · exact fun _ => hc
    · intro _ _
      have hleft : PushesOnly c (c.setReading false) := .of_eq rfl rfl
      exact hleft.streamIntact_iff.mpr hc
    · exact fun _ _ => (pushesOnly_frame env c).streamIntact_iff.mpr hc
  | write answer =>
    have hsent : c.agent.connected = true →
        ((c.sent answer).agent.StreamIntact ↔
          c.agent.sendQueue.flatten.length ≤ answer.room) := by
      intro hconn
      have hon : answer.on c.agent.fd = answer := if_pos (hopen hconn)
      have hconnection : (c.sent answer).agent.connection = c.agent.connection ++
          [.accepted (drain c.agent.sendQueue answer).accepted] := by
        rw [Agent.connection, sent, since_append (by simp), hon]
        rfl
      have hqueue : (c.sent answer).agent.sendQueue =
          (drain c.agent.sendQueue answer).queue := by
        unfold sent
        rw [hon]
      rw [← drain_lossless_iff, Agent.streamIntact_iff, hconnection, hqueue, pushedBytes_append,
        acceptedBytes_append, hc.pushed_eq]
      simp only [pushedBytes, acceptedBytes, List.flatMap_cons, List.flatMap_nil, List.append_nil,
        List.append_assoc, List.append_cancel_left_eq]
      exact eq_comm
    apply step_write_cases (P := fun c' => c'.agent.StreamIntact ↔ Unrefused c (.write answer))
    · intro hstay
      refine iff_of_true hc fun hreading hconn => ?_
      rcases hstay with h | h
      · exact absurd (h.symm.trans hreading) (by simp)
      · exact absurd (h.symm.trans hconn) (by simp)
    · intro _ hconn _
      refine iff_of_true ?_ fun _ hconn' => absurd (hconn.symm.trans hconn') (by simp)
      have hprepare : PushesOnly c (c.setConnected.unregEvents .writable) := .of_eq rfl rfl
      exact (hprepare.trans (pushesOnly_onConnected env _)).streamIntact_iff.mpr hc
    · intro _ hconn _
      refine iff_of_true ?_ fun _ hconn' => absurd (hconn.symm.trans hconn') (by simp)
      have hfailed : PushesOnly c c.disconnected := .of_eq rfl rfl
      exact hfailed.streamIntact_iff.mpr hc
    · intro hreading hconn _
      rw [hsent hconn]
      exact ⟨fun h _ _ => h, fun h => h hreading hconn⟩
    · intro hreading hconn _
      have hsame : PushesOnly (c.sent answer) ((c.sent answer).unregEvents .writable) :=
        .of_eq rfl rfl
      rw [hsame.streamIntact_iff, hsent hconn]
      exact ⟨fun h _ _ => h, fun h => h hreading hconn⟩
  | timeout fd success =>
    refine iff_of_true ?_ trivial
    apply step_timeout_cases (P := fun c' => c'.agent.StreamIntact) hc
    exact fun _ _ => streamIntact_start env rfl fd success
  | execute =>
    refine iff_of_true ?_ trivial
    apply step_execute_cases (P := fun c' => c'.agent.StreamIntact)
    · exact fun _ => hc
    · exact fun _ _ _ => (pushesOnly_requestPieces env c).streamIntact_iff.mpr hc

end Ctx

namespace World

variable {Digest : Type*} {env : AgentEnv Digest} [DecidableEq Digest]

/-- In every run of a session, the outgoing streams of all agents are intact at all times exactly
when in every call of `write` on a connected agent the socket takes the whole queue. -/
theorem stream_intact_iff_unrefused (peers : List Peer) (labels : List (ℕ × Label)) :
    Along (step env) (fun w => ∀ i, (w.agents i).StreamIntact) (create env peers) labels ↔
      Meets (step env) (fun w label => Ctx.Unrefused (w.ctx label.1) label.2) (create env peers)
        labels := by
  refine along_iff_meets_agents (V := fun _ => True) (I := Agent.SocketOpen)
    (fun c l _ hopen hc => Ctx.streamIntact_step_iff l hopen hc)
    (fun c l _ hopen _ _ => Ctx.socketOpen_step env l hopen) (fun _ _ => trivial)
    (forall_agents_create ?_ ?_ peers) (forall_agents_create ?_ ?_ peers)
  · exact fun _ hconn => Bool.noConfusion hconn
  · exact fun _ _ _ fd success => Ctx.socketOpen_create fd success _
  · exact fun _ => (Agent.streamIntact_iff _).mpr rfl
  · exact fun _ _ _ fd success => Ctx.streamIntact_start env rfl fd success

/-- A socket that takes ten bytes of the handshake and then refuses: the rest of the handshake is
lost, and the interested message follows the gap. -/
theorem refused_write_breaks_stream :
    ¬ Along (step sampleAgentEnv) (fun w => ∀ i, (w.agents i).StreamIntact)
      (create sampleAgentEnv [⟨[], 3, true⟩])
      [(0, .write ⟨none, 10, []⟩),
        (0, .read (some (MsgFactory.handshake sampleAgentEnv.oob [] []))),
        (0, .frame), (0, .frame), (0, .write ⟨none, 100, []⟩)] := by
  intro h
  have hprefix := (h.last 0).accepted_isPrefix
  revert hprefix
  decide +kernel

end World

end Tent
