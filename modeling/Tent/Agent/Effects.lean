import Tent.Agent.TorrentAgent

/-!
# What the callbacks of an agent can do

Specifications of the callbacks: the fields that `request_pieces` changes, and elimination rules
that list everything `handle_msg`, a pass of the receive loop and the steps of an agent can do.  The
invariants of later files go through these rules and never unfold the callbacks.
-/

set_option autoImplicit false

namespace Tent

open Bytes Transition

/-- The event of pushing a request. -/
def pushedRequest (req : Request) : AgentEvent :=
  .pushed (.request req) (MsgFactory.request req)

/-- What happened on the current connection. -/
def Agent.connection (a : Agent) : List AgentEvent := since .opened a.trace

/-- Events that open no connection are appended to the current one. -/
lemma Agent.connection_eq {a a' : Agent} (es : List AgentEvent) (htrace : a'.trace = a.trace ++ es)
    (hes : .opened ∉ es) : a'.connection = a.connection ++ es := by
  rw [connection, htrace, since_append hes]
  rfl

namespace Ctx

variable {Digest : Type*} (env : AgentEnv Digest)

/-! ### Requesting pieces -/

/-- `request_pieces` pushes its requests and changes nothing else of the agent but the mask of
events. -/
lemma requestPieces_agent (c : Ctx) :
    (c.requestPieces env).agent =
      { c.agent with
        sendQueue := c.agent.sendQueue ++ (c.burst env).map MsgFactory.request
        trace := c.agent.trace ++ (c.burst env).map pushedRequest
        events := (c.requestPieces env).agent.events } := by
  unfold requestPieces burst
  split_ifs with hchoked
  · simp
  · dsimp only
    split_ifs <;> rfl

/-- The handler after `request_pieces`. -/
lemma requestPieces_handler (c : Ctx) :
    (c.requestPieces env).shared.handler =
      if c.agent.choked then c.shared.handler
      else (requestLoop env.toEnv c.agent.peerId maxBurst c.shared.handler).1 := by
  unfold requestPieces
  split_ifs with hchoked
  · rfl
  · dsimp only
    split_ifs <;> rfl

@[simp] lemma requestPieces_timer (c : Ctx) :
    (c.requestPieces env).shared.timer = c.shared.timer := by
  unfold requestPieces
  split_ifs with hchoked
  · rfl
  · dsimp only
    split_ifs <;> rfl

@[simp] lemma requestPieces_self (c : Ctx) : (c.requestPieces env).self = c.self := by
  unfold requestPieces
  split_ifs with hchoked
  · rfl
  · dsimp only
    split_ifs <;> rfl

@[simp] lemma requestPieces_peerId (c : Ctx) :
    (c.requestPieces env).agent.peerId = c.agent.peerId := by
  rw [requestPieces_agent]

@[simp] lemma requestPieces_fd (c : Ctx) : (c.requestPieces env).agent.fd = c.agent.fd := by
  rw [requestPieces_agent]

@[simp] lemma requestPieces_state (c : Ctx) :
    (c.requestPieces env).agent.state = c.agent.state := by
  rw [requestPieces_agent]

@[simp] lemma requestPieces_msgBuffer (c : Ctx) :
    (c.requestPieces env).agent.msgBuffer = c.agent.msgBuffer := by
  rw [requestPieces_agent]

@[simp] lemma requestPieces_connected (c : Ctx) :
    (c.requestPieces env).agent.connected = c.agent.connected := by
  rw [requestPieces_agent]

@[simp] lemma requestPieces_choked (c : Ctx) :
    (c.requestPieces env).agent.choked = c.agent.choked := by
  rw [requestPieces_agent]

@[simp] lemma requestPieces_reading (c : Ctx) :
    (c.requestPieces env).agent.reading = c.agent.reading := by
  rw [requestPieces_agent]

@[simp] lemma requestPieces_sendQueue (c : Ctx) :
    (c.requestPieces env).agent.sendQueue =
      c.agent.sendQueue ++ (c.burst env).map MsgFactory.request := by
  rw [requestPieces_agent]

@[simp] lemma requestPieces_trace (c : Ctx) :
    (c.requestPieces env).agent.trace = c.agent.trace ++ (c.burst env).map pushedRequest := by
  rw [requestPieces_agent]

/-! ### Elimination rules -/

variable {env} [DecidableEq Digest]

/-- Everything `handle_msg` can do. -/
theorem handleMsg_cases {msg : Message} {c : Ctx} {P : Ctx → Prop}
    (hchoke : msg.id = .choke → P (c.logMsg msg).onChoke)
    (hunchoke : msg.id = .unchoke → P ((c.logMsg msg).onUnchoke env))
    (hbitfield : msg.id = .bitfield → P ((c.logMsg msg).haveBitfield env msg.payload))
    (hpiece : msg.id = .piece → P (((c.logMsg msg).received env msg.payload).requestPieces env))
    (hother : msg.id ≠ .choke → msg.id ≠ .unchoke → msg.id ≠ .bitfield → msg.id ≠ .piece →
      P (c.logMsg msg)) : P (c.handleMsg env msg) := by
  unfold handleMsg
  cases hid : msg.id with
  | choke => exact hchoke hid
  | unchoke => exact hunchoke hid
  | bitfield => exact hbitfield hid
  | piece => exact hpiece hid
  | _ => exact hother (by simp [hid]) (by simp [hid]) (by simp [hid]) (by simp [hid])

/-- Everything a pass of the receive loop can do. -/
theorem frame_cases {c : Ctx} {P : Ctx → Prop}
    (hreject : c.agent.state.isHandshakeReceived = false →
      validateHandshake env.oob (c.slice env) = false → P (c.chopHandshake env))
    (haccept : c.agent.state.isHandshakeReceived = false →
      validateHandshake env.oob (c.slice env) = true → P (c.chopHandshake env).onHandshake)
    (hmessage : c.agent.state.isHandshakeReceived = true →
      P ((c.chop env).handleMsg env (.ofSlice env.oob (c.slice env)))) : P (c.frame env) := by
  unfold frame
  cases hhs : c.agent.state.isHandshakeReceived with
  | true => exact hmessage hhs
  | false =>
    cases hvalid : validateHandshake env.oob (c.slice env) with
    | true => exact haccept hhs hvalid
    | false => exact hreject hhs hvalid

variable (env) in
/-- Handling a message leaves the socket, the receive buffer and the peer alone. -/
lemma handleMsg_keeps (msg : Message) (c : Ctx) :
    (c.handleMsg env msg).agent.fd = c.agent.fd ∧
      (c.handleMsg env msg).agent.connected = c.agent.connected ∧
      (c.handleMsg env msg).agent.reading = c.agent.reading ∧
      (c.handleMsg env msg).agent.peerId = c.agent.peerId ∧
      (c.handleMsg env msg).self = c.self := by
  apply handleMsg_cases (P := fun c' => c'.agent.fd = c.agent.fd ∧
    c'.agent.connected = c.agent.connected ∧ c'.agent.reading = c.agent.reading ∧
    c'.agent.peerId = c.agent.peerId ∧ c'.self = c.self)
  · exact fun _ => ⟨rfl, rfl, rfl, rfl, rfl⟩
  · intro _
    simp only [onUnchoke, requestPieces_fd, requestPieces_connected, requestPieces_reading,
      requestPieces_peerId, requestPieces_self]
    exact ⟨rfl, rfl, rfl, rfl, rfl⟩
  · exact fun _ => ⟨rfl, rfl, rfl, rfl, rfl⟩
  · intro _
    simp only [requestPieces_fd, requestPieces_connected, requestPieces_reading,
      requestPieces_peerId, requestPieces_self]
    exact ⟨rfl, rfl, rfl, rfl, rfl⟩
  · exact fun _ _ _ _ => ⟨rfl, rfl, rfl, rfl, rfl⟩

/-- Handling a message leaves the receive buffer alone. -/
lemma handleMsg_msgBuffer (msg : Message) (c : Ctx) :
    (c.handleMsg env msg).agent.msgBuffer = c.agent.msgBuffer := by
  apply handleMsg_cases (P := fun c' => c'.agent.msgBuffer = c.agent.msgBuffer)
  · exact fun _ => rfl
  · intro _
    unfold onUnchoke
    rw [requestPieces_msgBuffer]
    rfl
  · exact fun _ => rfl
  · intro _
    rw [requestPieces_msgBuffer]
    rfl
  · exact fun _ _ _ _ => rfl

variable (env) in
/-- What handling a message is recorded as: the message, a change of state and requests. -/
lemma handleMsg_events (msg : Message) (c : Ctx) :
    ∃ es, (c.handleMsg env msg).agent.trace = c.agent.trace ++ .handled msg :: es ∧
      ∀ e ∈ es, (∃ st, e = .raised st .choke ∨ e = .raised st .unchoke) ∨
        ∃ req, e = pushedRequest req := by
  have hreqs : ∀ (reqs : List Request), ∀ e ∈ reqs.map pushedRequest,
      (∃ st, e = .raised st .choke ∨ e = .raised st .unchoke) ∨ ∃ req, e = pushedRequest req := by
    intro reqs e he
    obtain ⟨req, -, rfl⟩ := List.mem_map.mp he
    exact .inr ⟨req, rfl⟩
  apply handleMsg_cases (P := fun c' => ∃ es, c'.agent.trace = c.agent.trace ++ .handled msg :: es ∧
      ∀ e ∈ es, (∃ st, e = .raised st .choke ∨ e = .raised st .unchoke) ∨
        ∃ req, e = pushedRequest req)
  · refine fun _ => ⟨[.raised c.agent.state .choke], ?_, ?_⟩
    · simp [onChoke, raise, setChoked, logMsg]
    · intro e he
      exact .inl ⟨_, .inl (List.mem_singleton.mp he)⟩
  · intro _
    refine ⟨.raised c.agent.state .unchoke :: (burst env
      (((c.logMsg msg).raise .unchoke .unchoked).setChoked false)).map pushedRequest, ?_, ?_⟩
    · unfold onUnchoke
      rw [requestPieces_trace]
      simp [raise, setChoked, logMsg]
    · intro e he
      rcases List.mem_cons.mp he with rfl | he
      · exact .inl ⟨_, .inr rfl⟩
      · exact hreqs _ e he
  · exact fun _ => ⟨[], rfl, by simp⟩
  · intro _
    refine ⟨(burst env ((c.logMsg msg).received env msg.payload)).map pushedRequest, ?_, hreqs _⟩
    rw [requestPieces_trace]
    simp [logMsg, received]
  · exact fun _ _ _ _ => ⟨[], rfl, by simp⟩

/-- Handling a message never takes the state machine back behind the handshake. -/
lemma handleMsg_state (msg : Message) {c : Ctx}
    (hhs : c.agent.state.isHandshakeReceived = true) :
    (c.handleMsg env msg).agent.state.isHandshakeReceived = true := by
  apply handleMsg_cases (P := fun c' => c'.agent.state.isHandshakeReceived = true)
  · exact fun _ => rfl
  · intro _
    unfold onUnchoke
    rw [requestPieces_state]
    rfl
  · exact fun _ => hhs
  · intro _
    rw [requestPieces_state]
    exact hhs
  · exact fun _ _ _ _ => hhs

variable (env) in
/-- A pass of the receive loop opens no connection. -/
lemma frame_events (c : Ctx) :
    ∃ es, (c.frame env).agent.trace = c.agent.trace ++ es ∧ .opened ∉ es := by
  apply frame_cases (P := fun c' => ∃ es, c'.agent.trace = c.agent.trace ++ es ∧ .opened ∉ es)
  · exact fun _ _ => ⟨[.chopped (c.slice env)], rfl, by simp⟩
  · intro _ _
    refine ⟨[.chopped (c.slice env), .raised c.agent.state .handshake,
      .pushed .interested MsgFactory.interested], ?_, by simp⟩
    simp [onHandshake, interested, push, raise, reg, chopHandshake, chop]
  · intro _
    obtain ⟨es, htrace, hes⟩ :=
      handleMsg_events env (.ofSlice env.oob (c.slice env)) (c.chop env)
    refine ⟨.chopped (c.slice env) :: .handled (.ofSlice env.oob (c.slice env)) :: es, ?_, ?_⟩
    · rw [htrace]
      simp [chop]
    · intro hmem
      simp only [List.mem_cons, reduceCtorEq, false_or] at hmem
      rcases hes _ hmem with ⟨st, h | h⟩ | ⟨req, h⟩
      · exact absurd h (by simp)
      · exact absurd h (by simp)
      · exact absurd h (by simp [pushedRequest])

variable (env) in
/-- A pass of the receive loop leaves the socket alone. -/
lemma frame_keeps (c : Ctx) :
    (c.frame env).agent.fd = c.agent.fd ∧
      (c.frame env).agent.connected = c.agent.connected ∧
      (c.frame env).agent.reading = c.agent.reading ∧ (c.frame env).self = c.self := by
  apply frame_cases (P := fun c' => c'.agent.fd = c.agent.fd ∧
    c'.agent.connected = c.agent.connected ∧ c'.agent.reading = c.agent.reading ∧
    c'.self = c.self)
  · exact fun _ _ => ⟨rfl, rfl, rfl, rfl⟩
  · exact fun _ _ => ⟨rfl, rfl, rfl, rfl⟩
  · intro _
    obtain ⟨hfd, hconn, hreading, -, hself⟩ :=
      handleMsg_keeps env (.ofSlice env.oob (c.slice env)) (c.chop env)
    exact ⟨hfd, hconn, hreading, hself⟩

/-- A pass of the receive loop leaves the timer alone. -/
lemma frame_timer (c : Ctx) : (c.frame env).shared.timer = c.shared.timer := by
  apply frame_cases (P := fun c' => c'.shared.timer = c.shared.timer)
  · exact fun _ _ => rfl
  · exact fun _ _ => rfl
  · intro _
    apply handleMsg_cases (P := fun c' => c'.shared.timer = c.shared.timer)
    · exact fun _ => rfl
    · exact fun _ => requestPieces_timer env _
    · exact fun _ => rfl
    · exact fun _ => requestPieces_timer env _
    · exact fun _ _ _ _ => rfl

/-- Everything the label `read` can do. -/
theorem step_read_cases {c : Ctx} {result : Option ByteString} {P : Ctx → Prop} (hstay : P c)
    (hclosed : c.agent.reading = false → c.agent.fd.isSome = true → result = some [] →
      P c.onDisconnected)
    (hdata : ∀ b bytes, c.agent.reading = false → c.agent.fd.isSome = true →
      result = some (b :: bytes) → P ((c.append (b :: bytes)).setReading true)) :
    P (c.step env (.read result)) := by
  rw [step]
  cases hreading : c.agent.reading with
  | true => exact hstay
  | false =>
    change P (c.read result)
    unfold read
    split
    · exact hstay
    · exact hstay
    · next fd hfd => exact hclosed hreading (by simp [hfd]) rfl
    · next fd b bytes hfd => exact hdata b bytes hreading (by simp [hfd]) rfl

/-- Everything the label `frame` can do. -/
theorem step_frame_cases {c : Ctx} {P : Ctx → Prop} (hstay : c.agent.reading = false → P c)
    (hleave : c.agent.reading = true → c.frameReady env = false →
      P (c.setReading false))
    (hframe : c.agent.reading = true → c.frameReady env = true → P (c.frame env)) :
    P (c.step env .frame) := by
  rw [step]
  cases hreading : c.agent.reading with
  | false => exact hstay hreading
  | true =>
    cases hready : c.frameReady env with
    | true => exact hframe hreading hready
    | false => exact hleave hreading hready

/-- Everything the label `write` can do. -/
theorem step_write_cases {c : Ctx} {answer : WriteAnswer} {P : Ctx → Prop}
    (hstay : c.agent.reading = true ∨ c.agent.connected = false → P c)
    (hconnected : c.agent.reading = false → c.agent.connected = false → c.agent.fd.isSome = true →
      P ((c.setConnected.unregEvents .writable).onConnected env))
    (hfailed : c.agent.reading = false → c.agent.connected = false → c.agent.fd.isSome = true →
      P c.disconnected)
    (hblocked : c.agent.reading = false → c.agent.connected = true →
      (drain c.agent.sendQueue (answer.on c.agent.fd)).drained = false → P (c.sent answer))
    (hdrained : c.agent.reading = false → c.agent.connected = true →
      (drain c.agent.sendQueue (answer.on c.agent.fd)).drained = true →
      P ((c.sent answer).unregEvents .writable)) : P (c.step env (.write answer)) := by
  rw [step]
  cases hreading : c.agent.reading with
  | true => exact hstay (.inl hreading)
  | false =>
    change P (c.write env answer)
    unfold write
    cases hconn : c.agent.connected with
    | false =>
      cases herr : (answer.on c.agent.fd).soError with
      | none => exact hstay (.inr hconn)
      | some error =>
        have hfd : c.agent.fd.isSome = true := by
          by_contra hcon
          rw [WriteAnswer.on, if_neg hcon] at herr
          exact absurd herr (by simp)
        cases error with
        | zero => exact hconnected hreading hconn hfd
        | succ error => exact hfailed hreading hconn hfd
    | true =>
      cases hdr : (drain c.agent.sendQueue (answer.on c.agent.fd)).drained with
      | true => exact hdrained hreading hconn hdr
      | false => exact hblocked hreading hconn hdr

/-- Everything the label `timeout` can do. -/
theorem step_timeout_cases {c : Ctx} {fd : ℕ} {success : Bool} {P : Ctx → Prop} (hstay : P c)
    (htimeout : c.agent.reading = false → c.self ∈ c.shared.timer.clients →
      P (c.onTimeout env fd success)) : P (c.step env (.timeout fd success)) := by
  rw [step]
  cases hreading : c.agent.reading with
  | true => exact hstay
  | false =>
    by_cases hmem : c.self ∈ c.shared.timer.clients
    · simpa [hmem] using htimeout hreading hmem
    · simpa [hmem] using hstay

/-- Everything the label `execute` can do. -/
theorem step_execute_cases {c : Ctx} {P : Ctx → Prop}
    (hstay : c.agent.reading = true ∨ c.agent.connected = false ∨ c.agent.choked = true → P c)
    (hexecute : c.agent.reading = false → c.agent.connected = true → c.agent.choked = false →
      P (c.requestPieces env)) : P (c.step env .execute) := by
  rw [step]
  cases hreading : c.agent.reading with
  | true => exact hstay (.inl hreading)
  | false =>
    change P (c.execute env)
    unfold execute
    cases hconn : c.agent.connected with
    | false => exact hstay (.inr (.inl hconn))
    | true =>
      cases hchoked : c.agent.choked with
      | true => exact hstay (.inr (.inr hchoked))
      | false => exact hexecute hreading hconn hchoked

/-! ### Connected agents have a socket -/

variable (env) in
omit [DecidableEq Digest] in
/-- A start leaves the descriptor that was opened, and tells whether `connect` succeeded. -/
lemma start_keeps (success : Bool) (c : Ctx) :
    (c.start env success).agent.fd = c.agent.fd ∧
      (c.start env success).agent.connected = success ∧
      (c.start env success).agent.reading = c.agent.reading ∧
      (c.start env success).agent.msgBuffer = c.agent.msgBuffer ∧
      (c.start env success).agent.choked = c.agent.choked ∧
      (c.start env success).self = c.self := by
  unfold start connect
  split_ifs <;> exact ⟨rfl, rfl, rfl, rfl, rfl, rfl⟩

omit [DecidableEq Digest] in
/-- A start leaves the timer alone. -/
lemma start_timer (success : Bool) (c : Ctx) :
    (c.start env success).shared.timer = c.shared.timer := by
  unfold start connect
  split_ifs <;> rfl

end Ctx

/-- An agent that is connected has a socket. -/
def Agent.SocketOpen (a : Agent) : Prop := a.connected = true → a.fd.isSome = true

namespace Ctx

variable {Digest : Type*} {env : AgentEnv Digest} [DecidableEq Digest]

variable (env) in
/-- Every step keeps a connected agent with a socket. -/
lemma socketOpen_step {c : Ctx} (l : Label) (hc : c.agent.SocketOpen) :
    (c.step env l).agent.SocketOpen := by
  cases l with
  | read result =>
    apply step_read_cases (P := fun c' => c'.agent.SocketOpen) hc
    · exact fun _ _ _ hconn => Bool.noConfusion hconn
    · exact fun _ _ _ _ _ hconn => hc hconn
  | frame =>
    apply step_frame_cases (P := fun c' => c'.agent.SocketOpen)
    · exact fun _ => hc
    · exact fun _ _ hconn => hc hconn
    · intro _ _ hconn
      obtain ⟨hfd, hconn', -⟩ := frame_keeps env c
      rw [hfd]
      exact hc (hconn'.symm.trans hconn)
  | write answer =>
    apply step_write_cases (P := fun c' => c'.agent.SocketOpen)
    · exact fun _ => hc
    · exact fun _ _ hfd _ => hfd
    · exact fun _ _ _ hconn => Bool.noConfusion hconn
    · exact fun _ _ _ hconn => hc hconn
    · exact fun _ _ _ hconn => hc hconn
  | timeout fd success =>
    apply step_timeout_cases (P := fun c' => c'.agent.SocketOpen) hc
    intro _ _ _
    unfold onTimeout
    rw [(start_keeps env success _).1]
    rfl
  | execute =>
    apply step_execute_cases (P := fun c' => c'.agent.SocketOpen)
    · exact fun _ => hc
    · intro _ _ _ hconn
      rw [requestPieces_connected] at hconn
      rw [requestPieces_fd]
      exact hc hconn

/-- A step of an agent is a step of that agent. -/
lemma step_self (l : Label) (c : Ctx) : (c.step env l).self = c.self := by
  cases l with
  | read result =>
    apply step_read_cases (P := fun c' => c'.self = c.self) rfl
    · exact fun _ _ _ => rfl
    · exact fun _ _ _ _ _ => rfl
  | frame =>
    apply step_frame_cases (P := fun c' => c'.self = c.self)
    · exact fun _ => rfl
    · exact fun _ _ => rfl
    · exact fun _ _ => (frame_keeps env c).2.2.2
  | write answer =>
    apply step_write_cases (P := fun c' => c'.self = c.self)
    · exact fun _ => rfl
    · exact fun _ _ _ => rfl
    · exact fun _ _ _ => rfl
    · exact fun _ _ _ => rfl
    · exact fun _ _ _ => rfl
  | timeout fd success =>
    apply step_timeout_cases (P := fun c' => c'.self = c.self) rfl
    exact fun _ _ => (start_keeps env success _).2.2.2.2.2
  | execute =>
    apply step_execute_cases (P := fun c' => c'.self = c.self)
    · exact fun _ => rfl
    · exact fun _ _ _ => requestPieces_self env c

/-- A step of an agent takes no other agent off the timer. -/
lemma mem_timer_step {c : Ctx} {i : ℕ} (hi : i ≠ c.self) (l : Label)
    (hmem : i ∈ c.shared.timer.clients) : i ∈ (c.step env l).shared.timer.clients := by
  have hreg : i ∈ (c.shared.timer.reg c.self).clients := List.mem_append_left _ hmem
  cases l with
  | read result =>
    apply step_read_cases (P := fun c' => i ∈ c'.shared.timer.clients) hmem
    · exact fun _ _ _ => hreg
    · exact fun _ _ _ _ _ => hmem
  | frame =>
    apply step_frame_cases (P := fun c' => i ∈ c'.shared.timer.clients)
    · exact fun _ => hmem
    · exact fun _ _ => hmem
    · intro _ _
      rw [frame_timer]
      exact hmem
  | write answer =>
    apply step_write_cases (P := fun c' => i ∈ c'.shared.timer.clients)
    · exact fun _ => hmem
    · exact fun _ _ _ => hmem
    · exact fun _ _ _ => hreg
    · exact fun _ _ _ => hmem
    · exact fun _ _ _ => hmem
  | timeout fd success =>
    apply step_timeout_cases (P := fun c' => i ∈ c'.shared.timer.clients) hmem
    intro _ _
    unfold onTimeout
    rw [start_timer]
    exact List.mem_filter.mpr ⟨hmem, by simpa using hi⟩
  | execute =>
    apply step_execute_cases (P := fun c' => i ∈ c'.shared.timer.clients)
    · exact fun _ => hmem
    · intro _ _ _
      rw [requestPieces_timer]
      exact hmem

omit [DecidableEq Digest] in
/-- The constructor leaves an agent with a socket. -/
lemma socketOpen_create (fd : ℕ) (success : Bool) (c : Ctx) :
    (c.create env fd success).agent.SocketOpen := by
  intro _
  unfold create
  rw [(start_keeps env success _).1]
  rfl

end Ctx

end Tent
