import Tent.Agent.Receive
import Tent.Session.World

/-!
# Reconnecting

What an agent decodes on a connection should depend only on the bytes received on that connection.
`Receiver` is the part of an agent that decides what is decoded, and steps without the rest
(`receiver_step`): neither the handler nor the send queue nor anything else that an earlier
connection left behind has a part in it, except the receive buffer.

The receive buffer is emptied neither by `disconnected` nor by `on_timeout`.  Bytes left in it when
a connection ends stand in front of the bytes of the next one, and whatever they are, there are
bytes that the peer can send so that they are taken for the beginning of a handshake.  So a
reconnect is clean exactly when the old connection ended with an empty buffer
(`clean_reconnect_iff`).
-/

set_option autoImplicit false

namespace Tent

open Bytes Transition

/-- The bytes received in a history. -/
def receivedBytes (events : List AgentEvent) : ByteString :=
  events.flatMap fun
    | .received bytes => bytes
    | _ => []

/-- The bytes chopped off the receive buffer in a history. -/
def choppedBytes (events : List AgentEvent) : ByteString :=
  events.flatMap fun
    | .chopped slice => slice
    | _ => []

@[simp] lemma receivedBytes_append (events₁ events₂ : List AgentEvent) :
    receivedBytes (events₁ ++ events₂) = receivedBytes events₁ ++ receivedBytes events₂ :=
  List.flatMap_append

@[simp] lemma choppedBytes_append (events₁ events₂ : List AgentEvent) :
    choppedBytes (events₁ ++ events₂) = choppedBytes events₁ ++ choppedBytes events₂ :=
  List.flatMap_append

/-! ### The bytes of a connection -/

/-- Between two states of an agent no byte was received or chopped off. -/
structure NoBytes (c c' : Ctx) : Prop where
  /-- The receive buffer stays. -/
  msgBuffer_eq : c'.agent.msgBuffer = c.agent.msgBuffer
  /-- No byte was received on the connection. -/
  received_eq : receivedBytes c'.agent.connection = receivedBytes c.agent.connection
  /-- No byte was chopped off. -/
  chopped_eq : choppedBytes c'.agent.connection = choppedBytes c.agent.connection

/-- New events without bytes. -/
lemma NoBytes.of_events {c c' : Ctx} (es : List AgentEvent)
    (htrace : c'.agent.trace = c.agent.trace ++ es)
    (hes : ∀ e ∈ es, e ≠ .opened ∧ receivedBytes [e] = [] ∧ choppedBytes [e] = [])
    (hbuffer : c'.agent.msgBuffer = c.agent.msgBuffer) : NoBytes c c' := by
  have hconn := Agent.connection_eq _ htrace fun hmem => (hes _ hmem).1 rfl
  have hreceived : receivedBytes es = [] := List.flatMap_eq_nil_iff.mpr fun e he => by
    simpa [receivedBytes] using (hes e he).2.1
  have hchopped : choppedBytes es = [] := List.flatMap_eq_nil_iff.mpr fun e he => by
    simpa [choppedBytes] using (hes e he).2.2
  refine ⟨hbuffer, ?_, ?_⟩
  · rw [hconn, receivedBytes_append, hreceived, List.append_nil]
  · rw [hconn, choppedBytes_append, hchopped, List.append_nil]

/-- No byte of an earlier connection is in the buffer or was chopped off: what was chopped off and
what is in the buffer is what was received. -/
def Agent.CleanBuffer (a : Agent) : Prop :=
  choppedBytes a.connection ++ a.msgBuffer = receivedBytes a.connection

/-- Without new bytes the buffer stays clean. -/
lemma NoBytes.cleanBuffer {c c' : Ctx} (h : NoBytes c c') (hc : c.agent.CleanBuffer) :
    c'.agent.CleanBuffer := by
  unfold Agent.CleanBuffer
  rw [h.msgBuffer_eq, h.received_eq, h.chopped_eq]
  exact hc

namespace Ctx

variable {Digest : Type*} {env : AgentEnv Digest}

/-- Requests carry no received bytes. -/
lemma noBytes_requestPieces (c : Ctx) : NoBytes c (c.requestPieces env) := by
  refine .of_events _ (requestPieces_trace env c) (fun e he => ?_) (requestPieces_msgBuffer env c)
  obtain ⟨req, -, rfl⟩ := List.mem_map.mp he
  exact ⟨by simp [pushedRequest], rfl, rfl⟩

variable (env) in
/-- Chopping moves bytes from the buffer to the slice. -/
lemma chop_bytes (c : Ctx) :
    receivedBytes (c.chop env).agent.connection = receivedBytes c.agent.connection ∧
      choppedBytes (c.chop env).agent.connection =
        choppedBytes c.agent.connection ++ c.slice env := by
  have hconn : (c.chop env).agent.connection = c.agent.connection ++ [.chopped (c.slice env)] :=
    Agent.connection_eq _ rfl (by simp)
  rw [hconn, receivedBytes_append, choppedBytes_append]
  simp [receivedBytes, choppedBytes]

variable [DecidableEq Digest]

/-- Handling a message moves no bytes. -/
lemma noBytes_handleMsg (msg : Message) (c : Ctx) : NoBytes c (c.handleMsg env msg) := by
  obtain ⟨es, htrace, hes⟩ := handleMsg_events env msg c
  refine .of_events _ htrace (fun e he => ?_) (handleMsg_msgBuffer msg c)
  rcases List.mem_cons.mp he with rfl | he
  · exact ⟨by simp, rfl, rfl⟩
  · rcases hes e he with ⟨st, rfl | rfl⟩ | ⟨req, rfl⟩
    · exact ⟨by simp, rfl, rfl⟩
    · exact ⟨by simp, rfl, rfl⟩
    · exact ⟨by simp [pushedRequest], rfl, rfl⟩

variable (env) in
/-- A pass of the receive loop moves the slice at the front of the buffer. -/
lemma noBytes_frame (c : Ctx) : NoBytes (c.chop env) (c.frame env) := by
  apply frame_cases (P := fun c' => NoBytes (c.chop env) c')
  · exact fun _ _ => ⟨rfl, rfl, rfl⟩
  · intro _ _
    exact .of_events [.raised c.agent.state .handshake,
      .pushed .interested MsgFactory.interested]
      (by simp [onHandshake, interested, push, raise, reg, chopHandshake, chop])
      (by simp [receivedBytes, choppedBytes]) rfl
  · exact fun _ => noBytes_handleMsg _ _

variable (env) in
omit [DecidableEq Digest] in
/-- A start moves no bytes of the connection it opens. -/
lemma noBytes_start (success : Bool) (c : Ctx) : NoBytes c (c.start env success) := by
  unfold start connect
  split_ifs
  · exact .of_events [.raised c.agent.state .start, .raised .started .connected,
      .pushed .handshake (MsgFactory.handshake env.oob env.localPeerId env.infoHash)]
      (by simp [onConnected, handshake, push, raise, reg, attempt])
      (by simp [receivedBytes, choppedBytes]) rfl
  · exact .of_events [.raised c.agent.state .start] rfl
      (by simp [receivedBytes, choppedBytes]) rfl

/-- On a connection that started clean the buffer stays clean. -/
lemma cleanBuffer_step {c : Ctx} {l : Label} (hl : ∀ fd success, l ≠ .timeout fd success)
    (hc : c.agent.CleanBuffer) : (c.step env l).agent.CleanBuffer := by
  cases l with
  | timeout fd success => exact absurd rfl (hl fd success)
  | read result =>
    apply step_read_cases (P := fun c' => c'.agent.CleanBuffer) hc
    · intro _ _ _
      have hno : NoBytes c c.onDisconnected :=
        .of_events [.raised c.agent.state .disconnected] rfl
          (by simp [receivedBytes, choppedBytes]) rfl
      exact hno.cleanBuffer hc
    · intro b bytes _ _ _
      have hconn : ((c.append (b :: bytes)).setReading true).agent.connection =
          c.agent.connection ++ [.received (b :: bytes)] := Agent.connection_eq _ rfl (by simp)
      have hbuffer : ((c.append (b :: bytes)).setReading true).agent.msgBuffer =
          c.agent.msgBuffer ++ (b :: bytes) := rfl
      unfold Agent.CleanBuffer
      rw [hconn, hbuffer, choppedBytes_append, receivedBytes_append, ← hc]
      simp [choppedBytes, receivedBytes]
  | frame =>
    apply step_frame_cases (P := fun c' => c'.agent.CleanBuffer)
    · exact fun _ => hc
    · exact fun _ _ => hc
    · intro _ _
      refine (noBytes_frame env c).cleanBuffer ?_
      obtain ⟨hreceived, hchopped⟩ := chop_bytes env c
      unfold Agent.CleanBuffer
      rw [hreceived, hchopped, List.append_assoc, ← hc]
      congr 1
      exact List.take_append_drop _ _
  | write answer =>
    apply step_write_cases (P := fun c' => c'.agent.CleanBuffer)
    · exact fun _ => hc
    · intro _ _ _
      have hno : NoBytes c ((c.setConnected.unregEvents .writable).onConnected env) :=
        .of_events [.raised c.agent.state .connected, .pushed .handshake
          (MsgFactory.handshake env.oob env.localPeerId env.infoHash)]
          (by simp [onConnected, handshake, push, raise, reg, unregEvents, setConnected])
          (by simp [receivedBytes, choppedBytes]) rfl
      exact hno.cleanBuffer hc
    · exact fun _ _ _ => hc
    · intro _ _ _
      have hno : NoBytes c (c.sent answer) := .of_events [_] rfl
        (by simp [receivedBytes, choppedBytes]) rfl
      exact hno.cleanBuffer hc
    · intro _ _ _
      have hno : NoBytes c ((c.sent answer).unregEvents .writable) := .of_events [_] rfl
        (by simp [receivedBytes, choppedBytes]) rfl
      exact hno.cleanBuffer hc
  | execute =>
    apply step_execute_cases (P := fun c' => c'.agent.CleanBuffer)
    · exact fun _ => hc
    · exact fun _ _ _ => (noBytes_requestPieces c).cleanBuffer hc

end Ctx

/-! ### The receiving part of an agent -/

/-- The part of an agent that decides what is decoded. -/
structure Receiver where
  /-- The state of the state machine. -/
  state : SessionState
  /-- The receive buffer. -/
  buffer : ByteString
  /-- `connected_`. -/
  connected : Bool
  /-- Whether the socket is open. -/
  isOpen : Bool
  /-- Whether the agent is inside the receive loop. -/
  reading : Bool
  /-- What was decoded on the connection. -/
  decoded : List Decoded

/-- The receiving part of an agent. -/
def Agent.receiver (a : Agent) : Receiver :=
  ⟨a.state, a.msgBuffer, a.connected, a.fd.isSome, a.reading, decodedOf a.connection⟩

namespace Receiver

/-- The framer of a receiver. -/
def framer (r : Receiver) : Framer := ⟨r.state.isHandshakeReceived, r.buffer, r.decoded⟩

/-- The state after a message. -/
def stateAfter (state : SessionState) (msg : Message) : SessionState :=
  if msg.id = .choke then .choked else if msg.id = .unchoke then .unchoked else state

/-- A pass of the receive loop. -/
def frame (oob : Oob) (r : Receiver) : Receiver :=
  { r with
    state :=
      if r.state.isHandshakeReceived then
        stateAfter r.state (.ofSlice oob (r.buffer.take (r.framer.len oob)))
      else if validateHandshake oob (r.buffer.take (r.framer.len oob)) then .handshakeReceived
      else r.state
    buffer := (r.framer.advance oob).buffer
    decoded := (r.framer.advance oob).decoded }

/-- A step on one connection. -/
def step (oob : Oob) (r : Receiver) : Label → Receiver
  | .read (some []) =>
    if r.reading = false ∧ r.isOpen = true then
      { r with state := .disconnected, connected := false, isOpen := false }
    else r
  | .read (some (b :: bytes)) =>
    if r.reading = false ∧ r.isOpen = true then
      { r with buffer := r.buffer ++ b :: bytes, reading := true }
    else r
  | .frame =>
    if r.reading = false then r
    else if r.framer.ready oob then r.frame oob
    else { r with reading := false }
  | .write answer =>
    if r.reading = false ∧ r.connected = false ∧ r.isOpen = true then
      match answer.soError with
      | none => r
      | some 0 => { r with state := .connected, connected := true }
      | some (_ + 1) => { r with connected := false, isOpen := false }
    else r
  | _ => r

end Receiver

namespace Ctx

variable {Digest : Type*} {env : AgentEnv Digest} [DecidableEq Digest]

/-- The state after a message was handled. -/
lemma handleMsg_state_eq (msg : Message) (c : Ctx) :
    (c.handleMsg env msg).agent.state = Receiver.stateAfter c.agent.state msg := by
  unfold Receiver.stateAfter
  apply handleMsg_cases (P := fun c' => c'.agent.state = _)
  · intro hid
    rw [if_pos hid]
    rfl
  · intro hid
    rw [if_neg (by simp [hid]), if_pos hid, onUnchoke, requestPieces_state]
    rfl
  · intro hid
    rw [if_neg (by simp [hid]), if_neg (by simp [hid])]
    rfl
  · intro hid
    rw [if_neg (by simp [hid]), if_neg (by simp [hid]), requestPieces_state]
    rfl
  · intro h₁ h₂ _ _
    rw [if_neg h₁, if_neg h₂]
    rfl

/-- A pass of the receive loop is a pass of the receiver. -/
lemma receiver_frame (c : Ctx) :
    (c.frame env).agent.receiver = c.agent.receiver.frame env.oob := by
  obtain ⟨es, htrace, hopened⟩ := frame_events env c
  obtain ⟨hfd, hconn, hreading, -⟩ := frame_keeps env c
  have hframer := framer_frame env c
  have hbuffer : (c.frame env).agent.msgBuffer = (c.framer.advance env.oob).buffer :=
    congrArg Framer.buffer hframer
  have hdecoded : decodedOf (c.frame env).agent.connection =
      (c.agent.receiver.framer.advance env.oob).decoded := by
    have htotal : decodedOf c.agent.trace ++ decodedOf es = (c.framer.advance env.oob).decoded := by
      rw [← hframer, framer, htrace, decodedOf_append]
    rw [Agent.connection_eq _ htrace hopened, decodedOf_append]
    exact congrArg (decodedOf c.agent.connection ++ ·) (List.append_cancel_left htotal)
  have hstate : (c.frame env).agent.state =
      if c.agent.state.isHandshakeReceived then
        Receiver.stateAfter c.agent.state (.ofSlice env.oob (c.slice env))
      else if validateHandshake env.oob (c.slice env) then .handshakeReceived
      else c.agent.state := by
    apply frame_cases (P := fun c' => c'.agent.state = _)
    · intro hhs hvalid
      rw [hhs, hvalid]
      rfl
    · intro hhs hvalid
      rw [hhs, hvalid]
      rfl
    · intro hhs
      rw [if_pos hhs, handleMsg_state_eq]
      rfl
  unfold Agent.receiver Receiver.frame
  rw [hfd, hconn, hreading, hbuffer, hdecoded, hstate]
  rfl

/-- New events that decode nothing. -/
lemma receiver_decoded_eq {c c' : Ctx} (es : List AgentEvent)
    (htrace : c'.agent.trace = c.agent.trace ++ es)
    (hes : ∀ e ∈ es, e ≠ .opened ∧ e.decoded = none) :
    decodedOf c'.agent.connection = decodedOf c.agent.connection := by
  have hnil : decodedOf es = [] := List.filterMap_eq_nil_iff.mpr fun e he => (hes e he).2
  rw [Agent.connection_eq _ htrace fun hmem => (hes _ hmem).1 rfl, decodedOf_append, hnil,
    List.append_nil]

omit [DecidableEq Digest] in
/-- Reading is a step of the receiver. -/
lemma receiver_read {c : Ctx} (hreading : c.agent.reading = false) (result : Option ByteString) :
    (c.read result).agent.receiver = c.agent.receiver.step env.oob (.read result) := by
  have hr : c.agent.receiver.reading = false := hreading
  cases hfd : c.agent.fd with
  | none =>
    have ho : c.agent.receiver.isOpen = false := by rw [Agent.receiver, hfd]; rfl
    have hstay : c.read result = c := by simp [read, hfd]
    rw [hstay]
    rcases result with _ | _ | ⟨b, bytes⟩
    · rfl
    · simp [Receiver.step, ho]
    · simp [Receiver.step, ho]
  | some fd =>
    have ho : c.agent.receiver.isOpen = true := by rw [Agent.receiver, hfd]; rfl
    rcases result with _ | _ | ⟨b, bytes⟩
    · have hstay : c.read none = c := by simp [read, hfd]
      rw [hstay]
      rfl
    · have hread : c.read (some []) = c.onDisconnected := by simp [read, hfd]
      have hdec : decodedOf c.onDisconnected.agent.connection = decodedOf c.agent.connection :=
        receiver_decoded_eq [.raised c.agent.state .disconnected] rfl
          (by simp [AgentEvent.decoded])
      rw [hread, Receiver.step, if_pos ⟨hr, ho⟩, Agent.receiver, hdec]
      rfl
    · have hread : c.read (some (b :: bytes)) = (c.append (b :: bytes)).setReading true := by
        simp [read, hfd]
      have hdec : decodedOf ((c.append (b :: bytes)).setReading true).agent.connection =
          decodedOf c.agent.connection :=
        receiver_decoded_eq [.received (b :: bytes)] rfl (by simp [AgentEvent.decoded])
      rw [hread, Receiver.step, if_pos ⟨hr, ho⟩, Agent.receiver, hdec]
      rfl

omit [DecidableEq Digest] in
/-- Writing is a step of the receiver. -/
lemma receiver_write {c : Ctx} (hreading : c.agent.reading = false) (answer : WriteAnswer) :
    (c.write env answer).agent.receiver = c.agent.receiver.step env.oob (.write answer) := by
  have hr : c.agent.receiver.reading = false := hreading
  cases hconn : c.agent.connected with
  | true =>
    have hc : ¬ (c.agent.receiver.reading = false ∧ c.agent.receiver.connected = false ∧
        c.agent.receiver.isOpen = true) := fun h => absurd (hconn.symm.trans h.2.1) (by simp)
    have hdec : decodedOf (c.sent answer).agent.connection = decodedOf c.agent.connection :=
      receiver_decoded_eq [_] rfl (by simp [AgentEvent.decoded])
    have hsent : (c.sent answer).agent.receiver = c.agent.receiver := by
      unfold Agent.receiver
      rw [hdec]
      rfl
    rw [Receiver.step, if_neg hc, write, hconn, if_neg (by simp)]
    split_ifs
    · exact hsent
    · exact hsent
  | false =>
    have hcn : c.agent.receiver.connected = false := hconn
    unfold write
    rw [hconn, if_pos (by simp)]
    cases hfd : c.agent.fd with
    | none =>
      have ho : c.agent.receiver.isOpen = false := by rw [Agent.receiver, hfd]; rfl
      simp [WriteAnswer.on, Receiver.step, ho]
    | some fd =>
      have ho : c.agent.receiver.isOpen = true := by rw [Agent.receiver, hfd]; rfl
      have hon : answer.on (some fd) = answer := rfl
      rw [hon, Receiver.step, if_pos ⟨hr, hcn, ho⟩]
      cases answer.soError with
      | none => rfl
      | some error =>
        cases error with
        | zero =>
          have hdec : decodedOf
              ((c.setConnected.unregEvents .writable).onConnected env).agent.connection =
              decodedOf c.agent.connection :=
            receiver_decoded_eq [.raised c.agent.state .connected, .pushed .handshake
              (MsgFactory.handshake env.oob env.localPeerId env.infoHash)]
              (by simp [onConnected, handshake, push, raise, reg, unregEvents, setConnected])
              (by simp [AgentEvent.decoded])
          change ((c.setConnected.unregEvents .writable).onConnected env).agent.receiver = _
          unfold Agent.receiver
          rw [hdec]
          rfl
        | succ error => rfl

/-- On one connection the receiving part of an agent steps by itself. -/
lemma receiver_step (c : Ctx) {l : Label} (hl : ∀ fd success, l ≠ .timeout fd success) :
    (c.step env l).agent.receiver = c.agent.receiver.step env.oob l := by
  cases l with
  | timeout fd success => exact absurd rfl (hl fd success)
  | read result =>
    cases hreading : c.agent.reading with
    | true =>
      have hr : c.agent.receiver.reading = true := hreading
      rw [step, hreading]
      rcases result with _ | _ | ⟨b, bytes⟩
      · rfl
      · simp [Receiver.step, hr]
      · simp [Receiver.step, hr]
    | false =>
      rw [step, hreading]
      exact receiver_read hreading result
  | frame =>
    apply step_frame_cases (P := fun c' => c'.agent.receiver = c.agent.receiver.step env.oob .frame)
    · intro hreading
      exact (if_pos hreading).symm
    · intro hreading hready
      have hr : ¬ c.agent.receiver.reading = false := by
        change ¬ c.agent.reading = false
        simp [hreading]
      have hnot : ¬ c.agent.receiver.framer.ready env.oob = true := by
        change ¬ c.frameReady env = true
        simp [hready]
      rw [Receiver.step, if_neg hr, if_neg hnot]
      rfl
    · intro hreading hready
      have hr : ¬ c.agent.receiver.reading = false := by
        change ¬ c.agent.reading = false
        simp [hreading]
      have hyes : c.agent.receiver.framer.ready env.oob = true := hready
      rw [Receiver.step, if_neg hr, if_pos hyes, receiver_frame]
  | write answer =>
    cases hreading : c.agent.reading with
    | true =>
      have hr : c.agent.receiver.reading = true := hreading
      rw [step, hreading]
      simp [Receiver.step, hr]
    | false =>
      rw [step, hreading]
      exact receiver_write hreading answer
  | execute =>
    apply step_execute_cases (P := fun c' => c'.agent.receiver = c.agent.receiver)
    · exact fun _ => rfl
    · intro _ _ _
      have hdec : decodedOf (c.requestPieces env).agent.connection =
          decodedOf c.agent.connection := by
        refine receiver_decoded_eq _ (requestPieces_trace env c) fun e he => ?_
        obtain ⟨req, -, rfl⟩ := List.mem_map.mp he
        exact ⟨by simp [pushedRequest], rfl⟩
      rw [Agent.receiver, hdec]
      simp only [requestPieces_state, requestPieces_msgBuffer, requestPieces_connected,
        requestPieces_fd, requestPieces_reading]
      rfl

/-! ### Closing and reopening -/

/-- The agent after the peer closed the connection. -/
lemma step_closed {c : Ctx} (hreading : c.agent.reading = false)
    (hfd : c.agent.fd.isSome = true) : c.step env (.read (some [])) = c.onDisconnected := by
  obtain ⟨old, hold⟩ := Option.isSome_iff_exists.mp hfd
  simp [step, hreading, read, hold]

/-- The agent after some bytes arrived. -/
lemma step_data {c : Ctx} (hreading : c.agent.reading = false)
    (hfd : c.agent.fd.isSome = true) (b : UInt8) (bytes : ByteString) :
    c.step env (.read (some (b :: bytes))) = (c.append (b :: bytes)).setReading true := by
  obtain ⟨old, hold⟩ := Option.isSome_iff_exists.mp hfd
  simp [step, hreading, read, hold]

/-- An agent without a socket waits for the timer. -/
lemma step_of_closed {c : Ctx} {l : Label} (hl : ∀ fd success, l ≠ .timeout fd success)
    (hreading : c.agent.reading = false) (hfd : c.agent.fd = none)
    (hconn : c.agent.connected = false) : c.step env l = c := by
  cases l with
  | timeout fd success => exact absurd rfl (hl fd success)
  | read result => simp [step, hreading, read, hfd]
  | frame => simp [step, hreading]
  | write answer => simp [step, hreading, write, hconn, hfd, WriteAnswer.on]
  | execute => simp [step, hreading, execute, hconn]

variable (env) in
omit [DecidableEq Digest] in
/-- The receiving part of a reopened agent: everything is as it is after the constructor, but the
receive buffer. -/
lemma receiver_onTimeout (c : Ctx) (fd : ℕ) (success : Bool) :
    (c.onTimeout env fd success).agent.receiver =
      ⟨if success then .connected else .started, c.agent.msgBuffer, success, true,
        c.agent.reading, []⟩ := by
  have hopen : (c.clearQueue.closeSocket.openSocket fd).agent.connection = [] :=
    since_concat_mark _ _
  set opened := (c.clearQueue.closeSocket.openSocket fd).reg .readable with hopened
  have hconn : opened.agent.connection = [] := hopen
  unfold onTimeout
  rw [← hopened, start, connect]
  cases success with
  | true =>
    have hdec : decodedOf (((opened.raise .start .started).attempt true).onConnected
        env).agent.connection = [] := by
      rw [receiver_decoded_eq (c := opened) [.raised opened.agent.state .start,
        .raised .started .connected, .pushed .handshake
          (MsgFactory.handshake env.oob env.localPeerId env.infoHash)]
        (by simp [onConnected, handshake, push, raise, reg, attempt])
        (by simp [AgentEvent.decoded]), hconn]
      rfl
    rw [if_pos rfl, Agent.receiver, hdec]
    rfl
  | false =>
    have hdec : decodedOf (((opened.raise .start .started).attempt false).reg
        .writable).agent.connection = [] := by
      rw [receiver_decoded_eq (c := opened) [.raised opened.agent.state .start] rfl
        (by simp [AgentEvent.decoded]), hconn]
      rfl
    rw [if_neg (by simp), Agent.receiver, hdec]
    rfl

variable (env) in
omit [DecidableEq Digest] in
/-- No byte was received or chopped off on a connection that was just opened. -/
lemma onTimeout_bytes (c : Ctx) (fd : ℕ) (success : Bool) :
    receivedBytes (c.onTimeout env fd success).agent.connection = [] ∧
      choppedBytes (c.onTimeout env fd success).agent.connection = [] := by
  have hopen : (c.clearQueue.closeSocket.openSocket fd).agent.connection = [] :=
    since_concat_mark _ _
  have hno := noBytes_start env success
    ((c.clearQueue.closeSocket.openSocket fd).reg .readable)
  have hconn : ((c.clearQueue.closeSocket.openSocket fd).reg .readable).agent.connection = [] :=
    hopen
  unfold onTimeout
  rw [hno.received_eq, hno.chopped_eq, hconn]
  exact ⟨rfl, rfl⟩

variable (env) in
/-- A byte left in the buffer by the old connection is taken for the beginning of a handshake on the
new one, when the peer sends enough other bytes. -/
lemma leftover_chopped {c : Ctx} {x : UInt8} {rest : ByteString}
    (hreading : c.agent.reading = false) (hbuffer : c.agent.msgBuffer = x :: rest) (fd : ℕ) :
    ¬ choppedBytes (((c.onTimeout env fd true).step env
          (.read (some (List.replicate 304 (x + 1))))).step env .frame).agent.connection <+:
        receivedBytes (((c.onTimeout env fd true).step env
          (.read (some (List.replicate 304 (x + 1))))).step env .frame).agent.connection := by
  set opened := c.onTimeout env fd true with hopened
  have hreceiver := receiver_onTimeout env c fd true
  have hstate : opened.agent.state = .connected := congrArg Receiver.state hreceiver
  have hbuf : opened.agent.msgBuffer = x :: rest :=
    (congrArg Receiver.buffer hreceiver).trans hbuffer
  have hopen : opened.agent.fd.isSome = true := congrArg Receiver.isOpen hreceiver
  have hidle : opened.agent.reading = false :=
    (congrArg Receiver.reading hreceiver).trans hreading
  obtain ⟨hreceived, hchopped⟩ := onTimeout_bytes env c fd true
  rw [← hopened] at hreceived hchopped
  set bytes : ByteString := List.replicate 304 (x + 1) with hbytes
  have hread : opened.step env (.read (some bytes)) = (opened.append bytes).setReading true :=
    step_data hidle hopen (x + 1) (List.replicate 303 (x + 1))
  set next := (opened.append bytes).setReading true with hnext
  have hconn : next.agent.connection = opened.agent.connection ++ [.received bytes] :=
    Agent.connection_eq _ rfl (by simp)
  have hfront : next.agent.msgBuffer = x :: (rest ++ bytes) := by
    change opened.agent.msgBuffer ++ bytes = _
    rw [hbuf, List.cons_append]
  have hlen : next.msgLen env = x.toNat + 49 := by
    have hhs : next.agent.state.isHandshakeReceived = false := by
      change opened.agent.state.isHandshakeReceived = false
      rw [hstate]
      rfl
    unfold msgLen
    rw [hhs, hfront]
    rfl
  have hx : x.toNat < 256 := x.toNat_lt
  have hready : next.frameReady env = true := by
    have hlength : next.agent.msgBuffer.length = rest.length + 305 := by
      rw [hfront, List.length_cons, List.length_append, hbytes, List.length_replicate]
    unfold frameReady
    rw [hlen, hlength, Bool.and_eq_true, decide_eq_true_eq, decide_eq_true_eq]
    omega
  have hframe : next.step env .frame = next.frame env := by
    rw [step]
    change (if true = true then _ else _) = _
    rw [if_pos rfl, if_pos hready]
  obtain ⟨hrec, hchop⟩ := chop_bytes env next
  have hno := noBytes_frame env next
  rw [hread, hframe, hno.received_eq, hno.chopped_eq, hrec, hchop, hconn, receivedBytes_append,
    choppedBytes_append, hreceived, hchopped]
  have hslice : next.slice env = x :: (rest ++ bytes).take (x.toNat + 48) := by
    unfold slice
    rw [hlen, hfront]
    rfl
  rw [hslice]
  intro hprefix
  have hhead : x :: (rest ++ bytes).take (x.toNat + 48) <+: bytes := by
    simpa [receivedBytes, choppedBytes] using hprefix
  have hmem : x ∈ bytes := hhead.subset List.mem_cons_self
  have heq : x = x + 1 := List.eq_of_mem_replicate hmem
  have hone : (1 : UInt8) = 0 := by
    have hadd : x + 0 = x + 1 := (UInt8.add_zero x).trans heq
    exact ((UInt8.add_right_inj x).mp hadd).symm
  exact absurd hone (by decide)

end Ctx

namespace World

variable {Digest : Type*} {env : AgentEnv Digest} [DecidableEq Digest]

/-- What two runs over the same labels decode on the current connection of an agent is the same, and
in both only bytes received on this connection were chopped off. -/
structure CleanReconnect (i : ℕ) (w₁ w₂ : World) : Prop where
  /-- The handshake events and the decoded messages are the same. -/
  decoded_eq : decodedOf (w₁.agents i).connection = decodedOf (w₂.agents i).connection
  /-- The first run interprets bytes of this connection only. -/
  chopped₁ : choppedBytes (w₁.agents i).connection <+: receivedBytes (w₁.agents i).connection
  /-- The second run interprets bytes of this connection only. -/
  chopped₂ : choppedBytes (w₂.agents i).connection <+: receivedBytes (w₂.agents i).connection

/-- The agent waits for its socket. -/
structure Waiting (i : ℕ) (w : World) : Prop where
  /-- The agent is not inside the receive loop. -/
  reading_eq : (w.agents i).reading = false
  /-- Its socket is open. -/
  isOpen : (w.agents i).fd.isSome = true

/-- The agent waits for the timer to reconnect it, with some bytes left in its receive buffer. -/
structure Closed (i : ℕ) (buffer : ByteString) (w : World) : Prop where
  /-- The agent is not inside the receive loop. -/
  reading_eq : (w.agents i).reading = false
  /-- It has no socket. -/
  fd_eq : (w.agents i).fd = none
  /-- It is not connected. -/
  connected_eq : (w.agents i).connected = false
  /-- The timer will call it. -/
  mem_timer : i ∈ w.shared.timer.clients
  /-- Its receive buffer. -/
  msgBuffer_eq : (w.agents i).msgBuffer = buffer

/-- Labels under which an agent stays on its connection. -/
def NoTimeout (i : ℕ) (label : ℕ × Label) : Prop := ∀ fd success, label ≠ (i, .timeout fd success)

/-- An agent whose peer closed the connection waits for the timer. -/
lemma closed_step {w : World} {i : ℕ} (hw : Waiting i w) :
    Closed i (w.agents i).msgBuffer (w.step env (i, .read (some []))) := by
  have hctx : (w.step env (i, .read (some []))).ctx i = (w.ctx i).onDisconnected :=
    (ctx_step_self w i _).trans (Ctx.step_closed hw.reading_eq hw.isOpen)
  have hagent : (w.step env (i, .read (some []))).agents i = (w.ctx i).onDisconnected.agent :=
    congrArg Ctx.agent hctx
  have htimer : i ∈ (w.step env (i, .read (some []))).shared.timer.clients := by
    have hshared := congrArg Ctx.shared hctx
    change i ∈ ((w.step env (i, .read (some []))).ctx i).shared.timer.clients
    rw [hshared]
    exact List.mem_append_right _ (List.mem_singleton_self i)
  exact {
    reading_eq := by rw [hagent]; exact hw.reading_eq
    fd_eq := by rw [hagent]; rfl
    connected_eq := by rw [hagent]; rfl
    mem_timer := htimer
    msgBuffer_eq := by rw [hagent]; rfl }

/-- Until the timer calls, the agent keeps waiting whatever happens. -/
lemma Closed.step {i : ℕ} {buffer : ByteString} {w : World} (hw : Closed i buffer w)
    {label : ℕ × Label} (hlabel : NoTimeout i label) : Closed i buffer (w.step env label) := by
  by_cases hi : i = label.1
  · subst hi
    have hstay : (w.ctx label.1).step env label.2 = w.ctx label.1 :=
      Ctx.step_of_closed (fun fd success heq => hlabel fd success (Prod.ext rfl heq))
        hw.reading_eq hw.fd_eq hw.connected_eq
    have hagent : (w.step env label).agents label.1 = w.agents label.1 := by
      rw [step_agents_self, hstay]
      rfl
    have hshared : (w.step env label).shared = w.shared := congrArg Ctx.shared hstay
    exact {
      reading_eq := by rw [hagent]; exact hw.reading_eq
      fd_eq := by rw [hagent]; exact hw.fd_eq
      connected_eq := by rw [hagent]; exact hw.connected_eq
      mem_timer := by rw [hshared]; exact hw.mem_timer
      msgBuffer_eq := by rw [hagent]; exact hw.msgBuffer_eq }
  · have hagent := step_agents_of_ne env (w := w) hi
    exact {
      reading_eq := by rw [hagent]; exact hw.reading_eq
      fd_eq := by rw [hagent]; exact hw.fd_eq
      connected_eq := by rw [hagent]; exact hw.connected_eq
      mem_timer := Ctx.mem_timer_step (c := w.ctx label.1) hi label.2 hw.mem_timer
      msgBuffer_eq := by rw [hagent]; exact hw.msgBuffer_eq }

variable (env) in
/-- From the end of a connection to the call of the timer the agent waits. -/
lemma closed_run {w : World} {i : ℕ} (hw : Waiting i w) {pause : List (ℕ × Label)}
    (hpause : ∀ label ∈ pause, NoTimeout i label) :
    Closed i (w.agents i).msgBuffer (run (World.step env) w ((i, .read (some [])) :: pause)) := by
  rw [run_cons]
  exact run_invariant (P := Closed i (w.agents i).msgBuffer) (V := NoTimeout i)
    (fun _ _ hlabel hw => hw.step hlabel) hpause (closed_step hw)

variable (env) in
/-- When the timer calls, the agent opens a new connection. -/
lemma Closed.ctx_reopened {i : ℕ} {buffer : ByteString} {w : World} (hw : Closed i buffer w)
    (fd : ℕ) (success : Bool) :
    (w.step env (i, .timeout fd success)).ctx i = (w.ctx i).onTimeout env fd success := by
  have hreading : (w.ctx i).agent.reading = false := hw.reading_eq
  have hmem : (w.ctx i).self ∈ (w.ctx i).shared.timer.clients := hw.mem_timer
  rw [ctx_step_self, Ctx.step, hreading, decide_eq_true hmem]
  rfl

variable (env) in
/-- The receiving part of an agent whose timer called: nothing but the receive buffer is left of
what was before. -/
lemma Closed.receiver_reopened {i : ℕ} {buffer : ByteString} {w : World} (hw : Closed i buffer w)
    (fd : ℕ) (success : Bool) :
    ((w.step env (i, .timeout fd success)).agents i).receiver =
      ⟨if success then .connected else .started, buffer, success, true, false, []⟩ := by
  have hagent := congrArg Ctx.agent (hw.ctx_reopened env fd success)
  have hreceiver := Ctx.receiver_onTimeout env (w.ctx i) fd success
  rw [← hagent] at hreceiver
  rw [← hw.msgBuffer_eq, ← hw.reading_eq]
  exact hreceiver

/-- If nothing was left in the buffer, the new connection starts with a clean one. -/
lemma Closed.cleanBuffer_reopened {i : ℕ} {w : World} (hw : Closed i [] w) (fd : ℕ)
    (success : Bool) : ((w.step env (i, .timeout fd success)).agents i).CleanBuffer := by
  have hagent := congrArg Ctx.agent (hw.ctx_reopened env fd success)
  have hbuffer := congrArg Receiver.buffer (hw.receiver_reopened env fd success)
  obtain ⟨hreceived, hchopped⟩ := Ctx.onTimeout_bytes env (w.ctx i) fd success
  rw [← hagent] at hreceived hchopped
  change choppedBytes ((w.step env (i, .timeout fd success)).ctx i).agent.connection ++ _ =
    receivedBytes ((w.step env (i, .timeout fd success)).ctx i).agent.connection
  rw [hreceived, hchopped]
  exact hbuffer

variable (env) in
/-- Two runs from states in which the receiving parts of an agent are the same decode the same. -/
lemma receiver_run {i : ℕ} {labels : List (ℕ × Label)}
    (hlabels : ∀ label ∈ labels, NoTimeout i label) {w₁ w₂ : World}
    (h : (w₁.agents i).receiver = (w₂.agents i).receiver) :
    ((run (step env) w₁ labels).agents i).receiver =
      ((run (step env) w₂ labels).agents i).receiver := by
  refine run_rel (R := fun w₁ w₂ : World => (w₁.agents i).receiver = (w₂.agents i).receiver)
    (V := NoTimeout i) ?_ hlabels h
  intro w₁ w₂ label hlabel hrel
  by_cases hi : i = label.1
  · subst hi
    have hl : ∀ fd success, label.2 ≠ .timeout fd success := fun fd success heq =>
      hlabel fd success (Prod.ext rfl heq)
    rw [step_agents_self, step_agents_self, Ctx.receiver_step _ hl, Ctx.receiver_step _ hl]
    exact congrArg (fun r => Receiver.step env.oob r label.2) hrel
  · rw [step_agents_of_ne env hi, step_agents_of_ne env hi]
    exact hrel

/-- The buffer of an agent stays clean along a run on one connection. -/
lemma cleanBuffer_run {i : ℕ} {labels : List (ℕ × Label)}
    (hlabels : ∀ label ∈ labels, NoTimeout i label) {w : World}
    (h : (w.agents i).CleanBuffer) : ((run (step env) w labels).agents i).CleanBuffer := by
  refine run_invariant (P := fun w : World => (w.agents i).CleanBuffer) (V := NoTimeout i) ?_
    hlabels h
  intro w label hlabel hw
  by_cases hi : i = label.1
  · subst hi
    rw [step_agents_self]
    exact Ctx.cleanBuffer_step (fun fd success heq => hlabel fd success (Prod.ext rfl heq)) hw
  · rw [step_agents_of_ne env hi]
    exact hw

/-- What happens from the end of a connection on: things that do not concern the agent, the call of
the timer, and what happens on the new connection. -/
def reconnecting (i : ℕ) (pause : List (ℕ × Label)) (fd : ℕ) (success : Bool)
    (labels : List (ℕ × Label)) : List (ℕ × Label) :=
  ((i, .read (some [])) :: pause) ++ (i, .timeout fd success) :: labels

/-- Bytes left in the receive buffer can be taken for bytes of the next connection. -/
lemma buffer_eq_nil_of_chopped {i : ℕ} {w : World} (hw : Waiting i w)
    (hclean : ∀ labels : List (ℕ × Label), (∀ label ∈ labels, NoTimeout i label) →
      choppedBytes ((run (step env) w (reconnecting i [] 0 true labels)).agents i).connection <+:
        receivedBytes ((run (step env) w (reconnecting i [] 0 true labels)).agents i).connection) :
    (w.agents i).msgBuffer = [] := by
  cases hbuffer : (w.agents i).msgBuffer with
  | nil => rfl
  | cons x rest =>
    have hclosed := closed_run env hw (by simp : ∀ label ∈ [], NoTimeout i label)
    set closed := run (step env) w [(i, .read (some []))] with hclosed_def
    have hdirty := Ctx.leftover_chopped env (c := closed.ctx i) (x := x)
      hclosed.reading_eq (hclosed.msgBuffer_eq.trans hbuffer) 0
    set bytes : ByteString := List.replicate 304 (x + 1) with hbytes
    have hnone : ∀ label ∈ [(i, Label.read (some bytes)), (i, Label.frame)], NoTimeout i label := by
      intro label hmem fd success heq
      subst heq
      simp at hmem
    have hchop := hclean _ hnone
    have hctx : (run (step env) w (reconnecting i [] 0 true
        [(i, .read (some bytes)), (i, .frame)])).ctx i =
        (((closed.ctx i).onTimeout env 0 true).step env (.read (some bytes))).step env .frame := by
      rw [reconnecting, run_append, ← hclosed_def, run_cons, run_cons, run_cons, run_nil,
        ctx_step_self, ctx_step_self, hclosed.ctx_reopened]
    have hagent := congrArg Ctx.agent hctx
    rw [← hagent] at hdirty
    exact absurd hchop hdirty

/-- Two runs in which the peer of an agent closes its connection, the timer reconnects and the same
things happen from then on decode the same on the new connection, and interpret only bytes of this
connection, exactly when both old connections ended with an empty receive buffer. -/
theorem clean_reconnect_iff {i : ℕ} {w₁ w₂ : World} (h₁ : Waiting i w₁) (h₂ : Waiting i w₂) :
    (∀ (pause : List (ℕ × Label)) (fd : ℕ) (success : Bool) (labels : List (ℕ × Label)),
        (∀ label ∈ pause, NoTimeout i label) → (∀ label ∈ labels, NoTimeout i label) →
        CleanReconnect i (run (step env) w₁ (reconnecting i pause fd success labels))
          (run (step env) w₂ (reconnecting i pause fd success labels))) ↔
      (w₁.agents i).msgBuffer = [] ∧ (w₂.agents i).msgBuffer = [] := by
  constructor
  · intro hclean
    have hnil : ∀ label ∈ ([] : List (ℕ × Label)), NoTimeout i label := by simp
    exact ⟨buffer_eq_nil_of_chopped h₁ fun labels hl => (hclean [] 0 true labels hnil hl).chopped₁,
      buffer_eq_nil_of_chopped h₂ fun labels hl => (hclean [] 0 true labels hnil hl).chopped₂⟩
  · rintro ⟨hbuf₁, hbuf₂⟩ pause fd success labels hpause hlabels
    have hclosed₁ := closed_run env h₁ hpause
    have hclosed₂ := closed_run env h₂ hpause
    rw [hbuf₁] at hclosed₁
    rw [hbuf₂] at hclosed₂
    have hsame := receiver_run env hlabels
      ((hclosed₁.receiver_reopened env fd success).trans
        (hclosed₂.receiver_reopened env fd success).symm)
    unfold reconnecting
    rw [run_append, run_append, run_cons, run_cons]
    exact {
      decoded_eq := congrArg Receiver.decoded hsame
      chopped₁ := ⟨_, cleanBuffer_run hlabels (hclosed₁.cleanBuffer_reopened fd success)⟩
      chopped₂ := ⟨_, cleanBuffer_run hlabels (hclosed₂.cleanBuffer_reopened fd success)⟩ }

/-- The first connection of an agent: its peer sends a handshake and then some bytes. -/
def firstConnection (bytes : ByteString) : World :=
  run (step sampleAgentEnv) (create sampleAgentEnv [⟨[], 3, true⟩])
    [(0, .read (some (MsgFactory.handshake sampleAgentEnv.oob [] []))), (0, .frame), (0, .frame),
      (0, .read (some bytes)), (0, .frame)]

/-- The exactness statement for two sessions in which different bytes are left in the receive buffer
of the agent. -/
theorem clean_reconnect_sample :
    Waiting 0 (firstConnection [0, 0, 0]) ∧
      Waiting 0 (firstConnection (0 :: 0 :: 1 :: List.replicate 46 0)) ∧
      ((∀ (pause : List (ℕ × Label)) (fd : ℕ) (success : Bool) (labels : List (ℕ × Label)),
          (∀ label ∈ pause, NoTimeout 0 label) → (∀ label ∈ labels, NoTimeout 0 label) →
          CleanReconnect 0
            (run (step sampleAgentEnv) (firstConnection [0, 0, 0])
              (reconnecting 0 pause fd success labels))
            (run (step sampleAgentEnv) (firstConnection (0 :: 0 :: 1 :: List.replicate 46 0))
              (reconnecting 0 pause fd success labels))) ↔
        ((firstConnection [0, 0, 0]).agents 0).msgBuffer = [] ∧
          ((firstConnection (0 :: 0 :: 1 :: List.replicate 46 0)).agents 0).msgBuffer = []) := by
  have hshort : Waiting 0 (firstConnection [0, 0, 0]) := ⟨by decide +kernel, by decide +kernel⟩
  have hlong : Waiting 0 (firstConnection (0 :: 0 :: 1 :: List.replicate 46 0)) :=
    ⟨by decide +kernel, by decide +kernel⟩
  exact ⟨hshort, hlong, clean_reconnect_iff hshort hlong⟩

/-- Two runs that differ in the partial message that is pending when the connection ends: on the new
connection the peer sends its handshake, which is recognised after one of them only. -/
theorem leftover_hides_handshake :
    Waiting 0 (firstConnection [0, 0, 0]) ∧
      Waiting 0 (firstConnection (0 :: 0 :: 1 :: List.replicate 46 0)) ∧
      ¬ CleanReconnect 0
        (run (step sampleAgentEnv) (firstConnection [0, 0, 0]) (reconnecting 0 [] 4 true
          [(0, .read (some (MsgFactory.handshake sampleAgentEnv.oob [] []))), (0, .frame),
            (0, .frame)]))
        (run (step sampleAgentEnv) (firstConnection (0 :: 0 :: 1 :: List.replicate 46 0))
          (reconnecting 0 [] 4 true
            [(0, .read (some (MsgFactory.handshake sampleAgentEnv.oob [] []))), (0, .frame),
              (0, .frame)])) := by
  refine ⟨⟨by decide +kernel, by decide +kernel⟩, ⟨by decide +kernel, by decide +kernel⟩,
    fun h => ?_⟩
  have hdecoded := h.decoded_eq
  revert hdecoded
  decide +kernel

end World

end Tent
