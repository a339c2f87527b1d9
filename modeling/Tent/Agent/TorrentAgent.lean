import Tent.Agent.Reactor
import Tent.Foundation.Transition
import Tent.Wire.Message

/-!
# The torrent agent

`torrent_agent` is the client's side of one peer: it connects, exchanges handshakes, turns the bytes
it receives into messages, asks `piece_handler` for blocks to request and writes its messages to the
socket.  All agents share the handler, the reactor and the timer, so a callback works on a `Ctx`: an
agent together with what is shared.

The callbacks are called with what the system calls inside them return: the bytes that `read` got,
the answer of `getsockopt` and the room in the socket buffer for `write`, the new descriptor and the
answer of `connect` for `on_timeout`.

The loop of `on_read` need not end, so a run of an agent takes one pass of it at a time: `step`
reads bytes into the buffer and sets `reading`, and further passes follow until the guard of the
loop is false.  `onRead` is the whole loop, with a bound on the number of passes.

Every agent carries the list of what it did (`AgentEvent`), which no function reads.
-/

set_option autoImplicit false

namespace Tent

open Bytes Transition

/-! ### The state machine -/

/-- `session_sm::state`. -/
inductive SessionState where
  /-- `IDLE`. -/
  | idle
  /-- `STARTED`. -/
  | started
  /-- `CONNECTED`. -/
  | connected
  /-- `HANDSHAKE_RECEIVED`. -/
  | handshakeReceived
  /-- `CHOKED`. -/
  | choked
  /-- `UNCHOKED`. -/
  | unchoked
  /-- `DISCONNECTED`. -/
  | disconnected
deriving DecidableEq, Repr

/-- `session_event`. -/
inductive SessionEvent where
  /-- `START`. -/
  | start
  /-- `CONNECTED`. -/
  | connected
  /-- `HANDSHAKE`. -/
  | handshake
  /-- `CHOKE`. -/
  | choke
  /-- `UNCHOKE`. -/
  | unchoke
  /-- `DISCONNECTED`. -/
  | disconnected
deriving DecidableEq, Repr

/-- `session_sm::handshake_received`: the state is `HANDSHAKE_RECEIVED` or one declared after it. -/
def SessionState.isHandshakeReceived : SessionState → Bool
  | .idle | .started | .connected => false
  | .handshakeReceived | .choked | .unchoked | .disconnected => true

/-! ### The agent -/

/-- What an agent pushes onto its send queue. -/
inductive Outgoing where
  /-- `msg_factory::handshake`. -/
  | handshake
  /-- `msg_factory::interested`. -/
  | interested
  /-- `msg_factory::request`. -/
  | request (req : Request)
deriving DecidableEq, Repr

/-- What an agent does and what happens to it. -/
inductive AgentEvent where
  /-- The agent got a new socket: a connection begins. -/
  | opened
  /-- These bytes were read from the socket. -/
  | received (bytes : ByteString)
  /-- This slice was chopped off the receive buffer. -/
  | chopped (slice : ByteString)
  /-- `session_sm::on_event(ev)` was called in the given state. -/
  | raised (state : SessionState) (ev : SessionEvent)
  /-- `handle_msg(msg)` was called. -/
  | handled (msg : Message)
  /-- A message was pushed onto the send queue. -/
  | pushed (msg : Outgoing) (bytes : ByteString)
  /-- The socket accepted these bytes. -/
  | accepted (bytes : ByteString)
deriving DecidableEq, Repr

/-- What an agent is given and does not change. -/
structure AgentEnv (Digest : Type*) extends Env Digest where
  /-- `session::peer_id()`. -/
  localPeerId : ByteString
  /-- The info hash as `operator<<` prints it, in hexadecimal digits. -/
  infoHash : ByteString

/-- The state of a `torrent_agent`. -/
structure Agent where
  /-- `peer_info_->id_`. -/
  peerId : PeerId
  /-- `socket_.fd_`; none if it is `-1`. -/
  fd : Option ℕ
  /-- `sm_.state_`. -/
  state : SessionState
  /-- `msg_buffer_`. -/
  msgBuffer : ByteString
  /-- `send_queue_`: the unsent bytes of each message, the front first. -/
  sendQueue : List ByteString
  /-- `connected_`. -/
  connected : Bool
  /-- `choked_`. -/
  choked : Bool
  /-- `connection_attempts_`. -/
  connectionAttempts : ℕ
  /-- `events_` of `inet_reactor_client`. -/
  events : Events
  /-- `timeout_ms_` of `itimer_client`. -/
  timeoutMs : ℕ
  /-- `elapsed_` of `itimer_client`. -/
  elapsed : ℕ
  /-- Whether the agent is inside the loop of `on_read`. -/
  reading : Bool
  /-- What the agent did so far. -/
  trace : List AgentEvent

/-- What the agents share. -/
structure Shared where
  /-- The `piece_handler`. -/
  handler : PieceHandler
  /-- The `net_reactor`. -/
  reactor : NetReactor
  /-- The `timer`. -/
  timer : Timer

/-- An agent together with what it shares with the others. -/
structure Ctx where
  /-- The number of the agent. -/
  self : ℕ
  /-- The agent. -/
  agent : Agent
  /-- What it shares. -/
  shared : Shared

/-- An agent before its constructor: no socket, nothing queued, no history. -/
def Agent.idle (peerId : PeerId) : Agent where
  peerId := peerId
  fd := none
  state := .idle
  msgBuffer := []
  sendQueue := []
  connected := false
  choked := true
  connectionAttempts := 0
  events := ⟨false, false⟩
  timeoutMs := 0
  elapsed := 0
  reading := false
  trace := []

namespace Ctx

/-- `reactor_.reg(*this, events)`. -/
def reg (events : Events) (c : Ctx) : Ctx :=
  { c with
    agent.events := (c.shared.reactor.reg c.self c.agent.fd c.agent.events events).2
    shared.reactor := (c.shared.reactor.reg c.self c.agent.fd c.agent.events events).1 }

/-- `reactor_.unreg(*this, events)`. -/
def unregEvents (events : Events) (c : Ctx) : Ctx :=
  { c with
    agent.events := (c.shared.reactor.unregEvents c.agent.fd c.agent.events events).2
    shared.reactor := (c.shared.reactor.unregEvents c.agent.fd c.agent.events events).1 }

/-- `reactor_.unreg(*this)`. -/
def unreg (c : Ctx) : Ctx :=
  { c with shared.reactor := c.shared.reactor.unreg c.agent.fd }

/-- `socket_.close()`. -/
def closeSocket (c : Ctx) : Ctx :=
  { c with
    agent.fd := none
    shared.reactor := c.shared.reactor.close c.agent.fd }

/-- `socket(AF_INET, SOCK_STREAM, 0)`. -/
def openSocket (fd : ℕ) (c : Ctx) : Ctx :=
  { c with
    agent.fd := some fd
    agent.trace := c.agent.trace ++ [.opened] }

/-- The first line of every case of `session_sm::on_event`. -/
def raise (ev : SessionEvent) (state : SessionState) (c : Ctx) : Ctx :=
  { c with
    agent.state := state
    agent.trace := c.agent.trace ++ [.raised c.agent.state ev] }

/-- `send_queue_.push`. -/
def push (msg : Outgoing) (bytes : ByteString) (c : Ctx) : Ctx :=
  { c with
    agent.sendQueue := c.agent.sendQueue ++ [bytes]
    agent.trace := c.agent.trace ++ [.pushed msg bytes] }

end Ctx

/-- The loop of `request_pieces` over at most so many requests: the handler after it and the
requests it gave out. -/
def requestLoop {Digest : Type*} (env : Env Digest) (peerId : PeerId) :
    ℕ → PieceHandler → PieceHandler × List Request
  | 0, h => (h, [])
  | n + 1, h =>
    match (h.getPieceRequest env peerId).2 with
    | none => ((h.getPieceRequest env peerId).1, [])
    | some req =>
      ((requestLoop env peerId n (h.getPieceRequest env peerId).1).1,
        req :: (requestLoop env peerId n (h.getPieceRequest env peerId).1).2)

/-- `MAX_BURST`. -/
def maxBurst : ℕ := 15

/-- `TIME_TO_RECONNECT_MS`. -/
def timeToReconnectMs : ℕ := 5000

/-! ### Writing to the socket -/

/-- How the socket answers during one call of `write`: the answer of `getsockopt` for `SO_ERROR`
(none if the call fails), the number of bytes it takes before it refuses, and upper bounds for how
many it takes in the successive calls of `::write`. -/
structure WriteAnswer where
  /-- The error that `getsockopt` reports. -/
  soError : Option ℕ
  /-- The room in the send buffer of the socket. -/
  room : ℕ
  /-- The longest writes that the socket accepts. -/
  counts : List ℕ
deriving DecidableEq, Repr

/-- A descriptor that is not open answers every call with an error. -/
def WriteAnswer.on (fd : Option ℕ) (answer : WriteAnswer) : WriteAnswer :=
  if fd.isSome then answer else ⟨none, 0, []⟩

/-- How many of the available bytes `::write` takes; none if it returns `-1`. -/
def WriteAnswer.write (available : ℕ) (answer : WriteAnswer) : Option ℕ :=
  if answer.room = 0 then none
  else some (min (max 1 (answer.counts.headD available)) (min answer.room available))

/-- The answers that remain after the socket took so many bytes. -/
def WriteAnswer.after (count : ℕ) (answer : WriteAnswer) : WriteAnswer :=
  ⟨answer.soError, answer.room - count, answer.counts.tail⟩

/-- What came of the attempt to send some bytes. -/
structure SendResult where
  /-- How many bytes the socket took. -/
  count : ℕ
  /-- The answers that remain. -/
  answer : WriteAnswer
  /-- What `send` returns. -/
  success : Bool
deriving DecidableEq, Repr

/-- The loop of `torrent_agent::send` over a buffer with so many bytes; the first argument bounds
the number of passes, each of which sends a byte or more. -/
def sendLoop : ℕ → ℕ → WriteAnswer → SendResult
  | 0, _, answer => ⟨0, answer, true⟩
  | fuel + 1, available, answer =>
    if available = 0 then ⟨0, answer, true⟩
    else
      match answer.write available with
      | none => ⟨0, answer, false⟩
      | some count =>
        let rest := sendLoop fuel (available - count) (answer.after count)
        { rest with count := count + rest.count }

/-- `torrent_agent::send`. -/
def send (available : ℕ) (answer : WriteAnswer) : SendResult :=
  sendLoop available available answer

/-- What came of the attempt to send the queue. -/
structure DrainResult where
  /-- The bytes the socket took. -/
  accepted : ByteString
  /-- The queue that remains. -/
  queue : List ByteString
  /-- Whether the loop reached its end. -/
  drained : Bool
deriving DecidableEq, Repr

/-- The loop of `torrent_agent::write` over the queue: the front is popped whether or not it was
sent. -/
def drain : List ByteString → WriteAnswer → DrainResult
  | [], _ => ⟨[], [], true⟩
  | msg :: queue, answer =>
    let sent := send msg.length answer
    if sent.success then
      let rest := drain queue sent.answer
      { rest with accepted := msg.take sent.count ++ rest.accepted }
    else ⟨msg.take sent.count, queue, false⟩

namespace Ctx

variable {Digest : Type*} (env : AgentEnv Digest)

/-! ### The actions of the state machine -/

/-- `torrent_agent::handshake`. -/
def handshake (c : Ctx) : Ctx :=
  (c.push .handshake (MsgFactory.handshake env.oob env.localPeerId env.infoHash)).reg .writable

/-- `torrent_agent::interested`. -/
def interested (c : Ctx) : Ctx :=
  (c.push .interested MsgFactory.interested).reg .writable

/-- The requests that `torrent_agent::request_pieces` pushes. -/
def burst (c : Ctx) : List Request :=
  if c.agent.choked then []
  else (requestLoop env.toEnv c.agent.peerId maxBurst c.shared.handler).2

/-- `torrent_agent::request_pieces`. -/
def requestPieces (c : Ctx) : Ctx :=
  if c.agent.choked then c
  else
    let asked := requestLoop env.toEnv c.agent.peerId maxBurst c.shared.handler
    let c := { c with
      agent.sendQueue := c.agent.sendQueue ++ asked.2.map MsgFactory.request
      agent.trace := c.agent.trace ++
        asked.2.map fun req => .pushed (.request req) (MsgFactory.request req)
      shared.handler := asked.1 }
    if asked.2.isEmpty then c else c.reg .writable

/-- `session_sm::on_event(session_event::CONNECTED)`. -/
def onConnected (c : Ctx) : Ctx := (c.raise .connected .connected).handshake env

/-- `session_sm::on_event(session_event::HANDSHAKE)`. -/
def onHandshake (c : Ctx) : Ctx := (c.raise .handshake .handshakeReceived).interested

/-- Set `choked_`. -/
def setChoked (choked : Bool) (c : Ctx) : Ctx := { c with agent.choked := choked }

/-- `session_sm::on_event(session_event::CHOKE)`, with `torrent_agent::choked`. -/
def onChoke (c : Ctx) : Ctx := (c.raise .choke .choked).setChoked true

/-- `session_sm::on_event(session_event::UNCHOKE)`, with `torrent_agent::unchoked`. -/
def onUnchoke (c : Ctx) : Ctx :=
  ((c.raise .unchoke .unchoked).setChoked false).requestPieces env

/-- `torrent_agent::disconnected`. -/
def disconnected (c : Ctx) : Ctx :=
  { c.unreg.closeSocket with
    agent.connected := false
    agent.timeoutMs := timeToReconnectMs * 2 ^ (c.agent.connectionAttempts - 1)
    agent.elapsed := 0
    shared.timer := c.shared.timer.reg c.self }

/-- `session_sm::on_event(session_event::DISCONNECTED)`. -/
def onDisconnected (c : Ctx) : Ctx := (c.raise .disconnected .disconnected).disconnected

/-- The first lines of `torrent_agent::connect`, where `success` is what `tcp_socket::connect`
returned. -/
def attempt (success : Bool) (c : Ctx) : Ctx :=
  { c with
    agent.connected := success
    agent.connectionAttempts := c.agent.connectionAttempts + 1 }

/-- `torrent_agent::connect`. -/
def connect (success : Bool) (c : Ctx) : Ctx :=
  if success then (c.attempt success).onConnected env else (c.attempt success).reg .writable

/-- `torrent_agent::start`, with `session_sm::on_event(session_event::START)`. -/
def start (success : Bool) (c : Ctx) : Ctx := (c.raise .start .started).connect env success

/-- The constructor `torrent_agent::torrent_agent`. -/
def create (fd : ℕ) (success : Bool) (c : Ctx) : Ctx :=
  ((c.openSocket fd).reg .readable).start env success

/-- The first lines of `torrent_agent::on_timeout`: leave the timer and empty the queue. -/
def clearQueue (c : Ctx) : Ctx :=
  { c with
    agent.sendQueue := []
    shared.timer := c.shared.timer.unreg c.self }

/-- `torrent_agent::on_timeout`. -/
def onTimeout (fd : ℕ) (success : Bool) (c : Ctx) : Ctx :=
  ((c.clearQueue.closeSocket.openSocket fd).reg .readable).start env success

/-- `torrent_agent::execute`. -/
def execute (c : Ctx) : Ctx :=
  if c.agent.connected && !c.agent.choked then c.requestPieces env else c

/-- The agent after its queue was sent as far as the socket allows. -/
def sent (answer : WriteAnswer) (c : Ctx) : Ctx :=
  { c with
    agent.sendQueue := (drain c.agent.sendQueue (answer.on c.agent.fd)).queue
    agent.trace := c.agent.trace ++
      [.accepted (drain c.agent.sendQueue (answer.on c.agent.fd)).accepted] }

/-- `connected_ = true`. -/
def setConnected (c : Ctx) : Ctx := { c with agent.connected := true }

/-- `torrent_agent::write`. -/
def write (answer : WriteAnswer) (c : Ctx) : Ctx :=
  if !c.agent.connected then
    match (answer.on c.agent.fd).soError with
    | none => c
    | some 0 => (c.setConnected.unregEvents .writable).onConnected env
    | some (_ + 1) => c.disconnected
  else if (drain c.agent.sendQueue (answer.on c.agent.fd)).drained then
    (c.sent answer).unregEvents .writable
  else c.sent answer

/-! ### Receiving -/

/-- The call of `handle_msg` is recorded. -/
def logMsg (msg : Message) (c : Ctx) : Ctx :=
  { c with agent.trace := c.agent.trace ++ [.handled msg] }

/-- `piece_handler_.have` for the peer of the agent. -/
def haveBitfield (bitfield : ByteString) (c : Ctx) : Ctx :=
  { c with shared.handler := c.shared.handler.haveBitfield env.toEnv c.agent.peerId bitfield }

variable [DecidableEq Digest]

/-- `piece_handler_.received`. -/
def received (payload : ByteString) (c : Ctx) : Ctx :=
  { c with shared.handler := c.shared.handler.received env.toEnv payload }

/-- `torrent_agent::handle_msg`. -/
def handleMsg (msg : Message) (c : Ctx) : Ctx :=
  let c := c.logMsg msg
  match msg.id with
  | .choke => c.onChoke
  | .unchoke => c.onUnchoke env
  | .bitfield => c.haveBitfield env msg.payload
  | .piece => (c.received env msg.payload).requestPieces env
  | _ => c

/-- `get_msg_len` of the receive buffer. -/
def msgLen (c : Ctx) : ℕ :=
  getMsgLen env.oob c.agent.msgBuffer c.agent.state.isHandshakeReceived

/-- The guard of the loop of `on_read`. -/
def frameReady (c : Ctx) : Bool :=
  decide (4 ≤ c.agent.msgBuffer.length) && decide (c.msgLen env ≤ c.agent.msgBuffer.length)

/-- The slice that `chop` returns. -/
def slice (c : Ctx) : ByteString := c.agent.msgBuffer.take (c.msgLen env)

/-- `chop`. -/
def chop (c : Ctx) : Ctx :=
  { c with
    agent.msgBuffer := c.agent.msgBuffer.drop (c.msgLen env)
    agent.trace := c.agent.trace ++ [.chopped (c.slice env)] }

/-- The agent after a slice was chopped off and its id was taken over as
`set_peer_id_and_validate_handshake` does. -/
def chopHandshake (c : Ctx) : Ctx :=
  { c.chop env with agent.peerId := setPeerId env.oob (c.slice env) c.agent.peerId }

/-- The body of the loop of `on_read`. -/
def frame (c : Ctx) : Ctx :=
  if !c.agent.state.isHandshakeReceived then
    if validateHandshake env.oob (c.slice env) then (c.chopHandshake env).onHandshake
    else c.chopHandshake env
  else (c.chop env).handleMsg env (Message.ofSlice env.oob (c.slice env))

/-- The first line of `on_read`. -/
def append (bytes : ByteString) (c : Ctx) : Ctx :=
  { c with
    agent.msgBuffer := c.agent.msgBuffer ++ bytes
    agent.trace := c.agent.trace ++ [.received bytes] }

/-- `torrent_agent::on_read`, with enough passes for a loop that shortens the buffer each time; none
if the loop has not left by then. -/
def onRead (bytes : ByteString) (c : Ctx) : Option Ctx :=
  whileFuel (frameReady env) (frame env) ((c.append bytes).agent.msgBuffer.length + 1)
    (c.append bytes)

end Ctx

/-! ### Steps -/

/-- What can happen to an agent. -/
inductive Label where
  /-- `torrent_agent::read`, up to the loop of `on_read`; the bytes that `::read` returned, or none
  for `-1`. -/
  | read (result : Option ByteString)
  /-- One pass of the loop of `on_read`, or its end. -/
  | frame
  /-- `torrent_agent::write`. -/
  | write (answer : WriteAnswer)
  /-- `torrent_agent::on_timeout`, with the new descriptor and the answer of `connect`. -/
  | timeout (fd : ℕ) (success : Bool)
  /-- `torrent_agent::execute`. -/
  | execute
deriving DecidableEq, Repr

namespace Ctx

variable {Digest : Type*} (env : AgentEnv Digest)

/-- Enter or leave the loop of `on_read`. -/
def setReading (reading : Bool) (c : Ctx) : Ctx := { c with agent.reading := reading }

/-- `torrent_agent::read`, up to the loop of `on_read`: no byte means that the peer closed the
connection, and reading from a closed descriptor fails. -/
def read (result : Option ByteString) (c : Ctx) : Ctx :=
  match c.agent.fd, result with
  | none, _ => c
  | some _, none => c
  | some _, some [] => c.onDisconnected
  | some _, some (b :: bytes) => (c.append (b :: bytes)).setReading true

variable [DecidableEq Digest]

/-- One step of an agent.  Inside the loop of `on_read` nothing else happens to it, and the timer
calls only clients that are registered. -/
def step (c : Ctx) : Label → Ctx
  | .read result => if c.agent.reading then c else c.read result
  | .frame =>
    if c.agent.reading then
      if c.frameReady env then c.frame env else c.setReading false
    else c
  | .write answer => if c.agent.reading then c else c.write env answer
  | .timeout fd success =>
    if c.agent.reading || !decide (c.self ∈ c.shared.timer.clients) then c
    else c.onTimeout env fd success
  | .execute => if c.agent.reading then c else c.execute env

end Ctx

/-! ### An agent of a small torrent -/

/-- The environment of an agent around the torrent of one byte. -/
def sampleAgentEnv : AgentEnv ByteString where
  toEnv := sampleEnv [1]
  localPeerId := List.replicate 20 7
  infoHash := List.replicate 40 48

/-- What the agents share before the first one is created. -/
def Shared.initial {Digest : Type*} (env : Env Digest) : Shared where
  handler := .create env
  reactor := ⟨fun _ => none, fun _ => none⟩
  timer := ⟨[]⟩

/-- The context of an agent that was just created, with the answer of its first `connect`. -/
def sampleCtx (peerId : PeerId) (success : Bool) : Ctx :=
  Ctx.create sampleAgentEnv 3 success ⟨0, Agent.idle peerId, Shared.initial sampleAgentEnv.toEnv⟩

end Tent
