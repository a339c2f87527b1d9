import Tent.Agent.Effects
import Tent.Wire.Framer

/-!
# Receiving

The receive loop of an agent is the loop of the framer: `Ctx.framer` forgets everything about an
agent that does not matter to framing, and commutes with a pass (`framer_frame`).  Whatever
`handle_msg` does to the agent and to what it shares, it does not touch the receive buffer and never
takes the state machine back behind the handshake.

Two results about the framer are read back for `torrent_agent::on_read`: everything that
`msg_factory` writes is decoded as it was meant, in whatever chunks it arrives (`onRead_roundTrip`),
and the loop makes progress exactly when no length prefix wraps around (`onRead_progress_iff`).
-/

set_option autoImplicit false

namespace Tent

open Bytes Transition

/-- What an event of an agent says about decoding. -/
def AgentEvent.decoded : AgentEvent → Option Decoded
  | .raised _ .handshake => some .handshake
  | .handled msg => some (.message msg)
  | _ => none

/-- The handshake events and the calls of `handle_msg` in a history. -/
def decodedOf (trace : List AgentEvent) : List Decoded := trace.filterMap AgentEvent.decoded

@[simp] lemma decodedOf_append (trace₁ trace₂ : List AgentEvent) :
    decodedOf (trace₁ ++ trace₂) = decodedOf trace₁ ++ decodedOf trace₂ :=
  List.filterMap_append

/-- An event that says nothing about decoding. -/
lemma decodedOf_concat_of_none {e : AgentEvent} (he : e.decoded = none) (trace : List AgentEvent) :
    decodedOf (trace ++ [e]) = decodedOf trace := by
  simp [decodedOf, he]

/-- An event that says something about decoding. -/
lemma decodedOf_concat_of_some {e : AgentEvent} {d : Decoded} (he : e.decoded = some d)
    (trace : List AgentEvent) : decodedOf (trace ++ [e]) = decodedOf trace ++ [d] := by
  simp [decodedOf, he]

/-- Pushing requests decodes nothing. -/
@[simp] lemma decodedOf_map_pushedRequest (reqs : List Request) :
    decodedOf (reqs.map pushedRequest) = [] := by
  unfold decodedOf
  rw [List.filterMap_eq_nil_iff]
  intro e he
  obtain ⟨req, -, rfl⟩ := List.mem_map.mp he
  rfl

namespace Ctx

variable {Digest : Type*} (env : AgentEnv Digest)

/-- An agent as far as framing is concerned. -/
def framer (c : Ctx) : Framer where
  handshaken := c.agent.state.isHandshakeReceived
  buffer := c.agent.msgBuffer
  decoded := decodedOf c.agent.trace

/-- The guard of the loop is that of the framer. -/
lemma frameReady_eq (c : Ctx) : c.frameReady env = c.framer.ready env.oob := rfl

/-- Appending received bytes is that of the framer. -/
lemma framer_append (bytes : ByteString) (c : Ctx) :
    (c.append bytes).framer = c.framer.append bytes :=
  congrArg (Framer.mk _ _) (decodedOf_concat_of_none rfl c.agent.trace)

variable [DecidableEq Digest]

variable {env} in
/-- Handling a message leaves the receive buffer and the flag alone, and is recorded once. -/
lemma framer_handleMsg {c : Ctx} (hhs : c.agent.state.isHandshakeReceived = true)
    (msg : Message) :
    (c.handleMsg env msg).framer =
      ⟨true, c.agent.msgBuffer, decodedOf c.agent.trace ++ [.message msg]⟩ := by
  have hlog : decodedOf (c.logMsg msg).agent.trace =
      decodedOf c.agent.trace ++ [.message msg] :=
    decodedOf_concat_of_some rfl c.agent.trace
  apply handleMsg_cases (P := fun c' => c'.framer = _)
  · intro _
    exact congrArg (Framer.mk true c.agent.msgBuffer)
      ((decodedOf_concat_of_none rfl (c.logMsg msg).agent.trace).trans hlog)
  · intro _
    unfold framer onUnchoke
    simp only [requestPieces_state, requestPieces_msgBuffer, requestPieces_trace, decodedOf_append,
      decodedOf_map_pushedRequest, List.append_nil]
    exact congrArg (Framer.mk true c.agent.msgBuffer)
      ((decodedOf_concat_of_none rfl (c.logMsg msg).agent.trace).trans hlog)
  · intro _
    exact congrArg₂ (fun hs out => Framer.mk hs c.agent.msgBuffer out) hhs hlog
  · intro _
    unfold framer
    simp only [requestPieces_state, requestPieces_msgBuffer, requestPieces_trace, decodedOf_append,
      decodedOf_map_pushedRequest, List.append_nil]
    exact congrArg₂ (fun hs out => Framer.mk hs c.agent.msgBuffer out) hhs hlog
  · intro _ _ _ _
    exact congrArg₂ (fun hs out => Framer.mk hs c.agent.msgBuffer out) hhs hlog

/-- A pass of the loop is a pass of the framer. -/
lemma framer_frame (c : Ctx) : (c.frame env).framer = c.framer.advance env.oob := by
  have hchop : decodedOf (c.chop env).agent.trace = decodedOf c.agent.trace :=
    decodedOf_concat_of_none rfl c.agent.trace
  apply frame_cases (P := fun c' => c'.framer = c.framer.advance env.oob)
  · intro hhs hvalid
    have hvalid' : validateHandshake env.oob (c.framer.buffer.take (c.framer.len env.oob)) =
        false := hvalid
    have hhs' : c.framer.handshaken = false := hhs
    unfold Framer.advance
    rw [hhs', hvalid', decodeFrame]
    simp only [Bool.or_self, Bool.false_eq_true, if_false, hvalid', List.append_nil]
    exact congrArg₂ (fun hs out => Framer.mk hs (c.chop env).agent.msgBuffer out) hhs hchop
  · intro hhs hvalid
    have hvalid' : validateHandshake env.oob (c.framer.buffer.take (c.framer.len env.oob)) =
        true := hvalid
    have hhs' : c.framer.handshaken = false := hhs
    unfold Framer.advance
    rw [hhs', hvalid', decodeFrame]
    simp only [Bool.false_eq_true, Bool.or_true, if_false, hvalid', if_true]
    refine congrArg (Framer.mk true (c.chop env).agent.msgBuffer) ?_
    have htrace : (c.chopHandshake env).onHandshake.agent.trace =
        (c.chop env).agent.trace ++ [.raised c.agent.state .handshake] ++
          [.pushed .interested MsgFactory.interested] := rfl
    rw [htrace, decodedOf_concat_of_none rfl, decodedOf_concat_of_some rfl, hchop]
    rfl
  · intro hhs
    have hhs' : c.framer.handshaken = true := hhs
    rw [framer_handleMsg (by exact hhs), hchop, Framer.advance, hhs', decodeFrame]
    rfl

/-- `on_read` is the feeding of the framer. -/
lemma map_framer_onRead (bytes : ByteString) (c : Ctx) :
    (c.onRead env bytes).map framer = c.framer.feed env.oob bytes := by
  rw [onRead, whileFuel_map (g := Framer.ready env.oob) (b := Framer.advance env.oob)
    (frameReady_eq env) (fun s _ => framer_frame env s), Framer.feed, framer_append]
  rfl

/-- A sequence of calls of `on_read` is a sequence of feedings of the framer. -/
lemma map_framer_foldlM_onRead (chunks : List ByteString) (c : Ctx) :
    (chunks.foldlM (fun c bytes => onRead env bytes c) c).map framer =
      chunks.foldlM (fun f bytes => Framer.feed env.oob bytes f) c.framer := by
  induction chunks generalizing c with
  | nil => rfl
  | cons bytes chunks ih =>
    rw [List.foldlM_cons, List.foldlM_cons, ← map_framer_onRead]
    cases c.onRead env bytes with
    | none => rfl
    | some c' => exact ih c'

end Ctx

/-! ### What `msg_factory` writes -/

/-- The messages of `msg_factory` after the handshake. -/
inductive FactoryMsg where
  /-- `keep_alive`. -/
  | keepAlive
  /-- `choke`. -/
  | choke
  /-- `unchoke`. -/
  | unchoke
  /-- `interested`. -/
  | interested
  /-- `not_interested`. -/
  | notInterested
  /-- `request`. -/
  | request (req : Request)
  /-- `piece`. -/
  | piece (index begin : ℕ) (block : ByteString)
deriving DecidableEq, Repr

namespace FactoryMsg

/-- What `msg_factory` writes. -/
def bytes : FactoryMsg → ByteString
  | .keepAlive => MsgFactory.keepAlive
  | .choke => MsgFactory.choke
  | .unchoke => MsgFactory.unchoke
  | .interested => MsgFactory.interested
  | .notInterested => MsgFactory.notInterested
  | .request req => MsgFactory.request req
  | .piece index begin block => MsgFactory.piece index begin block

/-- The id of the message. -/
def id : FactoryMsg → MessageId
  | .keepAlive => .keepAlive
  | .choke => .choke
  | .unchoke => .unchoke
  | .interested => .interested
  | .notInterested => .notInterested
  | .request _ => .request
  | .piece _ _ _ => .piece

/-- The length of the message fits into its prefix, with room for the prefix itself. -/
def Fits : FactoryMsg → Prop
  | .piece _ _ block => block.length + 13 < uint32Range
  | _ => True

/-- Every message but the keep-alive is a frame around what follows its id byte. -/
lemma bytes_eq_frameBytes {msg : FactoryMsg} (hmsg : msg ≠ .keepAlive) :
    msg.bytes = frameBytes msg.id (msg.bytes.drop 5) := by
  cases msg with
  | keepAlive => exact absurd rfl hmsg
  | request req =>
    simp [bytes, id, frameBytes, MsgFactory.request, List.drop_append]
  | piece index begin block =>
    have hlen : 4 + (4 + block.length) + 1 = 9 + block.length := by omega
    simp [bytes, id, frameBytes, MsgFactory.piece, List.drop_append, hlen]
  | _ => rfl

/-- The bytes behind the id byte leave room for the prefix. -/
lemma length_drop_lt {msg : FactoryMsg} (hfits : msg.Fits) :
    (msg.bytes.drop 5).length + 5 < uint32Range := by
  cases msg with
  | piece index begin block =>
    have hlt : block.length + 13 < uint32Range := hfits
    simp [bytes, MsgFactory.piece]
    omega
  | request req => simp [bytes, MsgFactory.request, uint32Range]
  | _ => decide

/-- Every message is a frame. -/
lemma isFrame (oob : Oob) {msg : FactoryMsg} (hfits : msg.Fits) : IsFrame oob true msg.bytes := by
  by_cases hmsg : msg = .keepAlive
  · subst hmsg
    have hpeek := peek32_toBE oob (show 0 < uint32Range by decide) []
    rw [List.append_nil] at hpeek
    refine ⟨Nat.le_refl _, ?_⟩
    rw [getMsgLen_true, bytes, MsgFactory.keepAlive, hpeek]
    rfl
  · have hlt := length_drop_lt hfits
    have hbytes := bytes_eq_frameBytes hmsg
    have hlen : msg.bytes.length = (msg.bytes.drop 5).length + 5 := by
      conv_lhs => rw [hbytes]
      simp only [frameBytes, List.length_append, length_toBE, List.length_singleton]
      omega
    have hpeek : peek32 oob msg.bytes = (msg.bytes.drop 5).length + 1 := by
      conv_lhs => rw [hbytes]
      unfold frameBytes
      rw [List.append_assoc, peek32_toBE oob (by omega)]
    refine ⟨by omega, ?_⟩
    rw [getMsgLen_true, hpeek, hlen]
    exact Nat.mod_eq_of_lt hlt

/-- Every message is parsed into its id and the bytes behind its id byte. -/
lemma ofSlice_bytes (oob : Oob) {msg : FactoryMsg} (hfits : msg.Fits) :
    Message.ofSlice oob msg.bytes = ⟨msg.id, msg.bytes.drop 5⟩ := by
  by_cases hmsg : msg = .keepAlive
  · subst hmsg
    exact ofSlice_keepAlive oob
  · have hlt := length_drop_lt hfits
    have hid : MessageId.ofByte msg.id.toByte = msg.id := by
      cases msg with
      | keepAlive => exact absurd rfl hmsg
      | _ => rfl
    conv_lhs => rw [bytes_eq_frameBytes hmsg]
    exact ofSlice_frameBytes oob hid (by omega)

/-- A sequence of messages is a stream of frames. -/
lemma stream (oob : Oob) {msgs : List FactoryMsg} (hfits : ∀ msg ∈ msgs, msg.Fits) :
    Stream oob true (msgs.flatMap bytes)
      (msgs.map fun msg => .message ⟨msg.id, msg.bytes.drop 5⟩) := by
  induction msgs with
  | nil => exact .nil true
  | cons msg msgs ih =>
    have hmsg := hfits msg List.mem_cons_self
    have hdec : decodeFrame oob true msg.bytes = [.message ⟨msg.id, msg.bytes.drop 5⟩] := by
      unfold decodeFrame
      rw [if_pos rfl, ofSlice_bytes oob hmsg]
    rw [List.flatMap_cons, List.map_cons, ← List.singleton_append, ← hdec]
    exact .cons (isFrame oob hmsg) (ih fun m hm => hfits m (List.mem_cons_of_mem msg hm))

end FactoryMsg

/-- A handshake and the messages after it are a stream of frames, whatever the peer id and the info
hash. -/
lemma stream_handshake (oob oob' : Oob) (peerId infoHash : ByteString) {msgs : List FactoryMsg}
    (hfits : ∀ msg ∈ msgs, msg.Fits) :
    Stream oob false (MsgFactory.handshake oob' peerId infoHash ++ msgs.flatMap FactoryMsg.bytes)
      (.handshake :: msgs.map fun msg => .message ⟨msg.id, msg.bytes.drop 5⟩) := by
  have hvalid := validateHandshake_handshake oob oob' peerId infoHash
  have hframe : IsFrame oob false (MsgFactory.handshake oob' peerId infoHash) := by
    refine ⟨by simp, ?_⟩
    rw [getMsgLen_handshake, length_handshake]
  have hdec : decodeFrame oob false (MsgFactory.handshake oob' peerId infoHash) =
      [.handshake] := by
    simp [decodeFrame, hvalid]
  rw [← List.singleton_append, ← hdec]
  refine .cons hframe ?_
  rw [hvalid, Bool.or_true]
  exact FactoryMsg.stream oob hfits

namespace Ctx

variable {Digest : Type*} {env : AgentEnv Digest} [DecidableEq Digest]

/-- Encoding and decoding: a handshake and any messages of `msg_factory`, cut into any chunks and
given to `on_read` one by one, raise `session_event::HANDSHAKE` once, then call `handle_msg` for
each message with its id and its payload, and leave the receive buffer empty. -/
theorem onRead_roundTrip (oob : Oob) (peerId infoHash : ByteString) (msgs : List FactoryMsg)
    (hfits : ∀ msg ∈ msgs, msg.Fits) (chunks : List ByteString)
    (hchunks : chunks.flatten =
      MsgFactory.handshake oob peerId infoHash ++ msgs.flatMap FactoryMsg.bytes)
    (c : Ctx) (hstate : c.agent.state = .connected) (hbuffer : c.agent.msgBuffer = []) :
    ∃ c', chunks.foldlM (fun c bytes => onRead env bytes c) c = some c' ∧
      decodedOf c'.agent.trace = decodedOf c.agent.trace ++
        .handshake :: msgs.map (fun msg => .message ⟨msg.id, msg.bytes.drop 5⟩) ∧
      c'.agent.msgBuffer = [] := by
  have hnot : c.framer.ready env.oob = false := by
    simp [Framer.ready, framer, hbuffer]
  have hstream : Stream env.oob c.framer.handshaken (c.framer.buffer ++ chunks.flatten)
      (.handshake :: msgs.map fun msg => .message ⟨msg.id, msg.bytes.drop 5⟩) := by
    have hhs : c.framer.handshaken = false := by
      unfold framer
      rw [hstate]
      rfl
    have hbuf : c.framer.buffer = [] := hbuffer
    rw [hhs, hbuf, List.nil_append, hchunks]
    exact stream_handshake env.oob oob peerId infoHash hfits
  obtain ⟨f, hfeed, hdecoded, hempty⟩ := Framer.feed_chunks_stream hnot hstream
  rw [← map_framer_foldlM_onRead] at hfeed
  obtain ⟨c', hrun, rfl⟩ := Option.map_eq_some_iff.mp hfeed
  exact ⟨c', hrun, hdecoded, hempty⟩

/-- The round trip of a choke, a keep-alive and a piece, cut inside the handshake and inside the
length prefix of the choke. -/
theorem onRead_roundTrip_sample :
    ∃ c', [(MsgFactory.handshake sampleAgentEnv.oob [] []).take 10,
        (MsgFactory.handshake sampleAgentEnv.oob [] []).drop 10 ++ [0, 0],
        [0, 1, 0] ++ MsgFactory.keepAlive ++ MsgFactory.piece 0 0 [1]].foldlM
          (fun c bytes => onRead sampleAgentEnv bytes c) (sampleCtx [] true) = some c' ∧
      decodedOf c'.agent.trace = decodedOf (sampleCtx [] true).agent.trace ++
        .handshake :: [FactoryMsg.choke, .keepAlive, .piece 0 0 [1]].map
          (fun msg => .message ⟨msg.id, msg.bytes.drop 5⟩) ∧
      c'.agent.msgBuffer = [] :=
  onRead_roundTrip sampleAgentEnv.oob [] [] [.choke, .keepAlive, .piece 0 0 [1]]
    (by simp [FactoryMsg.Fits, uint32Range]) _ (by decide +kernel) _ rfl rfl

variable (env) in
/-- The passes of the receive loop are the passes of the framer. -/
lemma framer_iterate (bytes : ByteString) (c : Ctx) (n : ℕ) :
    ((pass (frameReady env) (frame env))^[n] (c.append bytes)).framer =
      (pass (Framer.ready env.oob) (Framer.advance env.oob))^[n] (c.framer.append bytes) := by
  rw [iterate_pass_map (frameReady_eq env) (fun s _ => framer_frame env s), framer_append]

variable (env) in
/-- What the passes of the receive loop leave in the buffer. -/
lemma msgBuffer_iterate (bytes : ByteString) (c : Ctx) (n : ℕ) :
    ((pass (frameReady env) (frame env))^[n] (c.append bytes)).agent.msgBuffer =
      ((pass (Framer.ready env.oob) (Framer.advance env.oob))^[n]
        (c.framer.append bytes)).buffer :=
  congrArg Framer.buffer (framer_iterate env bytes c n)

/-- `on_read` returns, and leaves no complete frame behind, when no length prefix met in the buffer
is `2 ^ 32 - 4` or more. -/
theorem onRead_returns {bytes : ByteString} {c : Ctx}
    (hhuge : ¬ MeetsHugePrefix env.oob c.agent.state.isHandshakeReceived
      (c.agent.msgBuffer ++ bytes)) :
    ∃ c', c.onRead env bytes = some c' ∧ c'.frameReady env = false := by
  obtain ⟨-, hprogress⟩ := (Framer.progress_iff (c.framer.append bytes)).mpr hhuge
  refine whileFuel_of_measure (fun c : Ctx => c.agent.msgBuffer.length) fun n hready => ?_
  have hstep := hprogress n (by rw [← framer_iterate, ← frameReady_eq]; exact hready)
  rw [msgBuffer_iterate, msgBuffer_iterate]
  omega

/-- The receive loop leaves, and every pass of it removes at least the four bytes of a frame header,
exactly when no length prefix met in the buffer is `2 ^ 32 - 4` or more. -/
theorem onRead_progress_iff (bytes : ByteString) (c : Ctx) :
    (Terminates (frameReady env) (frame env) (c.append bytes) ∧
        ∀ n, frameReady env ((pass (frameReady env) (frame env))^[n] (c.append bytes)) = true →
          ((pass (frameReady env) (frame env))^[n + 1]
              (c.append bytes)).agent.msgBuffer.length + 4 ≤
            ((pass (frameReady env) (frame env))^[n] (c.append bytes)).agent.msgBuffer.length) ↔
      ¬ MeetsHugePrefix env.oob c.agent.state.isHandshakeReceived
        (c.agent.msgBuffer ++ bytes) := by
  have hterm : Terminates (frameReady env) (frame env) (c.append bytes) ↔
      Terminates (Framer.ready env.oob) (Framer.advance env.oob) (c.framer.append bytes) := by
    refine exists_congr fun n => ?_
    rw [frameReady_eq, framer_iterate]
  rw [hterm]
  refine Iff.trans ?_ (Framer.progress_iff (c.framer.append bytes))
  refine and_congr Iff.rfl (forall_congr' fun n => ?_)
  rw [frameReady_eq, framer_iterate, msgBuffer_iterate, msgBuffer_iterate]

/-- A prefix of `2 ^ 32 - 4` at the front of the buffer of an agent behind its handshake makes the
loop run forever: every pass chops off nothing. -/
lemma not_terminates_of_huge {c : Ctx} (hhs : c.agent.state.isHandshakeReceived = true)
    (hbuffer : c.agent.msgBuffer = [255, 255, 255, 252]) :
    ¬ Terminates (frameReady env) (frame env) c := by
  refine not_terminates_of_invariant
    (P := fun c => c.framer.handshaken = true ∧ c.framer.buffer = [255, 255, 255, 252])
    ⟨hhs, hbuffer⟩ ?_
  rintro c ⟨hhs, hbuf⟩
  have hlen : c.framer.len env.oob = 0 := by
    unfold Framer.len
    rw [hhs, hbuf, getMsgLen_true, peek32_eq env.oob (by simp)]
    decide
  constructor
  · rw [frameReady_eq, Framer.ready, hlen, hbuf]
    rfl
  · rw [framer_frame, Framer.advance, hlen, hhs, hbuf]
    exact ⟨rfl, rfl⟩

/-- Four bytes that a peer sends after its handshake hang the receive loop. -/
theorem huge_prefix_hangs :
    ¬ (Terminates (frameReady sampleAgentEnv) (frame sampleAgentEnv)
          ((sampleCtx [] true).onHandshake.append [255, 255, 255, 252]) ∧
        ∀ n, frameReady sampleAgentEnv ((pass (frameReady sampleAgentEnv)
            (frame sampleAgentEnv))^[n]
              ((sampleCtx [] true).onHandshake.append [255, 255, 255, 252])) = true →
          ((pass (frameReady sampleAgentEnv) (frame sampleAgentEnv))^[n + 1]
              ((sampleCtx [] true).onHandshake.append
                [255, 255, 255, 252])).agent.msgBuffer.length + 4 ≤
            ((pass (frameReady sampleAgentEnv) (frame sampleAgentEnv))^[n]
              ((sampleCtx [] true).onHandshake.append
                [255, 255, 255, 252])).agent.msgBuffer.length) :=
  fun h => not_terminates_of_huge rfl rfl h.1

end Ctx

end Tent
