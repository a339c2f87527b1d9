import Tent.Agent.Effects
import Tent.Pieces.Queues

/-!
# What an agent asks the handler for

The handler is shared by all agents.  An agent calls it for the messages it handles only, under the
id of its peer; `react` is everything such a call does to the handler, together with the requests
that the agent pushes because of it.  `obeys_step` says that the steps of an agent do nothing else
to the handler and push no other requests.
-/

set_option autoImplicit false

namespace Tent

open Bytes

/-- The requests pushed in a history. -/
def requestsOf (events : List AgentEvent) : List Request :=
  events.filterMap fun
    | .pushed (.request req) _ => some req
    | _ => none

@[simp] lemma requestsOf_append (events₁ events₂ : List AgentEvent) :
    requestsOf (events₁ ++ events₂) = requestsOf events₁ ++ requestsOf events₂ :=
  List.filterMap_append

@[simp] lemma requestsOf_map_pushedRequest (reqs : List Request) :
    requestsOf (reqs.map pushedRequest) = reqs := by
  induction reqs with
  | nil => rfl
  | cons req reqs ih => exact congrArg (req :: ·) ih

/-- The pushed requests are those that the history says were pushed. -/
lemma mem_requestsOf {events : List AgentEvent} {req : Request} :
    req ∈ requestsOf events ↔ ∃ bytes, .pushed (.request req) bytes ∈ events := by
  unfold requestsOf
  rw [List.mem_filterMap]
  constructor
  · rintro ⟨e, he, heq⟩
    split at heq
    · obtain rfl := Option.some.inj heq
      exact ⟨_, he⟩
    · exact absurd heq (by simp)
  · rintro ⟨bytes, hmem⟩
    exact ⟨_, hmem, rfl⟩

namespace PieceHandler

variable {Digest : Type*} (env : Env Digest)

/-- The loop of `request_pieces`, which a choked agent does not enter. -/
def serve (peerId : PeerId) (choked : Bool) (h : PieceHandler) : PieceHandler × List Request :=
  if choked then (h, []) else requestLoop env peerId maxBurst h

variable {env} {peerId : PeerId} {S : ℕ → Prop} {h h₁ h₂ : PieceHandler}

lemma localTo_requestLoop (peerId : PeerId) (n : ℕ) (h : PieceHandler) :
    LocalTo peerId h (requestLoop env peerId n h).1 := by
  induction n generalizing h with
  | zero => exact .refl peerId h
  | succ n ih =>
    have hget := localTo_getPieceRequest env peerId h
    rw [requestLoop]
    cases (getPieceRequest env peerId h).2 with
    | none => exact hget
    | some req => exact hget.trans (ih _)

lemma AgreeAt.requestLoop (hagree : AgreeAt peerId h₁ h₂) (n : ℕ) :
    AgreeAt peerId (requestLoop env peerId n h₁).1 (requestLoop env peerId n h₂).1 ∧
      (requestLoop env peerId n h₁).2 = (requestLoop env peerId n h₂).2 := by
  induction n generalizing h₁ h₂ with
  | zero => exact ⟨hagree, rfl⟩
  | succ n ih =>
    obtain ⟨hget, hreq⟩ := hagree.getPieceRequest env
    rw [Tent.requestLoop, Tent.requestLoop, hreq]
    cases (PieceHandler.getPieceRequest env peerId h₂).2 with
    | none => exact ⟨hget, rfl⟩
    | some req =>
      obtain ⟨hloop, hreqs⟩ := ih hget
      exact ⟨hloop, congrArg (req :: ·) hreqs⟩

lemma KnownAt.requestLoop (hknown : KnownAt peerId S h) (n : ℕ) :
    KnownAt peerId S (requestLoop env peerId n h).1 ∧
      ∀ req ∈ (requestLoop env peerId n h).2, S req.index := by
  induction n generalizing h with
  | zero => exact ⟨hknown, by simp [Tent.requestLoop]⟩
  | succ n ih =>
    obtain ⟨hget, hreq⟩ := hknown.getPieceRequest env
    rw [Tent.requestLoop]
    cases hfront : (PieceHandler.getPieceRequest env peerId h).2 with
    | none => exact ⟨hget, by simp⟩
    | some front =>
      obtain ⟨hloop, hreqs⟩ := ih hget
      refine ⟨hloop, fun req hmem => ?_⟩
      rcases List.mem_cons.mp hmem with rfl | hmem
      · exact hreq req hfront
      · exact hreqs req hmem

variable (env) in
lemma localTo_serve (peerId : PeerId) (choked : Bool) (h : PieceHandler) :
    LocalTo peerId h (serve env peerId choked h).1 := by
  rw [serve]
  split_ifs
  · exact .refl peerId h
  · exact localTo_requestLoop peerId maxBurst h

lemma AgreeAt.serve (hagree : AgreeAt peerId h₁ h₂) (choked : Bool) :
    AgreeAt peerId (serve env peerId choked h₁).1 (serve env peerId choked h₂).1 ∧
      (serve env peerId choked h₁).2 = (serve env peerId choked h₂).2 := by
  rw [PieceHandler.serve, PieceHandler.serve]
  split_ifs
  · exact ⟨hagree, rfl⟩
  · exact hagree.requestLoop maxBurst

lemma KnownAt.serve (hknown : KnownAt peerId S h) (choked : Bool) :
    KnownAt peerId S (serve env peerId choked h).1 ∧
      ∀ req ∈ (serve env peerId choked h).2, S req.index := by
  rw [PieceHandler.serve]
  split_ifs
  · exact ⟨hknown, by simp⟩
  · exact hknown.requestLoop maxBurst

variable [DecidableEq Digest]

/-- What handling a message does to the handler, and the requests that are pushed because of it. -/
def react (env : Env Digest) (peerId : PeerId) (choked : Bool) (msg : Message)
    (h : PieceHandler) : PieceHandler × List Request :=
  match msg.id with
  | .unchoke => serve env peerId false h
  | .bitfield => (haveBitfield env peerId msg.payload h, [])
  | .piece => serve env peerId choked (received env msg.payload h)
  | _ => (h, [])

/-- Everything `react` can do. -/
theorem react_cases {choked : Bool} {msg : Message} {P : PieceHandler × List Request → Prop}
    (hunchoke : msg.id = .unchoke → P (serve env peerId false h))
    (hbitfield : msg.id = .bitfield → P (haveBitfield env peerId msg.payload h, []))
    (hpiece : msg.id = .piece → P (serve env peerId choked (received env msg.payload h)))
    (hother : P (h, [])) : P (react env peerId choked msg h) := by
  rw [react]
  cases hid : msg.id with
  | unchoke => exact hunchoke hid
  | bitfield => exact hbitfield hid
  | piece => exact hpiece hid
  | _ => exact hother

lemma AgreeAt.received (hagree : AgreeAt peerId h₁ h₂) (payload : ByteString) :
    AgreeAt peerId (received env payload h₁) (received env payload h₂) where
  core_eq := by rw [received_core, received_core, hagree.core_eq]
  haveMap_eq := by rw [(received_maps env payload h₁).1, (received_maps env payload h₂).1,
    hagree.haveMap_eq]
  requestMap_eq := by rw [(received_maps env payload h₁).2, (received_maps env payload h₂).2,
    hagree.requestMap_eq]

lemma KnownAt.received (hknown : KnownAt peerId S h) (payload : ByteString) :
    KnownAt peerId S (received env payload h) where
  have_mem := by
    rw [(received_maps env payload h).1]
    exact hknown.have_mem
  request_mem := by
    rw [(received_maps env payload h).2]
    exact hknown.request_mem

variable (env) in
/-- A message for one peer leaves the entries for other peers alone. -/
lemma react_maps_of_ne {id : PeerId} (hid : id ≠ peerId) (choked : Bool) (msg : Message)
    (h : PieceHandler) :
    (react env peerId choked msg h).1.haveMap id = h.haveMap id ∧
      (react env peerId choked msg h).1.requestMap id = h.requestMap id := by
  apply react_cases
    (P := fun r => r.1.haveMap id = h.haveMap id ∧ r.1.requestMap id = h.requestMap id)
  · intro _
    have hlocal := localTo_serve env peerId false h
    exact ⟨hlocal.haveMap_eq id hid, hlocal.requestMap_eq id hid⟩
  · intro _
    have hlocal := localTo_haveBitfield env peerId msg.payload h
    exact ⟨hlocal.haveMap_eq id hid, hlocal.requestMap_eq id hid⟩
  · intro _
    have hlocal := localTo_serve env peerId choked (received env msg.payload h)
    obtain ⟨hhave, hrequest⟩ := received_maps env msg.payload h
    rw [hlocal.haveMap_eq id hid, hlocal.requestMap_eq id hid, hhave, hrequest]
    exact ⟨rfl, rfl⟩
  · exact ⟨rfl, rfl⟩

variable (env) in
/-- What a message makes of the entries for its peer, and the requests it leads to, depend on
nothing but these entries and the received blocks. -/
lemma AgreeAt.react (hagree : AgreeAt peerId h₁ h₂) (choked : Bool) (msg : Message) :
    AgreeAt peerId (react env peerId choked msg h₁).1 (react env peerId choked msg h₂).1 ∧
      (react env peerId choked msg h₁).2 = (react env peerId choked msg h₂).2 := by
  rw [PieceHandler.react, PieceHandler.react]
  cases msg.id with
  | unchoke => exact hagree.serve false
  | bitfield => exact ⟨hagree.haveBitfield env msg.payload, rfl⟩
  | piece => exact (hagree.received msg.payload).serve choked
  | _ => exact ⟨hagree, rfl⟩

/-- A message enters pieces of the right kind only, if the pieces of a bitfield are of this kind. -/
lemma KnownAt.react (hknown : KnownAt peerId S h) (choked : Bool) {msg : Message}
    (hmsg : msg.id = .bitfield → ∀ index ∈ bitfieldIndices msg.payload 0, S index) :
    KnownAt peerId S (react env peerId choked msg h).1 := by
  apply react_cases (P := fun r => KnownAt peerId S r.1)
  · exact fun _ => (hknown.serve false).1
  · exact fun hid => hknown.haveBitfield env (hmsg hid)
  · exact fun _ => ((hknown.received msg.payload).serve choked).1
  · exact hknown

/-- All requests that a message leads to are for pieces that were entered before. -/
lemma react_requests (hknown : KnownAt peerId S h) (choked : Bool) (msg : Message) :
    ∀ req ∈ (react env peerId choked msg h).2, S req.index := by
  apply react_cases (P := fun r => ∀ req ∈ r.2, S req.index)
  · exact fun _ => (hknown.serve false).2
  · exact fun _ => by simp
  · exact fun _ => ((hknown.received msg.payload).serve choked).2
  · simp

end PieceHandler

namespace Ctx

variable {Digest : Type*} (env : AgentEnv Digest)

/-- The agent is about to take a slice off its buffer. -/
def takes (c : Ctx) : Label → Bool
  | .frame => c.agent.reading && c.frameReady env
  | _ => false

/-- The message that the agent handles in a step; none if there is no such message. -/
def incoming (c : Ctx) (l : Label) : Option Message :=
  if c.takes env l && c.agent.state.isHandshakeReceived then
    some (.ofSlice env.oob (c.slice env))
  else none

/-- The requests of `request_pieces` and the handler after it. -/
lemma requestPieces_serve (c : Ctx) :
    (c.requestPieces env).shared.handler =
        (PieceHandler.serve env.toEnv c.agent.peerId c.agent.choked c.shared.handler).1 ∧
      c.burst env =
        (PieceHandler.serve env.toEnv c.agent.peerId c.agent.choked c.shared.handler).2 := by
  rw [requestPieces_handler, burst, PieceHandler.serve]
  split_ifs <;> exact ⟨rfl, rfl⟩

variable [DecidableEq Digest]

/-- What a step does to the handler, and the requests that it pushes. -/
def effect (c : Ctx) (l : Label) : PieceHandler × List Request :=
  match c.incoming env l with
  | none => (c.shared.handler, [])
  | some msg =>
    PieceHandler.react env.toEnv c.agent.peerId c.agent.choked msg c.shared.handler

variable {env}

variable (env) in
/-- What handling a message does to the handler and to the history. -/
lemma handleMsg_react (msg : Message) (c : Ctx) :
    (c.handleMsg env msg).shared.handler =
        (PieceHandler.react env.toEnv c.agent.peerId c.agent.choked msg c.shared.handler).1 ∧
      ∃ es, (c.handleMsg env msg).agent.trace = c.agent.trace ++ .handled msg :: es ∧
        requestsOf es =
          (PieceHandler.react env.toEnv c.agent.peerId c.agent.choked msg c.shared.handler).2 := by
  rw [PieceHandler.react]
  apply handleMsg_cases (P := fun c' => c'.shared.handler = _ ∧
    ∃ es, c'.agent.trace = c.agent.trace ++ .handled msg :: es ∧ requestsOf es = _)
  · intro hid
    rw [hid]
    refine ⟨rfl, [.raised c.agent.state .choke], ?_, rfl⟩
    simp [onChoke, raise, setChoked, logMsg]
  · intro hid
    rw [hid]
    set asking := ((c.logMsg msg).raise .unchoke .unchoked).setChoked false with hasking
    obtain ⟨hhandler, hburst⟩ := requestPieces_serve env asking
    refine ⟨hhandler, .raised c.agent.state .unchoke :: (asking.burst env).map pushedRequest,
      ?_, ?_⟩
    · unfold onUnchoke
      rw [← hasking, requestPieces_trace]
      simp [hasking, raise, setChoked, logMsg]
    · have hraised : ∀ es, requestsOf (.raised c.agent.state .unchoke :: es) = requestsOf es :=
        fun _ => rfl
      rw [hraised, requestsOf_map_pushedRequest, hburst]
      rfl
  · intro hid
    rw [hid]
    exact ⟨rfl, [], rfl, rfl⟩
  · intro hid
    rw [hid]
    obtain ⟨hhandler, hburst⟩ := requestPieces_serve env ((c.logMsg msg).received env msg.payload)
    refine ⟨hhandler, (burst env ((c.logMsg msg).received env msg.payload)).map pushedRequest,
      ?_, ?_⟩
    · rw [requestPieces_trace]
      simp [logMsg, received]
    · rw [requestsOf_map_pushedRequest, hburst]
      rfl
  · intro _ hunchoke hbitfield hpiece
    refine ⟨?_, [], rfl, ?_⟩
    · cases hid : msg.id <;> first | rfl | exact absurd hid ‹_›
    · cases hid : msg.id <;> first | rfl | exact absurd hid ‹_›

omit [DecidableEq Digest] in
/-- Outside the receive loop an agent handles no message. -/
lemma incoming_eq_none {c : Ctx} {l : Label} (hl : c.takes env l = false) :
    c.incoming env l = none := by
  unfold incoming
  rw [hl]
  rfl

/-- A step that takes no slice leaves the handler alone and pushes no requests. -/
lemma effect_of_not_takes {c : Ctx} {l : Label} (hl : c.takes env l = false) :
    c.effect env l = (c.shared.handler, []) := by
  unfold effect
  rw [incoming_eq_none hl]

/-- The state after a step: all that was asked of the handler, and all requests that were pushed,
belong to the message that was handled. -/
structure Obeys (env : AgentEnv Digest) (c : Ctx) (l : Label) (c' : Ctx) : Prop where
  /-- The handler did what the message asks for. -/
  handler_eq : c'.shared.handler = (c.effect env l).1
  /-- The history goes on with the message and the requests. -/
  trace_eq : ∃ es, c'.agent.trace = c.agent.trace ++ es ∧ requestsOf es = (c.effect env l).2 ∧
    ∀ msg, c.incoming env l = some msg → .handled msg ∈ es

/-- A step without a slice. -/
lemma Obeys.of_quiet {c c' : Ctx} {l : Label} (es : List AgentEvent)
    (htakes : c.takes env l = false) (hhandler : c'.shared.handler = c.shared.handler)
    (htrace : c'.agent.trace = c.agent.trace ++ es) (hes : requestsOf es = []) :
    Obeys env c l c' := by
  refine ⟨?_, es, htrace, ?_, ?_⟩
  · rw [effect_of_not_takes htakes, hhandler]
  · rw [effect_of_not_takes htakes, hes]
  · rw [incoming_eq_none htakes]
    simp

/-- A step that does nothing. -/
lemma Obeys.of_stay {c : Ctx} {l : Label} (htakes : c.takes env l = false) : Obeys env c l c :=
  .of_quiet [] htakes rfl (List.append_nil _).symm rfl

/-- A pass of the receive loop does what its message asks for. -/
lemma obeys_frame {c : Ctx} (htakes : c.takes env .frame = true) :
    Obeys env c .frame (c.frame env) := by
  apply frame_cases (P := Obeys env c .frame)
  · intro hhs _
    have hnone : c.incoming env .frame = none := by rw [incoming, htakes, hhs]; rfl
    have heffect : c.effect env .frame = (c.shared.handler, []) := by rw [effect, hnone]
    refine ⟨?_, [.chopped (c.slice env)], rfl, ?_, ?_⟩
    · rw [heffect]
      rfl
    · rw [heffect]
      rfl
    · rw [hnone]
      simp
  · intro hhs _
    have hnone : c.incoming env .frame = none := by rw [incoming, htakes, hhs]; rfl
    have heffect : c.effect env .frame = (c.shared.handler, []) := by rw [effect, hnone]
    refine ⟨?_, [.chopped (c.slice env), .raised c.agent.state .handshake,
      .pushed .interested MsgFactory.interested], ?_, ?_, ?_⟩
    · rw [heffect]
      rfl
    · simp [onHandshake, interested, push, raise, reg, chopHandshake, chop]
    · rw [heffect]
      rfl
    · rw [hnone]
      simp
  · intro hhs
    have hsome : c.incoming env .frame = some (.ofSlice env.oob (c.slice env)) := by
      unfold incoming
      rw [htakes, hhs]
      rfl
    have heffect : c.effect env .frame = PieceHandler.react env.toEnv c.agent.peerId
        c.agent.choked (.ofSlice env.oob (c.slice env)) c.shared.handler := by
      unfold effect
      rw [hsome]
    obtain ⟨hhandler, es, htrace, hes⟩ :=
      handleMsg_react env (.ofSlice env.oob (c.slice env)) (c.chop env)
    refine ⟨?_, .chopped (c.slice env) :: .handled (.ofSlice env.oob (c.slice env)) :: es,
      ?_, ?_, ?_⟩
    · rw [heffect]
      exact hhandler
    · rw [htrace]
      simp [chop]
    · rw [heffect]
      exact hes
    · intro msg hmsg
      obtain rfl := Option.some.inj (hsome.symm.trans hmsg)
      simp

variable (env) in
/-- All that a step asks of the handler, and all requests it pushes, belong to the message that it
handles. -/
theorem obeys_step {c : Ctx} {l : Label} (hl : l ≠ .execute) : Obeys env c l (c.step env l) := by
  cases l with
  | execute => exact absurd rfl hl
  | read result =>
    apply step_read_cases (P := Obeys env c (.read result)) (.of_stay rfl)
    · exact fun _ _ _ => .of_quiet [.raised c.agent.state .disconnected] rfl rfl rfl rfl
    · exact fun b bytes _ _ _ => .of_quiet [.received (b :: bytes)] rfl rfl rfl rfl
  | frame =>
    apply step_frame_cases (P := Obeys env c .frame)
    · intro hreading
      exact .of_stay (by rw [takes, hreading]; rfl)
    · intro hreading hready
      exact .of_quiet [] (by rw [takes, hready, Bool.and_false]) rfl
        (List.append_nil _).symm rfl
    · intro hreading hready
      exact obeys_frame (by rw [takes, hreading, hready]; rfl)
  | write answer =>
    apply step_write_cases (P := Obeys env c (.write answer))
    · exact fun _ => .of_stay rfl
    · intro _ _ _
      refine .of_quiet [.raised c.agent.state .connected, .pushed .handshake
        (MsgFactory.handshake env.oob env.localPeerId env.infoHash)] rfl rfl ?_ rfl
      simp [onConnected, handshake, push, raise, reg, unregEvents, setConnected]
    · exact fun _ _ _ => .of_quiet [] rfl rfl (List.append_nil _).symm rfl
    · exact fun _ _ _ => .of_quiet [_] rfl rfl rfl rfl
    · exact fun _ _ _ => .of_quiet [_] rfl rfl rfl rfl
  | timeout fd success =>
    apply step_timeout_cases (P := Obeys env c (.timeout fd success)) (.of_stay rfl)
    intro _ _
    unfold onTimeout start connect
    split_ifs
    · refine .of_quiet [.opened, .raised c.agent.state .start,
        .raised .started .connected, .pushed .handshake
        (MsgFactory.handshake env.oob env.localPeerId env.infoHash)] rfl rfl ?_ rfl
      simp [onConnected, handshake, push, raise, reg, attempt, openSocket, closeSocket, clearQueue]
    · refine .of_quiet [.opened, .raised c.agent.state .start] rfl rfl ?_ rfl
      simp [raise, reg, attempt, openSocket, closeSocket, clearQueue]

/-- The requests pushed up to the end of a step. -/
lemma requestsOf_step {c : Ctx} {l : Label} (hl : l ≠ .execute) :
    requestsOf (c.step env l).agent.trace = requestsOf c.agent.trace ++ (c.effect env l).2 := by
  obtain ⟨es, htrace, hes, -⟩ := (obeys_step env (c := c) hl).trace_eq
  rw [htrace, requestsOf_append, hes]

end Ctx

/-! ### What does not depend on the requests -/

/-- An agent without its requests: the queue, the history and the mask of events are left out. -/
def Agent.erase (a : Agent) : Agent :=
  { a with
    sendQueue := []
    trace := []
    events := ⟨false, false⟩ }

/-- What is shared, without the entries for peers and the masks of events. -/
def Shared.erase (s : Shared) : Shared where
  handler := s.handler.core
  reactor := ⟨fun _ => none, fun _ => none⟩
  timer := s.timer

namespace Ctx

/-- An agent in its surroundings, without requests. -/
def erase (c : Ctx) : Ctx := ⟨c.self, c.agent.erase, c.shared.erase⟩

variable {Digest : Type*} {env : AgentEnv Digest}

/-- Two agents are the same without requests if they and what they share are. -/
lemma erase_eq {c c' : Ctx} (hself : c.self = c'.self) (hagent : c.agent.erase = c'.agent.erase)
    (hcore : c.shared.handler.core = c'.shared.handler.core)
    (htimer : c.shared.timer = c'.shared.timer) : c.erase = c'.erase := by
  unfold erase Shared.erase
  rw [hself, hagent, hcore, htimer]

lemma erase_requestPieces (c : Ctx) : (c.requestPieces env).erase = c.erase := by
  refine erase_eq (requestPieces_self env c) ?_ ?_ (requestPieces_timer env c)
  · rw [requestPieces_agent]
    rfl
  · rw [(requestPieces_serve env c).1]
    exact (PieceHandler.localTo_serve _ _ _ _).core_eq

lemma erase_haveBitfield (bitfield : ByteString) (c : Ctx) :
    (c.haveBitfield env bitfield).erase = c.erase :=
  erase_eq rfl rfl (PieceHandler.localTo_haveBitfield _ _ _ _).core_eq rfl

variable [DecidableEq Digest]

lemma erase_received (payload : ByteString) (c : Ctx) :
    (c.received env payload).erase = (c.erase.received env payload).erase := by
  refine erase_eq rfl rfl ?_ rfl
  exact (PieceHandler.received_core env.toEnv payload c.shared.handler).trans
    (PieceHandler.received_core env.toEnv payload c.shared.handler.core).symm

/-- Handling a message, without requests. -/
lemma erase_handleMsg (msg : Message) (c : Ctx) :
    (c.handleMsg env msg).erase = (c.erase.handleMsg env msg).erase := by
  unfold handleMsg
  cases msg.id with
  | unchoke =>
    change (requestPieces env _).erase = (requestPieces env _).erase
    rw [erase_requestPieces, erase_requestPieces]
    rfl
  | bitfield =>
    change (haveBitfield env _ _).erase = (haveBitfield env _ _).erase
    rw [erase_haveBitfield, erase_haveBitfield]
    rfl
  | piece =>
    change (requestPieces env _).erase = (requestPieces env _).erase
    rw [erase_requestPieces, erase_requestPieces, erase_received]
    rfl
  | _ => rfl

/-- Two bitfields have the same effect, but for requests. -/
lemma erase_handleMsg_bitfield {msg msg' : Message} (hmsg : msg.id = .bitfield)
    (hmsg' : msg'.id = .bitfield) (c : Ctx) :
    (c.handleMsg env msg).erase = (c.handleMsg env msg').erase := by
  unfold handleMsg
  rw [hmsg, hmsg']
  change (haveBitfield env _ _).erase = (haveBitfield env _ _).erase
  rw [erase_haveBitfield, erase_haveBitfield]
  rfl

/-- A pass of the receive loop, without requests. -/
lemma erase_frame (c : Ctx) : (c.frame env).erase = (c.erase.frame env).erase := by
  unfold frame
  change _ = Ctx.erase (if !c.agent.state.isHandshakeReceived then
    if validateHandshake env.oob (c.slice env) then (c.erase.chopHandshake env).onHandshake
    else c.erase.chopHandshake env
    else (c.erase.chop env).handleMsg env (Message.ofSlice env.oob (c.slice env)))
  split_ifs
  · rfl
  · rfl
  · rw [erase_handleMsg, erase_handleMsg _ (c.erase.chop env)]
    rfl

/-- A call of `read`, without requests. -/
lemma erase_read (result : Option ByteString) (c : Ctx) :
    (c.read result).erase = (c.erase.read result).erase := by
  have hfd' : c.erase.agent.fd = c.agent.fd := rfl
  unfold read
  rw [hfd']
  cases c.agent.fd with
  | none => rfl
  | some fd =>
    rcases result with _ | _ | ⟨b, bytes⟩
    · rfl
    · rfl
    · rfl

omit [DecidableEq Digest] in
/-- A call of `write`, without requests. -/
lemma erase_write (answer : WriteAnswer) (c : Ctx) :
    (c.write env answer).erase = (c.erase.write env answer).erase := by
  have hsent : ∀ c : Ctx, c.agent.connected = true → (c.write env answer).erase = c.erase := by
    intro c hconn
    unfold write
    rw [hconn, if_neg (by simp)]
    split_ifs <;> rfl
  cases hconn : c.agent.connected with
  | true =>
    have hconn' : c.erase.agent.connected = true := hconn
    rw [hsent c hconn, hsent c.erase hconn']
    rfl
  | false =>
    have hconn' : c.erase.agent.connected = false := hconn
    have hfd' : c.erase.agent.fd = c.agent.fd := rfl
    unfold write
    rw [hconn, hconn', hfd', if_pos (by simp), if_pos (by simp)]
    rcases (answer.on c.agent.fd).soError with _ | _ | error
    · rfl
    · rfl
    · rfl

/-- Steps do not depend on requests, but for the requests. -/
theorem erase_step (c : Ctx) (l : Label) :
    (c.step env l).erase = (c.erase.step env l).erase := by
  have hsame : c.erase.erase = c.erase := rfl
  have hreading' : c.erase.agent.reading = c.agent.reading := rfl
  cases hreading : c.agent.reading with
  | true =>
    rw [hreading] at hreading'
    cases l with
    | frame =>
      have hready' : c.erase.frameReady env = c.frameReady env := rfl
      rw [step, step, hreading, hreading', if_pos rfl, if_pos rfl, hready']
      split_ifs
      · exact erase_frame c
      · rfl
    | _ =>
      simp only [step, hreading, hreading', if_true, Bool.true_or]
      exact hsame.symm
  | false =>
    rw [hreading] at hreading'
    cases l with
    | read result =>
      simp only [step, hreading, hreading', Bool.false_eq_true, if_false]
      exact erase_read result c
    | frame =>
      simp only [step, hreading, hreading', Bool.false_eq_true, if_false]
      exact hsame.symm
    | write answer =>
      simp only [step, hreading, hreading', Bool.false_eq_true, if_false]
      exact erase_write answer c
    | timeout fd success =>
      rw [step, step, hreading, hreading']
      change _ = Ctx.erase (if (false || !decide (c.self ∈ c.shared.timer.clients)) = true
        then c.erase else c.erase.onTimeout env fd success)
      split_ifs
      · rfl
      · unfold onTimeout start connect
        split_ifs <;> rfl
    | execute =>
      simp only [step, hreading, hreading', Bool.false_eq_true, if_false]
      unfold execute
      change _ = Ctx.erase (if (c.agent.connected && !c.agent.choked) = true then
        c.erase.requestPieces env else c.erase)
      split_ifs
      · rw [erase_requestPieces, erase_requestPieces]
        rfl
      · rfl

end Ctx

end Tent
