import Tent.Agent.Reaction
import Tent.Session.World

/-!
# Whose bitfield a request respects

The handler keeps the announcements of a peer under its id.  As long as different agents use
different ids, an agent requests only pieces that its own peer announced, and the bitfield that one
agent receives makes no difference to what another one requests.

`set_peer_id_and_validate_handshake` takes over the id of the handshake only if the agent has an id
already.  Peers that are learnt from a compact or a UDP response come without an id, and all of them
keep the empty one.  So the above holds in the runs in which no two agents without an id accept a
handshake (`requests_own_bitfield`), and it fails as soon as two of them do
(`empty_ids_share_bitfields`).
-/

set_option autoImplicit false

namespace Tent

open Bytes Transition

/-- A bitfield was handled. -/
def AgentEvent.announces : AgentEvent → Bool
  | .handled msg => msg.id == .bitfield
  | _ => false

/-- A piece was announced in a bitfield that was handled in the history. -/
def Announced (events : List AgentEvent) (index : ℕ) : Prop :=
  ∃ msg, .handled msg ∈ events ∧ msg.id = .bitfield ∧ index ∈ bitfieldIndices msg.payload 0

/-- What was announced stays announced. -/
lemma Announced.mono {events events' : List AgentEvent} (hsub : events ⊆ events') {index : ℕ}
    (h : Announced events index) : Announced events' index := by
  obtain ⟨msg, hmem, hid, hindex⟩ := h
  exact ⟨msg, hsub hmem, hid, hindex⟩

/-- A request is for a piece announced before. -/
def RequestAnnounced (earlier : List AgentEvent) (e : AgentEvent) : Prop :=
  ∀ req bytes, e = .pushed (.request req) bytes → Announced earlier req.index

/-- Every request that the agent pushed is for a piece that its peer announced before. -/
def Agent.RequestsAnnounced (a : Agent) : Prop := Each RequestAnnounced a.trace

/-- An agent whose socket is open and whose peer sent a handshake uses an id that belongs to it. -/
structure Agent.Keyed (owner : PeerId → ℕ) (i : ℕ) (a : Agent) : Prop where
  /-- An agent inside the receive loop has a socket. -/
  reading_open : a.reading = true → a.fd.isSome = true
  /-- After the handshake the id belongs to the agent. -/
  owned : a.state.isHandshakeReceived = true → a.fd.isSome = true → owner a.peerId = i

namespace Ctx

variable {Digest : Type*} (env : AgentEnv Digest)

/-- The agent is about to accept a handshake. -/
def accepts (c : Ctx) (l : Label) : Bool :=
  c.takes env l && !c.agent.state.isHandshakeReceived && validateHandshake env.oob (c.slice env)

/-- If the agent is about to accept a handshake, the id in it belongs to the agent. -/
def OwnId (owner : PeerId → ℕ) (c : Ctx) (l : Label) : Prop :=
  c.accepts env l = true → owner (handshakePeerId env.oob (c.slice env)) = c.self

/-- If the agent is about to accept a handshake without having an id, it is the agent with the given
number. -/
def SoleUnnamed (unnamed : ℕ) (c : Ctx) (l : Label) : Prop :=
  c.accepts env l = true → c.agent.peerId = [] → c.self = unnamed

instance (owner : PeerId → ℕ) (c : Ctx) (l : Label) : Decidable (c.OwnId env owner l) :=
  inferInstanceAs (Decidable (_ → _))

instance (unnamed : ℕ) (c : Ctx) (l : Label) : Decidable (c.SoleUnnamed env unnamed l) :=
  inferInstanceAs (Decidable (_ → _ → _))

/-- If the agent is about to accept a handshake, the id that it uses afterwards belongs to it. -/
def OwnKey (owner : PeerId → ℕ) (c : Ctx) (l : Label) : Prop :=
  c.accepts env l = true → owner (setPeerId env.oob (c.slice env) c.agent.peerId) = c.self

variable {env}

/-- If handshakes carry different ids and only one agent has none, then the ids that the agents use
are different. -/
lemma ownKey_of_ownId {owner : PeerId → ℕ} {unnamed : ℕ} {c : Ctx} {l : Label}
    (hid : c.OwnId env owner l) (hsole : c.SoleUnnamed env unnamed l) :
    c.OwnKey env (fun id => if id = [] then unnamed else owner id) l := by
  intro haccepts
  have hlen : (handshakePeerId env.oob (c.slice env)).length = 20 := length_window _ _ _ _
  have hne : handshakePeerId env.oob (c.slice env) ≠ [] := fun h => by simp [h] at hlen
  dsimp only
  unfold setPeerId
  by_cases hempty : c.agent.peerId = []
  · rw [if_neg (not_not.mpr hempty), if_pos hempty]
    exact (hsole haccepts hempty).symm
  · rw [if_pos hempty, if_neg hne]
    exact hid haccepts

variable [DecidableEq Digest]

/-- Ids stay with their agents. -/
lemma keyed_step {owner : PeerId → ℕ} {c : Ctx} {l : Label} (hown : c.OwnKey env owner l)
    (hc : c.agent.Keyed owner c.self) : (c.step env l).agent.Keyed owner c.self := by
  cases l with
  | read result =>
    apply step_read_cases (P := fun c' => c'.agent.Keyed owner c.self) hc
    · intro hreading _ _
      exact ⟨fun hr => absurd (hreading.symm.trans hr) (by simp), fun _ hfd => Bool.noConfusion hfd⟩
    · exact fun _ _ _ hfd _ => ⟨fun _ => hfd, hc.owned⟩
  | frame =>
    apply step_frame_cases (P := fun c' => c'.agent.Keyed owner c.self)
    · exact fun _ => hc
    · exact fun _ _ => ⟨fun hr => Bool.noConfusion hr, hc.owned⟩
    · intro hreading hready
      have htakes : c.takes env .frame = true := by rw [takes, hreading, hready]; rfl
      apply frame_cases (P := fun c' => c'.agent.Keyed owner c.self)
      · intro hhs _
        exact ⟨hc.reading_open, fun hhs' => absurd (hhs.symm.trans hhs') (by simp)⟩
      · intro hhs hvalid
        refine ⟨hc.reading_open, fun _ _ => hown ?_⟩
        unfold accepts
        rw [htakes, hhs, hvalid]
        rfl
      · intro hhs
        obtain ⟨hfd, -, hr, hid, -⟩ :=
          handleMsg_keeps env (.ofSlice env.oob (c.slice env)) (c.chop env)
        refine ⟨fun hreading' => ?_, fun _ hopen => ?_⟩
        · rw [hfd]
          exact hc.reading_open (hr.symm.trans hreading')
        · rw [hid]
          exact hc.owned hhs (hfd ▸ hopen)
  | write answer =>
    apply step_write_cases (P := fun c' => c'.agent.Keyed owner c.self)
    · exact fun _ => hc
    · exact fun _ _ hfd => ⟨fun _ => hfd, fun hhs => Bool.noConfusion hhs⟩
    · intro hreading _ _
      exact ⟨fun hr => absurd (hreading.symm.trans hr) (by simp), fun _ hfd => Bool.noConfusion hfd⟩
    · exact fun _ _ _ => ⟨hc.reading_open, hc.owned⟩
    · exact fun _ _ _ => ⟨hc.reading_open, hc.owned⟩
  | timeout fd success =>
    apply step_timeout_cases (P := fun c' => c'.agent.Keyed owner c.self) hc
    intro hreading _
    unfold onTimeout start connect
    split_ifs
    · exact ⟨fun _ => rfl, fun hhs => Bool.noConfusion hhs⟩
    · exact ⟨fun _ => rfl, fun hhs => Bool.noConfusion hhs⟩
  | execute =>
    apply step_execute_cases (P := fun c' => c'.agent.Keyed owner c.self)
    · exact fun _ => hc
    · intro _ _ _
      refine ⟨?_, ?_⟩
      · rw [requestPieces_reading, requestPieces_fd]
        exact hc.reading_open
      · rw [requestPieces_state, requestPieces_fd, requestPieces_peerId]
        exact hc.owned

omit [DecidableEq Digest] in
/-- An agent handles messages under an id that belongs to it. -/
lemma owner_of_incoming {owner : PeerId → ℕ} {c : Ctx} {l : Label} {msg : Message}
    (hc : c.agent.Keyed owner c.self) (hmsg : c.incoming env l = some msg) :
    owner c.agent.peerId = c.self := by
  rw [incoming] at hmsg
  split_ifs at hmsg with hcond
  obtain ⟨htakes, hhs⟩ := Bool.and_eq_true_iff.mp hcond
  have hreading : c.agent.reading = true := by
    cases l with
    | frame => exact (Bool.and_eq_true_iff.mp htakes).1
    | _ => exact Bool.noConfusion htakes
  exact hc.owned hhs (hc.reading_open hreading)

end Ctx

namespace World

variable {Digest : Type*} {env : AgentEnv Digest} [DecidableEq Digest]

/-- What is entered under an id was announced to the agent that the id belongs to. -/
structure Separated (owner : PeerId → ℕ) (w : World) : Prop where
  /-- The agents use their own ids. -/
  keyed : ∀ i, (w.agents i).Keyed owner i
  /-- The entries under an id come from the bitfields of its owner. -/
  known : ∀ id, w.shared.handler.KnownAt id (Announced (w.agents (owner id)).trace)
  /-- The requests were announced. -/
  requests : ∀ i, (w.agents i).RequestsAnnounced

/-- The histories of all agents only grow. -/
lemma trace_subset_step {w : World} {label : ℕ × Label} {es : List AgentEvent}
    (htrace : ((w.ctx label.1).step env label.2).agent.trace = (w.agents label.1).trace ++ es)
    (i : ℕ) : (w.agents i).trace ⊆ ((w.step env label).agents i).trace := by
  by_cases hi : i = label.1
  · rw [hi, step_agents_self, htrace]
    exact List.subset_append_left _ _
  · rw [step_agents_of_ne env hi]
    exact List.Subset.refl _

/-- A step that uses an id of its own agent keeps the entries of the peers apart. -/
lemma separated_step {owner : PeerId → ℕ} {w : World} {label : ℕ × Label}
    (hl : label.2 ≠ .execute) (hown : (w.ctx label.1).OwnKey env owner label.2)
    (hw : Separated owner w) : Separated owner (w.step env label) := by
  obtain ⟨hhandler, es, htrace, hes, hmem⟩ := Ctx.obeys_step env (c := w.ctx label.1) hl
  have hsub := trace_subset_step htrace
  refine ⟨fun i => ?_, fun id => ?_, fun i => ?_⟩
  · by_cases hi : i = label.1
    · rw [hi, step_agents_self]
      exact Ctx.keyed_step hown (hw.keyed label.1)
    · rw [step_agents_of_ne env hi]
      exact hw.keyed i
  · change ((w.ctx label.1).step env label.2).shared.handler.KnownAt id _
    have hknown := (hw.known id).mono fun _ h => Announced.mono (hsub (owner id)) h
    rw [hhandler, Ctx.effect]
    cases hmsg : (w.ctx label.1).incoming env label.2 with
    | none => exact hknown
    | some msg =>
      have howner := Ctx.owner_of_incoming (hw.keyed label.1) hmsg
      by_cases hid : id = (w.ctx label.1).agent.peerId
      · subst hid
        refine hknown.react _ fun hbitfield index hindex => ⟨msg, ?_, hbitfield, hindex⟩
        rw [howner]
        change AgentEvent.handled msg ∈ ((w.step env label).agents label.1).trace
        rw [step_agents_self, htrace]
        exact List.mem_append_right _ (hmem msg hmsg)
      · obtain ⟨hhave, hrequest⟩ := PieceHandler.react_maps_of_ne env.toEnv hid
          (w.ctx label.1).agent.choked msg (w.ctx label.1).shared.handler
        refine ⟨?_, ?_⟩
        · rw [hhave]
          exact hknown.have_mem
        · rw [hrequest]
          exact hknown.request_mem
  · by_cases hi : i = label.1
    · rw [hi, step_agents_self, Agent.RequestsAnnounced, htrace]
      refine (each_append_of_forall fun pre hpre e he => ?_).mpr (hw.requests label.1)
      rintro req bytes rfl
      have hreq : req ∈ requestsOf es := mem_requestsOf.mpr ⟨bytes, he⟩
      rw [hes, Ctx.effect] at hreq
      cases hmsg : (w.ctx label.1).incoming env label.2 with
      | none => rw [hmsg] at hreq; simp at hreq
      | some msg =>
        rw [hmsg] at hreq
        have hknown := hw.known (w.ctx label.1).agent.peerId
        rw [Ctx.owner_of_incoming (hw.keyed label.1) hmsg] at hknown
        exact (PieceHandler.react_requests hknown _ msg req hreq).mono hpre.subset
    · rw [step_agents_of_ne env hi]
      exact hw.requests i

omit [DecidableEq Digest] in
/-- The agents of a new session leave the handler alone. -/
lemma create_handler (peers : List Peer) :
    (create env peers).shared.handler = PieceHandler.create env.toEnv := by
  have hall : ∀ (peers : List Peer) (i : ℕ) (w : World),
      (createAgents env peers i w).shared.handler = w.shared.handler := by
    intro peers
    induction peers with
    | nil => exact fun _ _ => rfl
    | cons peer peers ih =>
      intro i w
      rw [createAgents, ih]
      change (Ctx.create env peer.fd peer.success
        ⟨i, Agent.idle peer.id, w.shared⟩).shared.handler = _
      unfold Ctx.create Ctx.start Ctx.connect
      split_ifs <;> rfl
  exact hall peers 0 _

variable (env) in
omit [DecidableEq Digest] in
/-- A new session has no entries for peers. -/
lemma separated_create (owner : PeerId → ℕ) (peers : List Peer) :
    Separated owner (create env peers) := by
  refine ⟨?_, fun id => ?_, ?_⟩
  · intro i
    refine forall_agents_create (P := Agent.Keyed owner i) ?_ ?_ peers i
    · exact fun _ => ⟨fun hr => Bool.noConfusion hr, fun hhs => Bool.noConfusion hhs⟩
    · intro _ _ _ fd success
      unfold Ctx.create Ctx.start Ctx.connect
      split_ifs <;> exact ⟨fun _ => rfl, fun hhs => Bool.noConfusion hhs⟩
  · rw [create_handler]
    exact ⟨by simp [PieceHandler.create], by simp [PieceHandler.create]⟩
  · refine forall_agents_create ?_ ?_ peers
    · exact fun _ => each_nil _
    · intro i peerId shared fd success
      have hquiet : ∀ es : List AgentEvent, requestsOf es = [] → Each RequestAnnounced es := by
        rintro es hes pre e post hsplit req bytes rfl
        have hreq : req ∈ requestsOf es := mem_requestsOf.mpr ⟨bytes, by rw [hsplit]; simp⟩
        rw [hes] at hreq
        simp at hreq
      unfold Ctx.create Ctx.start Ctx.connect
      split_ifs <;> exact hquiet _ rfl

end World

/-! ### Other bitfields -/

/-- A message with another bitfield, if it is one. -/
def Message.tamper (other : ByteString → ByteString) (msg : Message) : Message :=
  if msg.id = .bitfield then ⟨.bitfield, other msg.payload⟩ else msg

namespace Ctx

variable {Digest : Type*} [DecidableEq Digest] (env : AgentEnv Digest)

/-- A step of an agent whose peer sends other bitfields. -/
def stepTampered (other : ByteString → ByteString) (c : Ctx) (l : Label) : Ctx :=
  match c.incoming env l with
  | none => c.step env l
  | some msg => (c.chop env).handleMsg env (msg.tamper other)

variable {env}

/-- A step in which a message is handled. -/
lemma step_of_incoming {c : Ctx} {l : Label} {msg : Message} (hmsg : c.incoming env l = some msg) :
    c.step env l = (c.chop env).handleMsg env msg := by
  rw [incoming] at hmsg
  split_ifs at hmsg with hcond
  obtain ⟨htakes, hhs⟩ := Bool.and_eq_true_iff.mp hcond
  obtain rfl := Option.some.inj hmsg
  cases l with
  | frame =>
    obtain ⟨hreading, hready⟩ := Bool.and_eq_true_iff.mp htakes
    rw [step, hreading, if_pos rfl, if_pos hready, frame, hhs]
    rfl
  | _ => exact Bool.noConfusion htakes

/-- The bitfields that a peer sends have no effect on its agent, but for requests. -/
lemma erase_stepTampered (other : ByteString → ByteString) (c : Ctx) (l : Label) :
    (c.stepTampered env other l).erase = (c.step env l).erase := by
  unfold stepTampered
  cases hmsg : c.incoming env l with
  | none => rfl
  | some msg =>
    dsimp only
    rw [step_of_incoming hmsg, Message.tamper]
    split_ifs with hid
    · exact erase_handleMsg_bitfield rfl hid _
    · rfl

/-- What other bitfields do to the handler. -/
lemma stepTampered_maps (other : ByteString → ByteString) {c : Ctx} {l : Label} (hl : l ≠ .execute)
    {id : PeerId} (hid : ∀ msg, c.incoming env l = some msg → id ≠ c.agent.peerId) :
    (c.stepTampered env other l).shared.handler.haveMap id = c.shared.handler.haveMap id ∧
      (c.stepTampered env other l).shared.handler.requestMap id =
        c.shared.handler.requestMap id := by
  unfold stepTampered
  cases hmsg : c.incoming env l with
  | none =>
    dsimp only
    rw [(obeys_step env hl).handler_eq, effect, hmsg]
    exact ⟨rfl, rfl⟩
  | some msg =>
    dsimp only
    rw [(handleMsg_react env (msg.tamper other) (c.chop env)).1]
    exact PieceHandler.react_maps_of_ne _ (hid msg hmsg) _ _ _

/-- A step leaves the entries under other ids alone. -/
lemma step_maps {c : Ctx} {l : Label} (hl : l ≠ .execute) {id : PeerId}
    (hid : ∀ msg, c.incoming env l = some msg → id ≠ c.agent.peerId) :
    (c.step env l).shared.handler.haveMap id = c.shared.handler.haveMap id ∧
      (c.step env l).shared.handler.requestMap id = c.shared.handler.requestMap id := by
  rw [(obeys_step env hl).handler_eq, effect]
  cases hmsg : c.incoming env l with
  | none => exact ⟨rfl, rfl⟩
  | some msg => exact PieceHandler.react_maps_of_ne _ (hid msg hmsg) _ _ _

end Ctx

namespace World

variable {Digest : Type*} [DecidableEq Digest] {env : AgentEnv Digest}

/-- A step of a session in which the peer of one agent sends other bitfields. -/
def stepTampered (env : AgentEnv Digest) (i : ℕ) (other : ByteString → ByteString) (w : World)
    (label : ℕ × Label) : World :=
  if label.1 = i then w.put i ((w.ctx i).stepTampered env other label.2) else w.step env label

/-- Two sessions differ in what concerns the requests of one agent only. -/
structure Similar (owner : PeerId → ℕ) (i : ℕ) (w₁ w₂ : World) : Prop where
  /-- The agents are the same without requests. -/
  agents_eq : ∀ j, (w₁.agents j).erase = (w₂.agents j).erase
  /-- What they share is the same without requests. -/
  shared_eq : w₁.shared.erase = w₂.shared.erase
  /-- The entries under ids of other agents are the same. -/
  maps_eq : ∀ id, owner id ≠ i →
    w₁.shared.handler.haveMap id = w₂.shared.handler.haveMap id ∧
      w₁.shared.handler.requestMap id = w₂.shared.handler.requestMap id
  /-- The requests of other agents are the same. -/
  requests_eq : ∀ j, j ≠ i → requestsOf (w₁.agents j).trace = requestsOf (w₂.agents j).trace

variable {owner : PeerId → ℕ} {i : ℕ} {w₁ w₂ : World}

/-- An agent is the same in both sessions, but for requests. -/
lemma Similar.ctx_eq (h : Similar owner i w₁ w₂) (j : ℕ) :
    (w₁.ctx j).erase = (w₂.ctx j).erase := by
  unfold Ctx.erase
  exact congrArg₂ (Ctx.mk j) (h.agents_eq j) h.shared_eq

/-- The handlers agree about the ids of other agents. -/
lemma Similar.agreeAt (h : Similar owner i w₁ w₂) {id : PeerId} (hid : owner id ≠ i) :
    PieceHandler.AgreeAt id w₁.shared.handler w₂.shared.handler :=
  ⟨congrArg Shared.handler h.shared_eq, (h.maps_eq id hid).1, (h.maps_eq id hid).2⟩

/-- Steps of one agent that agree without requests. -/
lemma Similar.put (h : Similar owner i w₁ w₂) {k : ℕ} {c₁ c₂ : Ctx} (herase : c₁.erase = c₂.erase)
    (hmaps : ∀ id, owner id ≠ i → c₁.shared.handler.haveMap id = c₂.shared.handler.haveMap id ∧
      c₁.shared.handler.requestMap id = c₂.shared.handler.requestMap id)
    (hrequests : k ≠ i → requestsOf c₁.agent.trace = requestsOf c₂.agent.trace) :
    Similar owner i (w₁.put k c₁) (w₂.put k c₂) := by
  refine ⟨fun j => ?_, congrArg Ctx.shared herase, hmaps, fun j hj => ?_⟩
  · by_cases hjk : j = k
    · rw [hjk, World.put_agents_self, World.put_agents_self]
      exact congrArg Ctx.agent herase
    · rw [World.put_agents_of_ne _ _ hjk, World.put_agents_of_ne _ _ hjk]
      exact h.agents_eq j
  · by_cases hjk : j = k
    · rw [hjk, World.put_agents_self, World.put_agents_self]
      exact hrequests (hjk ▸ hj)
    · rw [World.put_agents_of_ne _ _ hjk, World.put_agents_of_ne _ _ hjk]
      exact h.requests_eq j hj

variable (env) in
omit [DecidableEq Digest] in
/-- In both sessions an agent handles the same message, under the same id. -/
lemma Similar.incoming_eq (h : Similar owner i w₁ w₂) (k : ℕ) (l : Label) :
    (w₁.ctx k).incoming env l = (w₂.ctx k).incoming env l ∧
      (w₁.ctx k).agent.peerId = (w₂.ctx k).agent.peerId ∧
      (w₁.ctx k).agent.choked = (w₂.ctx k).agent.choked :=
  ⟨congrArg (fun c => c.incoming env l) (h.ctx_eq k),
    congrArg (fun c => c.agent.peerId) (h.ctx_eq k),
    congrArg (fun c => c.agent.choked) (h.ctx_eq k)⟩

variable (env) in
/-- Another agent asks the same of the handler in both sessions. -/
lemma Similar.effect_eq (h : Similar owner i w₁ w₂) {k : ℕ} (hk : k ≠ i) {l : Label}
    (hkeyed : (w₁.agents k).Keyed owner k) :
    (∀ id, owner id ≠ i →
        ((w₁.ctx k).effect env l).1.haveMap id = ((w₂.ctx k).effect env l).1.haveMap id ∧
          ((w₁.ctx k).effect env l).1.requestMap id =
            ((w₂.ctx k).effect env l).1.requestMap id) ∧
      ((w₁.ctx k).effect env l).2 = ((w₂.ctx k).effect env l).2 := by
  obtain ⟨hincoming, hpeerId, hchoked⟩ := h.incoming_eq env k l
  unfold Ctx.effect
  rw [← hincoming, ← hpeerId, ← hchoked]
  cases hmsg : (w₁.ctx k).incoming env l with
  | none => exact ⟨h.maps_eq, rfl⟩
  | some msg =>
    have howner : owner (w₁.ctx k).agent.peerId = k :=
      Ctx.owner_of_incoming (c := w₁.ctx k) hkeyed hmsg
    obtain ⟨hagree, hrequests⟩ := (h.agreeAt (howner ▸ hk)).react env.toEnv
      (w₁.ctx k).agent.choked msg
    refine ⟨fun id hid => ?_, hrequests⟩
    by_cases hkey : id = (w₁.ctx k).agent.peerId
    · rw [hkey]
      exact ⟨hagree.haveMap_eq, hagree.requestMap_eq⟩
    · obtain ⟨hhave₁, hrequest₁⟩ := PieceHandler.react_maps_of_ne env.toEnv hkey
        (w₁.ctx k).agent.choked msg (w₁.ctx k).shared.handler
      obtain ⟨hhave₂, hrequest₂⟩ := PieceHandler.react_maps_of_ne env.toEnv hkey
        (w₁.ctx k).agent.choked msg (w₂.ctx k).shared.handler
      rw [hhave₁, hhave₂, hrequest₁, hrequest₂]
      exact h.maps_eq id hid

/-- The other bitfields of one agent make no difference to what the others request. -/
lemma similar_step {other : ByteString → ByteString} {label : ℕ × Label}
    (hl : label.2 ≠ .execute) (hkeyed : (w₁.agents label.1).Keyed owner label.1)
    (h : Similar owner i w₁ w₂) :
    Similar owner i (w₁.step env label) (stepTampered env i other w₂ label) := by
  obtain ⟨hincoming, hpeerId, hchoked⟩ := h.incoming_eq env label.1 label.2
  have howner : ∀ msg, (w₁.ctx label.1).incoming env label.2 = some msg →
      owner (w₁.ctx label.1).agent.peerId = label.1 := fun msg hmsg =>
    Ctx.owner_of_incoming (c := w₁.ctx label.1) hkeyed hmsg
  have herase : ((w₁.ctx label.1).step env label.2).erase =
      ((w₂.ctx label.1).step env label.2).erase := by
    rw [Ctx.erase_step, h.ctx_eq, ← Ctx.erase_step]
  unfold stepTampered
  split_ifs with hi
  · -- the agent with the other bitfields: only the entries under its own id change
    rw [← hi]
    refine Similar.put (k := label.1) (by rwa [hi]) ?_ ?_ ?_
    · rw [Ctx.erase_stepTampered, herase]
    · intro id hid
      have hne : ∀ msg, (w₁.ctx label.1).incoming env label.2 = some msg →
          id ≠ (w₁.ctx label.1).agent.peerId := fun msg hmsg heq =>
        hid (by rw [heq]; exact howner msg hmsg)
      obtain ⟨hhave₁, hrequest₁⟩ := Ctx.step_maps hl hne
      rw [hincoming, hpeerId] at hne
      obtain ⟨hhave₂, hrequest₂⟩ := Ctx.stepTampered_maps other hl hne
      obtain ⟨hhave, hrequest⟩ := h.maps_eq id (by rwa [← hi])
      exact ⟨hhave₁.trans (hhave.trans hhave₂.symm),
        hrequest₁.trans (hrequest.trans hrequest₂.symm)⟩
    · exact fun hne => absurd rfl hne
  · -- another agent: what it does depends on its own entries, which are the same
    obtain ⟨hmaps, hrequests⟩ := h.effect_eq env (l := label.2) hi hkeyed
    refine h.put herase ?_ fun _ => ?_
    · rw [(Ctx.obeys_step env hl).handler_eq, (Ctx.obeys_step env hl).handler_eq]
      exact hmaps
    · rw [Ctx.requestsOf_step hl, Ctx.requestsOf_step hl, hrequests]
      exact congrArg (· ++ _) (h.requests_eq label.1 hi)

/-- In every run of a session in which the handshakes of different agents carry different ids, and
no two agents without an id accept a handshake, every request of an agent is for a piece that its
own peer announced before, and other bitfields of the peer of one agent would make no difference to
what the other agents request. -/
theorem requests_own_bitfield {peers : List Peer} {labels : List (ℕ × Label)}
    {owner : PeerId → ℕ} {unnamed : ℕ} (hlabels : ∀ label ∈ labels, label.2 ≠ .execute)
    (hids : Meets (step env) (fun w label => Ctx.OwnId env owner (w.ctx label.1) label.2)
      (create env peers) labels)
    (hsole : Meets (step env) (fun w label => Ctx.SoleUnnamed env unnamed (w.ctx label.1) label.2)
      (create env peers) labels) :
    Along (step env) (fun w => ∀ i, (w.agents i).RequestsAnnounced) (create env peers) labels ∧
      ∀ (i : ℕ) (other : ByteString → ByteString) (j : ℕ), j ≠ i →
        requestsOf ((run (step env) (create env peers) labels).agents j).trace =
          requestsOf
            ((run (stepTampered env i other) (create env peers) labels).agents j).trace := by
  set key : PeerId → ℕ := fun id => if id = [] then unnamed else owner id with hkey
  have hmeets := (hids.and hsole).and (meets_of_forall hlabels)
  have hstart := separated_create env key peers
  refine ⟨?_, fun i other j hj => ?_⟩
  · refine (along_of_meets (P := Separated key) ?_ hmeets hstart).mono fun _ hw => hw.requests
    rintro w label ⟨⟨hid, hsole⟩, hl⟩ hw
    exact separated_step hl (Ctx.ownKey_of_ownId hid hsole) hw
  · have hrel : Separated key (run (step env) (create env peers) labels) ∧
        Similar key i (run (step env) (create env peers) labels)
          (run (stepTampered env i other) (create env peers) labels) := by
      refine run_rel_of_meets (R := fun w₁ w₂ => Separated key w₁ ∧ Similar key i w₁ w₂) ?_ hmeets
        ⟨hstart, ⟨fun _ => rfl, rfl, fun _ _ => ⟨rfl, rfl⟩, fun _ _ => rfl⟩⟩
      rintro w₁ w₂ label ⟨⟨hid, hsole⟩, hl⟩ ⟨hw, hsim⟩
      exact ⟨separated_step hl (Ctx.ownKey_of_ownId hid hsole) hw,
        similar_step hl (hw.keyed label.1) hsim⟩
    exact hrel.2.requests_eq j hj

/-- A run of two agents whose peers send handshakes with different ids: the peer of the first one
announces its piece, and the peer of the second one has sent that it unchokes its agent. -/
def twoPeersRun : List (ℕ × Label) :=
  [(0, .read (some (MsgFactory.handshake sampleAgentEnv.oob (List.replicate 20 1) [] ++
      frameBytes .bitfield [128]))), (0, .frame), (0, .frame),
    (1, .read (some (MsgFactory.handshake sampleAgentEnv.oob (List.replicate 20 2) [] ++
      MsgFactory.unchoke))), (1, .frame)]

/-- To which agent the ids in the handshakes belong. -/
def twoPeersOwner (id : PeerId) : ℕ := if id = List.replicate 20 1 then 0 else 1

/-- The run with two peers of which one was learnt with an id. -/
theorem requests_own_bitfield_sample :
    (∀ label ∈ twoPeersRun ++ [(1, .frame)], label.2 ≠ .execute) ∧
      Meets (step sampleAgentEnv)
        (fun w label => Ctx.OwnId sampleAgentEnv twoPeersOwner (w.ctx label.1) label.2)
        (create sampleAgentEnv [⟨[], 3, true⟩, ⟨List.replicate 20 9, 4, true⟩])
        (twoPeersRun ++ [(1, .frame)]) ∧
      Meets (step sampleAgentEnv)
        (fun w label => Ctx.SoleUnnamed sampleAgentEnv 0 (w.ctx label.1) label.2)
        (create sampleAgentEnv [⟨[], 3, true⟩, ⟨List.replicate 20 9, 4, true⟩])
        (twoPeersRun ++ [(1, .frame)]) ∧
      Along (step sampleAgentEnv) (fun w => ∀ i, (w.agents i).RequestsAnnounced)
        (create sampleAgentEnv [⟨[], 3, true⟩, ⟨List.replicate 20 9, 4, true⟩])
        (twoPeersRun ++ [(1, .frame)]) := by
  have hlabels : ∀ label ∈ twoPeersRun ++ [(1, .frame)], label.2 ≠ .execute := by decide +kernel
  have hids : Meets (step sampleAgentEnv)
      (fun w label => Ctx.OwnId sampleAgentEnv twoPeersOwner (w.ctx label.1) label.2)
      (create sampleAgentEnv [⟨[], 3, true⟩, ⟨List.replicate 20 9, 4, true⟩])
      (twoPeersRun ++ [(1, .frame)]) := by
    decide +kernel
  have hsole : Meets (step sampleAgentEnv)
      (fun w label => Ctx.SoleUnnamed sampleAgentEnv 0 (w.ctx label.1) label.2)
      (create sampleAgentEnv [⟨[], 3, true⟩, ⟨List.replicate 20 9, 4, true⟩])
      (twoPeersRun ++ [(1, .frame)]) := by
    decide +kernel
  exact ⟨hlabels, hids, hsole, (requests_own_bitfield hlabels hids hsole).1⟩

/-- The session with two peers that were learnt without ids, before the second agent handles its
message. -/
def twoUnnamed : World :=
  run (step sampleAgentEnv) (create sampleAgentEnv [⟨[], 3, true⟩, ⟨[], 4, true⟩]) twoPeersRun

/-- The same session, if the peer of the first agent had announced nothing. -/
def twoUnnamedQuiet : World :=
  run (stepTampered sampleAgentEnv 0 fun _ => [])
    (create sampleAgentEnv [⟨[], 3, true⟩, ⟨[], 4, true⟩]) twoPeersRun

/-- The second agent is about to be unchoked, and finds under the empty id what the peer of the
first one announced. -/
lemma twoUnnamed_effect :
    ((twoUnnamed.ctx 1).effect sampleAgentEnv .frame).2 = List.replicate maxBurst ⟨0, 0, 1⟩ := by
  have hmsg : (twoUnnamed.ctx 1).incoming sampleAgentEnv .frame = some ⟨.unchoke, []⟩ := by
    decide +kernel
  have hid : (twoUnnamed.ctx 1).agent.peerId = [] := by decide +kernel
  unfold Ctx.effect
  rw [hmsg, hid]
  decide +kernel

/-- If nothing had been announced, there would be nothing to request. -/
lemma twoUnnamedQuiet_effect :
    ((twoUnnamedQuiet.ctx 1).effect sampleAgentEnv .frame).2 = [] := by
  have hmsg : (twoUnnamedQuiet.ctx 1).incoming sampleAgentEnv .frame = some ⟨.unchoke, []⟩ := by
    decide +kernel
  have hid : (twoUnnamedQuiet.ctx 1).agent.peerId = [] := by decide +kernel
  unfold Ctx.effect
  rw [hmsg, hid]
  decide +kernel

/-- The second agent has handled no bitfield, and is not about to handle one. -/
lemma twoUnnamed_not_announced {earlier : List AgentEvent}
    (hsub : earlier ⊆ ((twoUnnamed.step sampleAgentEnv (1, .frame)).agents 1).trace) (index : ℕ) :
    ¬ Announced earlier index := by
  rintro ⟨msg, hmem, hid, -⟩
  have hmsg : (twoUnnamed.ctx 1).incoming sampleAgentEnv .frame = some ⟨.unchoke, []⟩ := by
    decide +kernel
  have hnone : ∀ e ∈ ((twoUnnamed.ctx 1).chop sampleAgentEnv).agent.trace,
      e.announces = false := by
    decide +kernel
  obtain ⟨es, htrace, hes⟩ := Ctx.handleMsg_events sampleAgentEnv ⟨.unchoke, []⟩
    ((twoUnnamed.ctx 1).chop sampleAgentEnv)
  have hstep : ((twoUnnamed.step sampleAgentEnv (1, .frame)).agents 1).trace =
      ((twoUnnamed.ctx 1).chop sampleAgentEnv).agent.trace ++ .handled ⟨.unchoke, []⟩ :: es := by
    rw [step_agents_self, Ctx.step_of_incoming hmsg, htrace]
  have hall := hsub hmem
  rw [hstep] at hall
  rcases List.mem_append.mp hall with hold | hnew
  · have hne := hnone _ hold
    simp [AgentEvent.announces, hid] at hne
  · rcases List.mem_cons.mp hnew with heq | hnew
    · obtain rfl := AgentEvent.handled.inj heq
      exact absurd hid (by decide)
    · rcases hes _ hnew with ⟨st, h | h⟩ | ⟨req, h⟩
      · exact absurd h (by simp)
      · exact absurd h (by simp)
      · exact absurd h (by simp [pushedRequest])

/-- Two peers that were learnt without ids and whose handshakes carry different ids: the second
agent requests a piece that only the peer of the first one announced, and it would not have done so
if that peer had announced nothing. -/
theorem empty_ids_share_bitfields :
    Meets (step sampleAgentEnv)
        (fun w label => Ctx.OwnId sampleAgentEnv twoPeersOwner (w.ctx label.1) label.2)
        (create sampleAgentEnv [⟨[], 3, true⟩, ⟨[], 4, true⟩]) (twoPeersRun ++ [(1, .frame)]) ∧
      ¬ Along (step sampleAgentEnv) (fun w => ∀ i, (w.agents i).RequestsAnnounced)
        (create sampleAgentEnv [⟨[], 3, true⟩, ⟨[], 4, true⟩]) (twoPeersRun ++ [(1, .frame)]) ∧
      requestsOf ((run (step sampleAgentEnv)
          (create sampleAgentEnv [⟨[], 3, true⟩, ⟨[], 4, true⟩])
          (twoPeersRun ++ [(1, .frame)])).agents 1).trace ≠
        requestsOf ((run (stepTampered sampleAgentEnv 0 fun _ => [])
          (create sampleAgentEnv [⟨[], 3, true⟩, ⟨[], 4, true⟩])
          (twoPeersRun ++ [(1, .frame)])).agents 1).trace := by
  have hrequests : requestsOf ((twoUnnamed.step sampleAgentEnv (1, .frame)).agents 1).trace =
      List.replicate maxBurst ⟨0, 0, 1⟩ := by
    have hbefore : requestsOf (twoUnnamed.ctx 1).agent.trace = [] := by decide +kernel
    rw [step_agents_self, Ctx.requestsOf_step (by simp), twoUnnamed_effect, hbefore]
    rfl
  have hquiet : requestsOf ((twoUnnamedQuiet.step sampleAgentEnv (1, .frame)).agents 1).trace =
      [] := by
    have hbefore : requestsOf (twoUnnamedQuiet.ctx 1).agent.trace = [] := by decide +kernel
    rw [step_agents_self, Ctx.requestsOf_step (by simp), twoUnnamedQuiet_effect, hbefore]
    rfl
  refine ⟨by decide +kernel, fun h => ?_, ?_⟩
  · have hlast := h.last 1
    rw [run_append] at hlast
    have hmem : ⟨0, 0, 1⟩ ∈ requestsOf
        ((twoUnnamed.step sampleAgentEnv (1, .frame)).agents 1).trace := by
      rw [hrequests]
      exact List.mem_replicate.mpr ⟨by decide, rfl⟩
    obtain ⟨bytes, hpushed⟩ := mem_requestsOf.mp hmem
    obtain ⟨earlier, later, hsplit⟩ := List.append_of_mem hpushed
    refine twoUnnamed_not_announced ?_ 0 (hlast earlier _ later hsplit _ bytes rfl)
    rw [hsplit]
    exact List.subset_append_left _ _
  · rw [run_append, run_append]
    change requestsOf ((twoUnnamed.step sampleAgentEnv (1, .frame)).agents 1).trace ≠
      requestsOf ((twoUnnamedQuiet.step sampleAgentEnv (1, .frame)).agents 1).trace
    rw [hrequests, hquiet]
    simp [maxBurst]

end World

end Tent
