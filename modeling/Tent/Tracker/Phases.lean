import Tent.Tracker.Peers

/-!
# The phases of the UDP tracker client

Peers should come from an announce response, which answers an announce request, which in turn
answers a connect response, which answers a connect request.  `PhaseOk` says so of every event of a
history.  The client has no variable for the phase it is in: it tells the responses apart by their
action alone, and `current_transaction_id_` is the id of a connect request first and of an announce
request later.

With ids that are never drawn twice, the current id determines the last request (`Phased`), whatever
datagrams arrive.  So a datagram of an earlier request is never taken for an answer, and the only
way to confuse the phases is a datagram that carries the current id and the action of the other
phase.  `phases_iff` says that the phases are kept apart exactly in the runs without such a
datagram.
-/

set_option autoImplicit false

namespace Tent

open Bytes Collect Transition

/-! ### Requests in a history -/

namespace UdpEvent

/-- The id that was drawn. -/
def drawnId : UdpEvent → Option ℕ
  | drew transactionId => some transactionId
  | _ => none

/-- The id of the connect request that was sent. -/
def connectId : UdpEvent → Option ℕ
  | connectSent _ transactionId _ => some transactionId
  | _ => none

/-- The id of the announce request that was sent. -/
def announceId : UdpEvent → Option ℕ
  | announceSent _ transactionId _ _ => some transactionId
  | _ => none

/-- The id in the datagram that was answered with an announce request. -/
def answeredId : UdpEvent → Option ℕ
  | announceSent _ _ _ header => some header.transactionId
  | _ => none

end UdpEvent

/-- The ids that were drawn. -/
def drawnIds (tr : List UdpEvent) : List ℕ := tr.filterMap UdpEvent.drawnId

/-- The ids of the connect requests that were sent. -/
def connectIds (tr : List UdpEvent) : List ℕ := tr.filterMap UdpEvent.connectId

/-- The ids of the announce requests that were sent. -/
def announceIds (tr : List UdpEvent) : List ℕ := tr.filterMap UdpEvent.announceId

/-- The ids in the datagrams that were answered with an announce request. -/
def answeredIds (tr : List UdpEvent) : List ℕ := tr.filterMap UdpEvent.answeredId

/-- An announce request is sent only in answer to a connect response to a connect request that was
sent and not answered in this way before, and peers are appended only by an announce response to an
announce request that was sent. -/
def PhaseOk (tr : List UdpEvent) : UdpEvent → Prop
  | .announceSent _ _ _ header =>
    header.action = 0 ∧ header.transactionId ∈ connectIds tr ∧
      header.transactionId ∉ answeredIds tr
  | .appended header => header.action = 1 ∧ header.transactionId ∈ announceIds tr
  | _ => True

/-- What the current transaction id belongs to. -/
inductive Phase where
  /-- To no request that was sent. -/
  | idle
  /-- To a connect request. -/
  | connecting
  /-- To an announce request. -/
  | announcing
deriving DecidableEq, Repr

/-- The phase after an event. -/
def Phase.next : Phase → UdpEvent → Phase
  | _, .drew _ => idle
  | _, .connectSent _ _ _ => connecting
  | _, .announceSent _ _ _ _ => announcing
  | phase, _ => phase

/-- The phase after a history. -/
def phaseOf (tr : List UdpEvent) : Phase := tr.foldl Phase.next .idle

/-- Two histories that differ in nothing that has to do with requests. -/
structure SameRequests (tr tr' : List UdpEvent) : Prop where
  /-- The same ids were drawn. -/
  drawn : drawnIds tr' = drawnIds tr
  /-- The same connect requests were sent. -/
  connect : connectIds tr' = connectIds tr
  /-- The same announce requests were sent. -/
  announce : announceIds tr' = announceIds tr
  /-- The same datagrams were answered. -/
  answered : answeredIds tr' = answeredIds tr
  /-- The phase is the same. -/
  phase : phaseOf tr' = phaseOf tr

/-! ### What the requests do to a history -/

namespace UdpTracker

section Histories

variable (env : UdpEnv) (u : UdpTracker) (ep : Endpoint) (transactionId : ℕ) (sent : Bool)
  (d : Datagram) (header : UdpHeader) (peers : List PeerInfo)

@[simp] lemma drawnIds_connect :
    drawnIds (u.connect ep transactionId sent).trace = drawnIds u.trace ++ [transactionId] := by
  cases sent <;> simp [connect, drawnIds, UdpEvent.drawnId]

@[simp] lemma connectIds_connect :
    connectIds (u.connect ep transactionId sent).trace =
      connectIds u.trace ++ if sent then [transactionId] else [] := by
  cases sent <;> simp [connect, connectIds, UdpEvent.connectId, List.filterMap_cons]

@[simp] lemma announceIds_connect :
    announceIds (u.connect ep transactionId sent).trace = announceIds u.trace := by
  cases sent <;> simp [connect, announceIds, UdpEvent.announceId, List.filterMap_cons]

@[simp] lemma answeredIds_connect :
    answeredIds (u.connect ep transactionId sent).trace = answeredIds u.trace := by
  cases sent <;> simp [connect, answeredIds, UdpEvent.answeredId, List.filterMap_cons]

@[simp] lemma phaseOf_connect :
    phaseOf (u.connect ep transactionId sent).trace = if sent then .connecting else .idle := by
  cases sent <;> simp [connect, phaseOf, Phase.next]

@[simp] lemma drawnIds_announceTo :
    drawnIds (u.announceTo env d).trace = drawnIds u.trace ++ [d.transactionId] := by
  cases hsent : d.sent <;> simp [announceTo, drawnIds, UdpEvent.drawnId, hsent]

@[simp] lemma connectIds_announceTo :
    connectIds (u.announceTo env d).trace = connectIds u.trace := by
  cases hsent : d.sent <;>
    simp [announceTo, connectIds, UdpEvent.connectId, List.filterMap_cons, hsent]

@[simp] lemma announceIds_announceTo :
    announceIds (u.announceTo env d).trace =
      announceIds u.trace ++ if d.sent then [d.transactionId] else [] := by
  cases hsent : d.sent <;>
    simp [announceTo, announceIds, UdpEvent.announceId, List.filterMap_cons, hsent]

@[simp] lemma answeredIds_announceTo :
    answeredIds (u.announceTo env d).trace =
      answeredIds u.trace ++ if d.sent then [(d.header env.oob).transactionId] else [] := by
  cases hsent : d.sent <;>
    simp [announceTo, answeredIds, UdpEvent.answeredId, List.filterMap_cons, hsent]

@[simp] lemma phaseOf_announceTo :
    phaseOf (u.announceTo env d).trace = if d.sent then .announcing else .idle := by
  cases hsent : d.sent <;> simp [announceTo, phaseOf, Phase.next, hsent]

/-- Looking up a host is no request. -/
lemma sameRequests_resolve (host : ByteString) : SameRequests u.trace (u.resolve host).trace := by
  constructor <;>
    simp [resolve, drawnIds, UdpEvent.drawnId, connectIds, UdpEvent.connectId, announceIds,
      UdpEvent.announceId, answeredIds, UdpEvent.answeredId, phaseOf, Phase.next]

/-- Taking over peers is no request. -/
lemma sameRequests_setPeers : SameRequests u.trace (u.setPeers header peers).trace := by
  unfold setPeers
  constructor <;> split_ifs <;>
    simp [drawnIds, UdpEvent.drawnId, connectIds, UdpEvent.connectId, announceIds,
      UdpEvent.announceId, answeredIds, UdpEvent.answeredId, phaseOf, Phase.next]

end Histories

/-! ### The phase is known -/

/-- The current transaction id says which request was the last one. -/
structure Phased (u : UdpTracker) : Prop where
  /-- It is that of a connect request that was sent, or not. -/
  connect_iff : u.currentTransactionId ∈ connectIds u.trace ↔ phaseOf u.trace = .connecting
  /-- It is that of an announce request that was sent, or not. -/
  announce_iff : u.currentTransactionId ∈ announceIds u.trace ↔ phaseOf u.trace = .announcing
  /-- No datagram with it was answered. -/
  not_answered : u.currentTransactionId ∉ answeredIds u.trace
  /-- The connect requests have ids that were drawn. -/
  connect_drawn : connectIds u.trace ⊆ drawnIds u.trace
  /-- So have the announce requests. -/
  announce_drawn : announceIds u.trace ⊆ drawnIds u.trace
  /-- So have the datagrams that were answered. -/
  answered_drawn : answeredIds u.trace ⊆ drawnIds u.trace
  /-- Datagrams are compared with an id that was drawn. -/
  current_drawn : u.polling = true → u.currentTransactionId ∈ drawnIds u.trace

/-- A datagram that is taken for an answer carries the action and the current transaction id. -/
lemma header_of_answers {env : UdpEnv} {u : UdpTracker} {action : ℕ} {d : Datagram}
    (h : u.answers env action d = true) :
    (d.header env.oob).action = action ∧
      (d.header env.oob).transactionId = u.currentTransactionId := by
  simp only [answers, Bool.and_eq_true, beq_iff_eq] at h
  exact ⟨h.2, h.1.2⟩

/-- Before its first request, the client has sent nothing. -/
lemma phased_initial (receivedPeers : List PeerInfo) (ep : Endpoint) :
    Phased (initial receivedPeers ep) := by
  constructor <;> simp [initial, connectIds, announceIds, answeredIds, drawnIds, phaseOf]

namespace Phased

variable {env : UdpEnv} {u : UdpTracker}

/-- A connect request with a new id starts the connect phase, or none if it could not be sent. -/
lemma connect (h : Phased u) {ep : Endpoint} {transactionId : ℕ} {sent : Bool}
    (hfresh : transactionId ∉ drawnIds u.trace) : Phased (u.connect ep transactionId sent) where
  connect_iff := by
    have hnew : transactionId ∉ connectIds u.trace := fun hmem => hfresh (h.connect_drawn hmem)
    rw [connectIds_connect, phaseOf_connect]
    cases sent <;> simp [UdpTracker.connect, hnew]
  announce_iff := by
    have hnew : transactionId ∉ announceIds u.trace := fun hmem => hfresh (h.announce_drawn hmem)
    rw [announceIds_connect, phaseOf_connect]
    cases sent <;> simp [UdpTracker.connect, hnew]
  not_answered := by
    rw [answeredIds_connect]
    exact fun hmem => hfresh (h.answered_drawn hmem)
  connect_drawn := by
    rw [connectIds_connect, drawnIds_connect]
    refine List.append_subset.mpr ⟨List.subset_append_of_subset_left _ h.connect_drawn,
      List.subset_append_of_subset_right _ ?_⟩
    cases sent <;> simp
  announce_drawn := by
    rw [announceIds_connect, drawnIds_connect]
    exact List.subset_append_of_subset_left _ h.announce_drawn
  answered_drawn := by
    rw [answeredIds_connect, drawnIds_connect]
    exact List.subset_append_of_subset_left _ h.answered_drawn
  current_drawn _ := by
    rw [drawnIds_connect]
    exact List.mem_append_right _ (List.mem_singleton_self _)

/-- The answer to a connect response with a new id starts the announce phase, or none if it could
not be sent. -/
lemma announceTo (h : Phased u) {d : Datagram} (hpolling : u.polling = true)
    (hanswers : u.answers env 0 d = true) (hfresh : d.transactionId ∉ drawnIds u.trace) :
    Phased (u.announceTo env d) where
  connect_iff := by
    have hnew : d.transactionId ∉ connectIds u.trace := fun hmem => hfresh (h.connect_drawn hmem)
    rw [connectIds_announceTo, phaseOf_announceTo]
    cases d.sent <;> simp [UdpTracker.announceTo, hnew]
  announce_iff := by
    have hnew : d.transactionId ∉ announceIds u.trace := fun hmem => hfresh (h.announce_drawn hmem)
    rw [announceIds_announceTo, phaseOf_announceTo]
    cases d.sent <;> simp [UdpTracker.announceTo, hnew]
  not_answered := by
    have hnew : d.transactionId ∉ answeredIds u.trace := fun hmem => hfresh (h.answered_drawn hmem)
    have hcurrent := (header_of_answers hanswers).2
    have hne : d.transactionId ≠ (d.header env.oob).transactionId := fun heq =>
      hfresh (heq ▸ hcurrent ▸ h.current_drawn hpolling)
    rw [answeredIds_announceTo]
    cases d.sent <;> simp [UdpTracker.announceTo, hnew, hne]
  connect_drawn := by
    rw [connectIds_announceTo, drawnIds_announceTo]
    exact List.subset_append_of_subset_left _ h.connect_drawn
  announce_drawn := by
    rw [announceIds_announceTo, drawnIds_announceTo]
    refine List.append_subset.mpr ⟨List.subset_append_of_subset_left _ h.announce_drawn,
      List.subset_append_of_subset_right _ ?_⟩
    cases d.sent <;> simp
  answered_drawn := by
    rw [answeredIds_announceTo, drawnIds_announceTo, (header_of_answers hanswers).2]
    refine List.append_subset.mpr
      ⟨List.subset_append_of_subset_left _ h.answered_drawn, List.subset_append_of_subset_left _ ?_⟩
    cases d.sent <;> simp [h.current_drawn hpolling]
  current_drawn _ := by
    rw [drawnIds_announceTo]
    exact List.mem_append_right _ (List.mem_singleton_self _)

/-- The phase depends only on the requests, on the id and on whether the client polls. -/
lemma of_sameRequests (h : Phased u) {v : UdpTracker} (hsame : SameRequests u.trace v.trace)
    (hcurrent : v.currentTransactionId = u.currentTransactionId)
    (hpolling : v.polling = u.polling) : Phased v where
  connect_iff := by
    rw [hcurrent, hsame.connect, hsame.phase]
    exact h.connect_iff
  announce_iff := by
    rw [hcurrent, hsame.announce, hsame.phase]
    exact h.announce_iff
  not_answered := by
    rw [hcurrent, hsame.answered]
    exact h.not_answered
  connect_drawn := by
    rw [hsame.connect, hsame.drawn]
    exact h.connect_drawn
  announce_drawn := by
    rw [hsame.announce, hsame.drawn]
    exact h.announce_drawn
  answered_drawn := by
    rw [hsame.answered, hsame.drawn]
    exact h.answered_drawn
  current_drawn := by
    rw [hcurrent, hpolling, hsame.drawn]
    exact h.current_drawn

end Phased

/-! ### One step -/

section Step

variable {env : UdpEnv} {u : UdpTracker}

variable (env) in
/-- The datagram does not have the action of the other phase: while the client polls, a connect
response is answered only in the connect phase, new peers arrive only in the announce phase. -/
def DatagramInPhase (u : UdpTracker) (d : Datagram) : Prop :=
  u.polling = true →
    (u.answers env 0 d = true → d.sent = true → phaseOf u.trace = .connecting) ∧
    (u.answers env 1 d = true →
      (∃ k ∈ compactKeys (d.bytes.drop 20), k ∉ keysOf u.receivedPeers) →
        phaseOf u.trace = .announcing)

/-- Connect requests are admissible at any time. -/
lemma each_connect {ep : Endpoint} {transactionId : ℕ} {sent : Bool} :
    Each PhaseOk (u.connect ep transactionId sent).trace ↔ Each PhaseOk u.trace := by
  refine each_append_of_forall fun tr _ e he => ?_
  cases sent <;> simp at he
  · rw [he]
    trivial
  · rcases he with rfl | rfl <;> trivial

/-- The answer to a connect response is admissible in the connect phase. -/
lemma each_announceTo (h : Phased u) {d : Datagram} (hanswers : u.answers env 0 d = true) :
    Each PhaseOk (u.announceTo env d).trace ↔
      Each PhaseOk u.trace ∧ (d.sent = true → phaseOf u.trace = .connecting) := by
  obtain ⟨haction, hid⟩ := header_of_answers hanswers
  have hdrew : Each PhaseOk (u.trace ++ [.drew d.transactionId]) ↔ Each PhaseOk u.trace := by
    rw [each_concat]
    exact and_iff_left trivial
  cases hsent : d.sent with
  | false => simpa [announceTo, hsent] using hdrew
  | true =>
    rw [announceTo, hsent, if_pos rfl, ← List.singleton_append, ← List.append_assoc, each_concat,
      hdrew]
    refine and_congr_right fun _ => ?_
    have hconnect : connectIds (u.trace ++ [.drew d.transactionId]) = connectIds u.trace := by
      simp [connectIds, UdpEvent.connectId]
    have hanswered : answeredIds (u.trace ++ [.drew d.transactionId]) = answeredIds u.trace := by
      simp [answeredIds, UdpEvent.answeredId]
    rw [PhaseOk, hconnect, hanswered, hid, h.connect_iff]
    simp [haction, h.not_answered]

/-- New peers are admissible in the announce phase. -/
lemma each_setPeers (h : Phased u) {d : Datagram} {peers : List PeerInfo}
    (hanswers : u.answers env 1 d = true)
    (hkeys : keysOf peers =
      (compactKeys (d.bytes.drop 20)).foldl addKey (keysOf u.receivedPeers)) :
    Each PhaseOk (u.setPeers (d.header env.oob) peers).trace ↔
      Each PhaseOk u.trace ∧
        ((∃ k ∈ compactKeys (d.bytes.drop 20), k ∉ keysOf u.receivedPeers) →
          phaseOf u.trace = .announcing) := by
  obtain ⟨haction, hid⟩ := header_of_answers hanswers
  have hgrow : u.receivedPeers.length < peers.length ↔
      ∃ k ∈ compactKeys (d.bytes.drop 20), k ∉ keysOf u.receivedPeers := by
    rw [← length_lt_foldl_addKey, ← hkeys, keysOf, keysOf, List.length_map, List.length_map]
  rw [← hgrow, setPeers]
  dsimp only
  split_ifs with hlt
  · rw [each_concat, PhaseOk, hid, h.announce_iff]
    simp [haction, hlt]
  · rw [List.append_nil]
    exact (and_iff_left fun hcon => absurd hcon hlt).symm

/-- Everything that a datagram can do to a client. -/
lemma step_datagram_cases (env : UdpEnv) (d : Datagram) (u : UdpTracker) {P : UdpTracker → Prop}
    (hidle : u.polling = false → P u)
    (hconnect : u.polling = true → u.answers env 0 d = true → P (u.announceTo env d))
    (hannounce : ∀ peers, u.polling = true → u.answers env 0 d = false →
      u.answers env 1 d = true →
      keysOf peers = (compactKeys (d.bytes.drop 20)).foldl addKey (keysOf u.receivedPeers) →
      P (u.setPeers (d.header env.oob) peers))
    (hother : u.polling = true → u.answers env 0 d = false → u.answers env 1 d = false → P u) :
    P (u.step env (.datagram d)) := by
  unfold step
  dsimp only
  cases hpolling : u.polling with
  | false => exact hidle hpolling
  | true =>
    obtain ⟨v, hread, hv⟩ := read_cases env d u (hconnect hpolling)
      (fun peers => hannounce peers hpolling) (hother hpolling)
    rw [if_pos rfl, hread]
    exact hv

/-- A step with a new id, if it draws one, leaves the phase known. -/
lemma phased_step {label : UdpLabel} (h : Phased u)
    (hfresh : (drawnIds (u.step env label).trace).Nodup) : Phased (u.step env label) := by
  cases label with
  | resolve host => exact h.of_sameRequests (sameRequests_resolve u host) rfl rfl
  | connect ep transactionId sent =>
    refine h.connect fun hmem => ?_
    rw [step, drawnIds_connect] at hfresh
    exact List.disjoint_of_nodup_append hfresh hmem (List.mem_singleton_self _)
  | datagram d =>
    revert hfresh
    refine step_datagram_cases env d u (P := fun v => (drawnIds v.trace).Nodup → Phased v)
      ?_ ?_ ?_ ?_
    · exact fun _ _ => h
    · intro hpolling hanswers hfresh
      refine h.announceTo hpolling hanswers fun hmem => ?_
      rw [drawnIds_announceTo] at hfresh
      exact List.disjoint_of_nodup_append hfresh hmem (List.mem_singleton_self _)
    · exact fun peers _ _ _ _ _ => h.of_sameRequests (sameRequests_setPeers u _ peers) rfl rfl
    · exact fun _ _ _ _ => h

/-- A step draws more ids. -/
lemma drawnIds_step (label : UdpLabel) :
    drawnIds u.trace <+: drawnIds (u.step env label).trace := by
  cases label with
  | resolve host => exact (sameRequests_resolve u host).drawn ▸ List.prefix_rfl
  | connect ep transactionId sent =>
    rw [step, drawnIds_connect]
    exact List.prefix_append _ _
  | datagram d =>
    refine step_datagram_cases env d u (P := fun v => drawnIds u.trace <+: drawnIds v.trace)
      ?_ ?_ ?_ ?_
    · exact fun _ => List.prefix_rfl
    · intro _ _
      rw [drawnIds_announceTo]
      exact List.prefix_append _ _
    · exact fun peers _ _ _ _ => (sameRequests_setPeers u _ peers).drawn ▸ List.prefix_rfl
    · exact fun _ _ _ => List.prefix_rfl

variable (env) in
/-- What keeps the phases apart in a step: a datagram has to fit, the rest is harmless. -/
def InPhase (u : UdpTracker) : UdpLabel → Prop
  | .datagram d => u.DatagramInPhase env d
  | _ => True

/-- Where the phase is known, a step keeps the phases apart exactly if the datagram fits. -/
lemma each_step (h : Phased u) (hp : Each PhaseOk u.trace) (label : UdpLabel) :
    Each PhaseOk (u.step env label).trace ↔ u.InPhase env label := by
  cases label with
  | resolve host =>
    refine iff_of_true ?_ trivial
    exact each_concat.mpr ⟨hp, trivial⟩
  | connect ep transactionId sent => exact iff_of_true (each_connect.mpr hp) trivial
  | datagram d =>
    refine step_datagram_cases env d u
      (P := fun v => Each PhaseOk v.trace ↔ u.DatagramInPhase env d) ?_ ?_ ?_ ?_
    · intro hpolling
      simp [DatagramInPhase, hpolling, hp]
    · intro hpolling hanswers
      rw [each_announceTo h hanswers]
      simp [DatagramInPhase, hpolling, hanswers, not_answers_one hanswers, hp]
    · intro peers hpolling h₀ h₁ hkeys
      rw [each_setPeers h h₁ hkeys]
      simp [DatagramInPhase, hpolling, h₀, h₁, hp]
    · intro hpolling h₀ h₁
      simp [DatagramInPhase, hpolling, h₀, h₁, hp]

instance (d : Datagram) : Decidable (u.DatagramInPhase env d) :=
  inferInstanceAs (Decidable (_ → _ ∧ _))

instance : ∀ label : UdpLabel, Decidable (u.InPhase env label)
  | .resolve _ => isTrue trivial
  | .connect _ _ _ => isTrue trivial
  | .datagram d => inferInstanceAs (Decidable (u.DatagramInPhase env d))

end Step

end UdpTracker

/-! ### Runs over all trackers -/

namespace TrackerClient

variable {env : TrackerEnv} {t : TrackerClient}

variable (env) in
/-- What keeps the phases apart in a step of the tracker client. -/
def InPhase (t : TrackerClient) : TrackerLabel → Prop
  | .udp label => t.udp.InPhase env.toUdpEnv label
  | _ => True

instance : ∀ label : TrackerLabel, Decidable (t.InPhase env label)
  | .get _ => isTrue trivial
  | .http _ => isTrue trivial
  | .udp label => inferInstanceAs (Decidable (t.udp.InPhase env.toUdpEnv label))

/-- An answer of an HTTP tracker changes nothing of the UDP client but the peers. -/
lemma udp_step_http (env : TrackerEnv) (t : TrackerClient) (resp : HttpResponse) :
    ∃ peers, (t.step env (.http resp)).udp = { t.udp with receivedPeers := peers } := by
  unfold step handle
  dsimp only
  split_ifs
  · cases parsePeers env resp.body t.udp.receivedPeers with
    | error e => exact ⟨t.udp.receivedPeers, rfl⟩
    | ok peers => exact ⟨peers, rfl⟩
  · exact ⟨t.udp.receivedPeers, rfl⟩

/-- A step with a new id, if it draws one, leaves the phase known. -/
lemma phased_step {label : TrackerLabel} (h : t.udp.Phased)
    (hfresh : (drawnIds (t.step env label).udp.trace).Nodup) : (t.step env label).udp.Phased := by
  cases label with
  | get url => exact h
  | http resp =>
    obtain ⟨peers, hudp⟩ := udp_step_http env t resp
    rw [hudp]
    exact h.of_sameRequests ⟨rfl, rfl, rfl, rfl, rfl⟩ rfl rfl
  | udp label => exact UdpTracker.phased_step h hfresh

/-- A step draws more ids. -/
lemma drawnIds_step (label : TrackerLabel) :
    drawnIds t.udp.trace <+: drawnIds (t.step env label).udp.trace := by
  cases label with
  | get url => exact List.prefix_rfl
  | http resp =>
    obtain ⟨peers, hudp⟩ := udp_step_http env t resp
    rw [hudp]
  | udp label => exact UdpTracker.drawnIds_step label

/-- Where the phase is known, a step keeps the phases apart exactly if the datagram fits. -/
lemma each_step (h : t.udp.Phased) (hp : Each PhaseOk t.udp.trace) (label : TrackerLabel) :
    Each PhaseOk (t.step env label).udp.trace ↔ t.InPhase env label := by
  cases label with
  | get url => exact iff_of_true hp trivial
  | http resp =>
    obtain ⟨peers, hudp⟩ := udp_step_http env t resp
    rw [hudp]
    exact iff_of_true hp trivial
  | udp label => exact UdpTracker.each_step h hp label

/-- The phases are kept apart in a run over any trackers, with whatever datagrams, exactly if no
datagram carries the current transaction id and the action of the other phase: a connect response
is answered only in the connect phase, and a new peer arrives only in the announce phase. -/
theorem phases_iff (env : TrackerEnv) (ep : Endpoint) (labels : List TrackerLabel)
    (hdrawn : (drawnIds (run (step env) (initial ep) labels).udp.trace).Nodup) :
    Along (step env) (fun t => Each PhaseOk t.udp.trace) (initial ep) labels ↔
      Meets (step env) (InPhase env) (initial ep) labels := by
  have hfresh : Along (step env) (fun t => (drawnIds t.udp.trace).Nodup) (initial ep) labels :=
    along_of_last (fun _ label h => h.sublist (drawnIds_step label).sublist) hdrawn
  refine along_iff_meets_of_meets (I := fun t => t.udp.Phased) ?_ ?_
    (along_iff_meets_step.mp hfresh).2 (UdpTracker.phased_initial [] ep) (each_nil PhaseOk)
  · exact fun _ label _ h hp => each_step h hp label
  · exact fun _ _ hnew h _ _ => phased_step h hnew

/-- A connect request, its answer, an announce request and its answer. -/
def sampleExchange : List TrackerLabel :=
  [.udp (.connect sampleEndpoint 7 true),
   .udp (.datagram ⟨toBE 4 0 ++ toBE 4 7 ++ toBE 8 5, 0, 9, true⟩),
   .udp (.datagram ⟨toBE 4 1 ++ toBE 4 9 ++ toBE 12 0 ++ [1, 2, 3, 4, 26, 225], 0, 0, true⟩)]

/-- The exchange with the tracker goes through the phases in their order. -/
theorem phases_iff_sample :
    (drawnIds (run (step sampleTrackerEnv) (initial sampleEndpoint)
      sampleExchange).udp.trace).Nodup ∧
    Along (step sampleTrackerEnv) (fun t => Each PhaseOk t.udp.trace) (initial sampleEndpoint)
      sampleExchange := by
  have hdrawn : (drawnIds (run (step sampleTrackerEnv) (initial sampleEndpoint)
      sampleExchange).udp.trace).Nodup := by
    decide +kernel
  refine ⟨hdrawn, (phases_iff sampleTrackerEnv sampleEndpoint sampleExchange hdrawn).mpr ?_⟩
  decide +kernel

/-- A connect request, and a datagram with its transaction id and the action of an announce
response. -/
def sampleConfusion : List TrackerLabel :=
  [.udp (.connect sampleEndpoint 7 true),
   .udp (.datagram ⟨toBE 4 1 ++ toBE 4 7 ++ toBE 12 0 ++ [1, 2, 3, 4, 26, 225], 0, 0, true⟩)]

/-- A peer is appended although no announce request was sent. -/
theorem peers_without_announce :
    (drawnIds (run (step sampleTrackerEnv) (initial sampleEndpoint)
      sampleConfusion).udp.trace).Nodup ∧
    ¬ Along (step sampleTrackerEnv) (fun t => Each PhaseOk t.udp.trace) (initial sampleEndpoint)
      sampleConfusion := by
  constructor
  · decide +kernel
  · intro halong
    have hlast : (run (step sampleTrackerEnv) (initial sampleEndpoint) sampleConfusion).udp.trace =
        [.drew 7, .connectSent sampleEndpoint 7 (MsgFactory.connect 7)] ++
          .appended ⟨1, 7⟩ :: [] := by
      decide +kernel
    have hok := halong.last _ _ _ hlast
    exact absurd hok.2 (by decide)

end TrackerClient

end Tent
