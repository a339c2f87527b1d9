import Tent.Session.World

/-!
# Requests and choking

An agent may request blocks only while the peer has unchoked it on the current connection.  The
agent keeps the last word of the peer in `choked_`, which neither `disconnected` nor `on_timeout`
resets: after a reconnect it still holds the last word of the connection before.

While the peer has said nothing on the new connection the flag is stale, and a piece message (or a
call of `execute`) makes the agent request blocks.  So requests respect choking along a run exactly
when no such call finds anything to request (`requests_unchoked_iff_fresh`).
-/

set_option autoImplicit false

namespace Tent

open Bytes Transition

/-- On the connection with these events the peer sent an unchoke, and no choke after it. -/
def Unchoked (events : List AgentEvent) : Prop :=
  ∃ before msg after, events = before ++ .handled msg :: after ∧ msg.id = .unchoke ∧
    ∀ msg', .handled msg' ∈ after → msg'.id ≠ .choke

/-- A request is pushed only while the peer has unchoked the agent. -/
def ChokeOk (before : List AgentEvent) : AgentEvent → Prop
  | .pushed (.request _) _ => Unchoked before
  | _ => True

/-! ### The last word of the peer -/

/-- What an event says about choking, given what was said before. -/
def chokeWord (word : Option Bool) : AgentEvent → Option Bool
  | .handled msg =>
    if msg.id = .choke then some true else if msg.id = .unchoke then some false else word
  | _ => word

/-- The last word of the peer about choking: true for a choke, false for an unchoke. -/
def lastWord (events : List AgentEvent) : Option Bool := events.foldl chokeWord none

/-- The last word after one more event. -/
lemma lastWord_concat (events : List AgentEvent) (e : AgentEvent) :
    lastWord (events ++ [e]) = chokeWord (lastWord events) e := by
  simp [lastWord]

/-- Events that say nothing about choking leave the last word. -/
lemma lastWord_append {es : List AgentEvent} (hes : ∀ e ∈ es, ∀ word, chokeWord word e = word)
    (events : List AgentEvent) : lastWord (events ++ es) = lastWord events := by
  induction es using List.reverseRecOn with
  | nil => simp
  | append_singleton es e ih =>
    rw [← List.append_assoc, lastWord_concat, hes e (by simp),
      ih fun x hx => hes x (List.mem_append_left _ hx)]

/-- The peer has unchoked the agent exactly when that is its last word. -/
lemma unchoked_iff (events : List AgentEvent) :
    Unchoked events ↔ lastWord events = some false := by
  induction events using List.reverseRecOn with
  | nil => simp [Unchoked, lastWord]
  | append_singleton events e ih =>
    rw [lastWord_concat]
    -- the unchoke is the new event, or it is an old one and the new event is no choke
    have hsplit : Unchoked (events ++ [e]) ↔
        (∃ msg, e = .handled msg ∧ msg.id = .unchoke) ∨
          Unchoked events ∧ ∀ msg, e = .handled msg → msg.id ≠ .choke := by
      constructor
      · rintro ⟨before, msg, after, heq, hid, hafter⟩
        rcases List.eq_nil_or_concat after with rfl | ⟨after, y, rfl⟩
        · obtain ⟨-, he⟩ := List.append_inj' heq rfl
          exact .inl ⟨msg, List.singleton_inj.mp he, hid⟩
        · have heq' : events ++ [e] = (before ++ .handled msg :: after) ++ [y] := by simpa using heq
          obtain ⟨hevents, hy⟩ := List.append_inj' heq' rfl
          obtain rfl : e = y := List.singleton_inj.mp hy
          refine .inr ⟨⟨before, msg, after, hevents, hid, fun m hm => ?_⟩, fun m hm => ?_⟩
          · exact hafter m (by simp [hm])
          · exact hafter m (by simp [hm])
      · rintro (⟨msg, rfl, hid⟩ | ⟨⟨before, msg, after, rfl, hid, hafter⟩, he⟩)
        · exact ⟨events, msg, [], rfl, hid, by simp⟩
        · refine ⟨before, msg, after ++ [e], by simp, hid, fun m hm => ?_⟩
          rcases List.mem_append.mp hm with hm | hm
          · exact hafter m hm
          · exact he m (List.mem_singleton.mp hm).symm
    rw [hsplit, ih]
    cases e with
    | handled msg =>
      simp only [chokeWord, AgentEvent.handled.injEq, exists_eq_left', forall_eq']
      split_ifs with hchoke hunchoke
      · simp [hchoke]
      · simp [hunchoke]
      · simp [hchoke, hunchoke]
    | _ => simp [chokeWord]

/-- Pushing requests says nothing about choking. -/
lemma chokeWord_pushedRequest {reqs : List Request} {e : AgentEvent}
    (he : e ∈ reqs.map pushedRequest) (word : Option Bool) : chokeWord word e = word := by
  obtain ⟨req, -, rfl⟩ := List.mem_map.mp he
  rfl

/-- Requests may be pushed exactly when there are none or the peer's last word is an unchoke. -/
lemma each_chokeOk_requests_iff {events : List AgentEvent} (h : Each ChokeOk events)
    (reqs : List Request) :
    Each ChokeOk (events ++ reqs.map pushedRequest) ↔
      (reqs ≠ [] → lastWord events = some false) := by
  cases reqs with
  | nil => simp [h]
  | cons req reqs =>
    simp only [ne_eq, reduceCtorEq, not_false_eq_true, forall_const]
    constructor
    · intro heach
      have hok : ChokeOk events (pushedRequest req) :=
        heach events (pushedRequest req) (reqs.map pushedRequest) rfl
      exact (unchoked_iff events).mp hok
    · intro hword
      have hall : ∀ rs : List Request, Each ChokeOk (events ++ rs.map pushedRequest) := by
        intro rs
        induction rs using List.reverseRecOn with
        | nil => simpa using h
        | append_singleton rs r ih =>
          rw [List.map_append, ← List.append_assoc, List.map_singleton, each_concat]
          refine ⟨ih, (unchoked_iff _).mpr ?_⟩
          rw [lastWord_append fun e he => chokeWord_pushedRequest he, hword]
      exact hall (req :: reqs)

namespace Agent

/-- The requests of the current connection respect choking. -/
def RespectsChoking (a : Agent) : Prop := Each ChokeOk a.connection

/-- Once the peer has spoken on the connection, the flag is its last word. -/
def FlagCurrent (a : Agent) : Prop := ∀ word, lastWord a.connection = some word → a.choked = word

end Agent

namespace Ctx

variable {Digest : Type*} {env : AgentEnv Digest}

/-- An unchoked agent requests nothing exactly when the handler has nothing for its peer. -/
lemma burst_eq_nil_iff {c : Ctx} (hchoked : c.agent.choked = false) :
    c.burst env = [] ↔
      (c.shared.handler.getPieceRequest env.toEnv c.agent.peerId).2 = none := by
  unfold burst
  rw [hchoked, if_neg (by simp)]
  change (requestLoop env.toEnv c.agent.peerId (14 + 1) c.shared.handler).2 = [] ↔ _
  rw [requestLoop]
  cases (c.shared.handler.getPieceRequest env.toEnv c.agent.peerId).2 <;> simp

variable (env) in
/-- Requests of an agent whose flag is current respect choking exactly when the flag is not stale or
there is nothing to request. -/
lemma respectsChoking_requestPieces_iff {c : Ctx} (hflag : c.agent.FlagCurrent)
    (hc : c.agent.RespectsChoking) :
    ((c.requestPieces env).agent.RespectsChoking ↔
      (c.agent.choked = false → lastWord c.agent.connection = none →
        (c.shared.handler.getPieceRequest env.toEnv c.agent.peerId).2 = none)) ∧
      (c.requestPieces env).agent.FlagCurrent := by
  have hconn : (c.requestPieces env).agent.connection =
      c.agent.connection ++ (c.burst env).map pushedRequest :=
    Agent.connection_eq _ (requestPieces_trace env c) (by simp [pushedRequest])
  constructor
  · unfold Agent.RespectsChoking
    rw [hconn, each_chokeOk_requests_iff hc]
    constructor
    · intro h hchoked hnone
      rw [← burst_eq_nil_iff hchoked]
      by_contra hne
      have hword := h hne
      rw [hnone] at hword
      exact absurd hword (by simp)
    · intro h hne
      have hchoked : c.agent.choked = false := by
        by_contra hcon
        rw [Bool.not_eq_false] at hcon
        exact hne (by rw [burst, hcon, if_pos rfl])
      cases hword : lastWord c.agent.connection with
      | none => exact absurd ((burst_eq_nil_iff hchoked).mpr (h hchoked hword)) hne
      | some word => rw [← hflag word hword, hchoked]
  · intro word hword
    rw [hconn, lastWord_append fun e he => chokeWord_pushedRequest he] at hword
    rw [requestPieces_choked]
    exact hflag word hword

/-- An event that pushes no request and says nothing about choking. -/
lemma respectsChoking_of_quiet {c : Ctx} (c' : Ctx) (es : List AgentEvent)
    (htrace : c'.agent.trace = c.agent.trace ++ es)
    (hes : ∀ e ∈ es, e ≠ .opened ∧ (∀ before, ChokeOk before e) ∧
      ∀ word, chokeWord word e = word)
    (hchoked : c'.agent.choked = c.agent.choked) :
    (c.agent.RespectsChoking → c'.agent.RespectsChoking) ∧
      (c.agent.FlagCurrent → c'.agent.FlagCurrent) ∧
      lastWord c'.agent.connection = lastWord c.agent.connection := by
  have hconn := Agent.connection_eq _ htrace fun hmem => (hes _ hmem).1 rfl
  have hword : lastWord c'.agent.connection = lastWord c.agent.connection := by
    rw [hconn, lastWord_append fun e he => (hes e he).2.2]
  refine ⟨fun h => ?_, fun h word hw => ?_, hword⟩
  · unfold Agent.RespectsChoking
    rw [hconn, each_append_of_forall fun before _ e he => (hes e he).2.1 _]
    exact h
  · rw [hchoked]
    exact h word (hword ▸ hw)

variable (env) in
/-- A new connection starts with no request and no word of the peer. -/
lemma respectsChoking_start (c : Ctx) (fd : ℕ) (success : Bool) :
    (((c.openSocket fd).reg .readable).start env success).agent.RespectsChoking ∧
      (((c.openSocket fd).reg .readable).start env success).agent.FlagCurrent := by
  have hopen : (c.openSocket fd).agent.connection = [] := since_concat_mark _ _
  have hrespects : (c.openSocket fd).agent.RespectsChoking := by
    unfold Agent.RespectsChoking
    rw [hopen]
    exact each_nil _
  have hcurrent : (c.openSocket fd).agent.FlagCurrent := by
    intro word hword
    rw [hopen] at hword
    exact absurd hword (by simp [lastWord])
  have hchoked := (start_keeps env success ((c.openSocket fd).reg .readable)).2.2.2.2.1
  have hquiet : ∃ es, (((c.openSocket fd).reg .readable).start env success).agent.trace =
      (c.openSocket fd).agent.trace ++ es ∧ ∀ e ∈ es, e ≠ .opened ∧
        (∀ before, ChokeOk before e) ∧ ∀ word, chokeWord word e = word := by
    unfold start connect
    split_ifs
    · refine ⟨[.raised c.agent.state .start, .raised .started .connected, .pushed .handshake
        (MsgFactory.handshake env.oob env.localPeerId env.infoHash)], ?_, ?_⟩
      · simp [onConnected, handshake, push, raise, reg, attempt, openSocket]
      · simp [ChokeOk, chokeWord]
    · exact ⟨[.raised c.agent.state .start], rfl, by simp [ChokeOk, chokeWord]⟩
  obtain ⟨es, htrace, hes⟩ := hquiet
  obtain ⟨h₁, h₂, -⟩ := respectsChoking_of_quiet _ _ htrace hes hchoked
  exact ⟨h₁ hrespects, h₂ hcurrent⟩

variable [DecidableEq Digest]

variable (env) in
/-- The flag is not stale when the agent asks the handler for requests, or the handler has none: a
piece message and a call of `execute` find `choked_` false and no word of the peer on this
connection only when there is nothing to request. -/
def Fresh (c : Ctx) : Label → Prop
  | .frame => c.agent.reading = true → c.frameReady env = true →
      c.agent.state.isHandshakeReceived = true →
      (Message.ofSlice env.oob (c.slice env)).id = .piece →
      c.agent.choked = false → lastWord c.agent.connection = none →
      ((c.shared.handler.received env.toEnv
        (Message.ofSlice env.oob (c.slice env)).payload).getPieceRequest env.toEnv
          c.agent.peerId).2 = none
  | .execute => c.agent.reading = false → c.agent.connected = true →
      c.agent.choked = false → lastWord c.agent.connection = none →
      (c.shared.handler.getPieceRequest env.toEnv c.agent.peerId).2 = none
  | _ => True

variable (env) in
/-- Handling a message keeps requests and choking in line exactly when it is no piece message that
finds a stale flag and something to request. -/
lemma respectsChoking_handleMsg_iff {c : Ctx} (hflag : c.agent.FlagCurrent)
    (hc : c.agent.RespectsChoking) (msg : Message) :
    ((c.handleMsg env msg).agent.RespectsChoking ↔
      (msg.id = .piece → c.agent.choked = false → lastWord c.agent.connection = none →
        ((c.shared.handler.received env.toEnv msg.payload).getPieceRequest env.toEnv
          c.agent.peerId).2 = none)) ∧
      (c.handleMsg env msg).agent.FlagCurrent := by
  have hlogConn : (c.logMsg msg).agent.connection = c.agent.connection ++ [.handled msg] :=
    Agent.connection_eq _ rfl (by simp)
  have hlog : (c.logMsg msg).agent.RespectsChoking := by
    unfold Agent.RespectsChoking
    rw [hlogConn, each_concat]
    exact ⟨hc, trivial⟩
  have hlogWord : lastWord (c.logMsg msg).agent.connection =
      chokeWord (lastWord c.agent.connection) (.handled msg) := by
    rw [hlogConn, lastWord_concat]
  -- the state machine records a change of state, which says nothing about choking
  have hraised : ∀ {ev : SessionEvent} {state : SessionState} {choked : Bool},
      (((c.logMsg msg).raise ev state).setChoked choked).agent.connection =
        (c.logMsg msg).agent.connection ++ [.raised c.agent.state ev] :=
    Agent.connection_eq _ rfl (by simp)
  have hset : ∀ (ev : SessionEvent) (state : SessionState) {choked : Bool},
      lastWord (c.logMsg msg).agent.connection = some choked →
      (((c.logMsg msg).raise ev state).setChoked choked).agent.RespectsChoking ∧
        (((c.logMsg msg).raise ev state).setChoked choked).agent.FlagCurrent := by
    intro ev state choked hword
    constructor
    · unfold Agent.RespectsChoking
      rw [hraised, each_concat]
      exact ⟨hlog, trivial⟩
    · intro word hw
      rw [hraised, lastWord_concat] at hw
      exact Option.some.inj (hword.symm.trans hw)
  have hsame : msg.id ≠ .choke → msg.id ≠ .unchoke →
      lastWord (c.logMsg msg).agent.connection = lastWord c.agent.connection := by
    intro h₁ h₂
    rw [hlogWord, chokeWord, if_neg h₁, if_neg h₂]
  have hcurrent : msg.id ≠ .choke → msg.id ≠ .unchoke → (c.logMsg msg).agent.FlagCurrent :=
    fun h₁ h₂ word hw => hflag word ((hsame h₁ h₂).symm.trans hw)
  apply handleMsg_cases (P := fun c' => (c'.agent.RespectsChoking ↔ _) ∧ c'.agent.FlagCurrent)
  · intro hid
    have hword : lastWord (c.logMsg msg).agent.connection = some true := by
      rw [hlogWord, chokeWord, if_pos hid]
    obtain ⟨hrespects, hcur⟩ := hset .choke .choked hword
    exact ⟨iff_of_true hrespects (by simp [hid]), hcur⟩
  · intro hid
    have hword : lastWord (c.logMsg msg).agent.connection = some false := by
      rw [hlogWord, chokeWord, if_neg (by simp [hid]), if_pos hid]
    obtain ⟨hrespects, hcur⟩ := hset .unchoke .unchoked hword
    obtain ⟨hiff, hcur'⟩ := respectsChoking_requestPieces_iff env hcur hrespects
    refine ⟨iff_of_true (hiff.mpr fun _ hnone => ?_) (by simp [hid]), hcur'⟩
    rw [hraised, lastWord_concat] at hnone
    exact absurd (hword.symm.trans hnone) (by simp)
  · intro hid
    exact ⟨iff_of_true hlog (by simp [hid]), hcurrent (by simp [hid]) (by simp [hid])⟩
  · intro hid
    have hcur := hcurrent (by simp [hid]) (by simp [hid])
    obtain ⟨hiff, hcur'⟩ := respectsChoking_requestPieces_iff env
      (c := (c.logMsg msg).received env msg.payload) hcur hlog
    refine ⟨hiff.trans ?_, hcur'⟩
    have hword : lastWord ((c.logMsg msg).received env msg.payload).agent.connection =
        lastWord c.agent.connection := hsame (by simp [hid]) (by simp [hid])
    rw [hword]
    exact ⟨fun h _ => h, fun h => h hid⟩
  · intro h₁ h₂ _ h₄
    exact ⟨iff_of_true hlog fun h => absurd h h₄, hcurrent h₁ h₂⟩

/-- What a step does to requests and choking. -/
lemma respectsChoking_step_iff {c : Ctx} (l : Label) (hflag : c.agent.FlagCurrent)
    (hc : c.agent.RespectsChoking) :
    ((c.step env l).agent.RespectsChoking ↔ Fresh env c l) ∧
      (c.step env l).agent.FlagCurrent := by
  have hquiet : ∀ (c' : Ctx) (e : AgentEvent), c'.agent.trace = c.agent.trace ++ [e] →
      e ≠ .opened → (∀ before, ChokeOk before e) → (∀ word, chokeWord word e = word) →
      c'.agent.choked = c.agent.choked → c'.agent.RespectsChoking ∧ c'.agent.FlagCurrent ∧
        lastWord c'.agent.connection = lastWord c.agent.connection := by
    intro c' e htrace hopened hok hword hchoked
    obtain ⟨h₁, h₂, h₃⟩ := respectsChoking_of_quiet (c := c) c' [e] htrace
      (by simpa using ⟨hopened, hok, hword⟩) hchoked
    exact ⟨h₁ hc, h₂ hflag, h₃⟩
  cases l with
  | read result =>
    apply step_read_cases (P := fun c' => (c'.agent.RespectsChoking ↔ Fresh env c (.read result)) ∧
      c'.agent.FlagCurrent)
    · exact ⟨iff_of_true hc trivial, hflag⟩
    · intro _ _ _
      obtain ⟨h₁, h₂, -⟩ := hquiet c.onDisconnected (.raised c.agent.state .disconnected)
        rfl (by simp) (fun _ => trivial) (fun _ => rfl) rfl
      exact ⟨iff_of_true h₁ trivial, h₂⟩
    · intro b bytes _ _ _
      obtain ⟨h₁, h₂, -⟩ := hquiet ((c.append (b :: bytes)).setReading true)
        (.received (b :: bytes)) rfl (by simp) (fun _ => trivial) (fun _ => rfl) rfl
      exact ⟨iff_of_true h₁ trivial, h₂⟩
  | frame =>
    apply step_frame_cases (P := fun c' => (c'.agent.RespectsChoking ↔ Fresh env c .frame) ∧
      c'.agent.FlagCurrent)
    · intro hreading
      exact ⟨iff_of_true hc fun hr => absurd (hreading.symm.trans hr) (by simp), hflag⟩
    · intro _ hready
      exact ⟨iff_of_true hc fun _ hr => absurd (hready.symm.trans hr) (by simp), hflag⟩
    · intro hreading hready
      obtain ⟨hchop, hchopFlag, hchopWord⟩ := hquiet (c.chop env)
        (.chopped (c.slice env)) rfl (by simp) (fun _ => trivial) (fun _ => rfl) rfl
      apply frame_cases (P := fun c' => (c'.agent.RespectsChoking ↔ Fresh env c .frame) ∧
        c'.agent.FlagCurrent)
      · intro hhs _
        exact ⟨iff_of_true hchop fun _ _ h => absurd (hhs.symm.trans h) (by simp), hchopFlag⟩
      · intro hhs _
        obtain ⟨h₁, h₂, -⟩ := respectsChoking_of_quiet (c := c.chopHandshake env)
          (c.chopHandshake env).onHandshake [.raised c.agent.state .handshake,
            .pushed .interested MsgFactory.interested]
          (by simp [onHandshake, interested, push, raise, reg, chopHandshake, chop])
          (by simp [ChokeOk, chokeWord]) rfl
        exact ⟨iff_of_true (h₁ hchop) fun _ _ h => absurd (hhs.symm.trans h) (by simp),
          h₂ hchopFlag⟩
      · intro hhs
        obtain ⟨hiff, hcur⟩ := respectsChoking_handleMsg_iff env hchopFlag hchop
          (.ofSlice env.oob (c.slice env))
        refine ⟨hiff.trans ?_, hcur⟩
        rw [hchopWord]
        exact ⟨fun h _ _ _ => h, fun h => h hreading hready hhs⟩
  | write answer =>
    apply step_write_cases (P := fun c' =>
      (c'.agent.RespectsChoking ↔ Fresh env c (.write answer)) ∧ c'.agent.FlagCurrent)
    · exact fun _ => ⟨iff_of_true hc trivial, hflag⟩
    · intro _ _ _
      obtain ⟨h₁, h₂, -⟩ := respectsChoking_of_quiet (c := c)
        ((c.setConnected.unregEvents .writable).onConnected env)
        [.raised c.agent.state .connected, .pushed .handshake
          (MsgFactory.handshake env.oob env.localPeerId env.infoHash)]
        (by simp [onConnected, handshake, push, raise, reg, unregEvents, setConnected])
        (by simp [ChokeOk, chokeWord]) rfl
      exact ⟨iff_of_true (h₁ hc) trivial, h₂ hflag⟩
    · exact fun _ _ _ => ⟨iff_of_true hc trivial, hflag⟩
    · intro _ _ _
      obtain ⟨h₁, h₂, -⟩ := hquiet (c.sent answer)
        (.accepted (drain c.agent.sendQueue (answer.on c.agent.fd)).accepted) rfl (by simp)
        (fun _ => trivial) (fun _ => rfl) rfl
      exact ⟨iff_of_true h₁ trivial, h₂⟩
    · intro _ _ _
      obtain ⟨h₁, h₂, -⟩ := hquiet ((c.sent answer).unregEvents .writable)
        (.accepted (drain c.agent.sendQueue (answer.on c.agent.fd)).accepted) rfl (by simp)
        (fun _ => trivial) (fun _ => rfl) rfl
      exact ⟨iff_of_true h₁ trivial, h₂⟩
  | timeout fd success =>
    apply step_timeout_cases (P := fun c' =>
      (c'.agent.RespectsChoking ↔ Fresh env c (.timeout fd success)) ∧ c'.agent.FlagCurrent)
    · exact ⟨iff_of_true hc trivial, hflag⟩
    · intro _ _
      obtain ⟨h₁, h₂⟩ := respectsChoking_start env c.clearQueue.closeSocket fd success
      exact ⟨iff_of_true h₁ trivial, h₂⟩
  | execute =>
    apply step_execute_cases (P := fun c' => (c'.agent.RespectsChoking ↔ Fresh env c .execute) ∧
      c'.agent.FlagCurrent)
    · intro hstay
      refine ⟨iff_of_true hc fun hr hcn hch => ?_, hflag⟩
      rcases hstay with h | h | h
      · exact absurd (h.symm.trans hr) (by simp)
      · exact absurd (h.symm.trans hcn) (by simp)
      · exact absurd (h.symm.trans hch) (by simp)
    · intro hr hcn hch
      obtain ⟨hiff, hcur⟩ := respectsChoking_requestPieces_iff env hflag hc
      refine ⟨hiff.trans ?_, hcur⟩
      exact ⟨fun h _ _ => h, fun h => h hr hcn⟩

end Ctx

namespace World

variable {Digest : Type*} {env : AgentEnv Digest} [DecidableEq Digest]

/-- In every run of a session, all requests of all agents respect choking exactly when no piece
message and no call of `execute` finds a stale flag together with something to request. -/
theorem requests_unchoked_iff_fresh (peers : List Peer) (labels : List (ℕ × Label)) :
    Along (step env) (fun w => ∀ i, (w.agents i).RespectsChoking) (create env peers) labels ↔
      Meets (step env) (fun w label => Ctx.Fresh env (w.ctx label.1) label.2) (create env peers)
        labels := by
  refine along_iff_meets_agents (V := fun _ => True) (I := Agent.FlagCurrent)
    (fun c l _ hflag hc => (Ctx.respectsChoking_step_iff l hflag hc).1)
    (fun c l _ hflag hc _ => (Ctx.respectsChoking_step_iff l hflag hc).2) (fun _ _ => trivial)
    (forall_agents_create ?_ ?_ peers) (forall_agents_create ?_ ?_ peers)
  · exact fun _ _ hword => absurd hword (by simp [Agent.connection, Agent.idle, lastWord])
  · exact fun _ _ _ fd success => (Ctx.respectsChoking_start env _ fd success).2
  · exact fun _ => each_nil _
  · exact fun _ _ _ fd success => (Ctx.respectsChoking_start env _ fd success).1

/-- A run over two connections: on the first one the peer announces its piece and unchokes the
agent; on the second one it sends its handshake and a piece message that was not asked for. -/
def staleFlagRun : List (ℕ × Label) :=
  [(0, .read (some (MsgFactory.handshake sampleAgentEnv.oob [] []))), (0, .frame), (0, .frame),
    (0, .read (some (frameBytes .bitfield [128] ++ MsgFactory.unchoke))),
    (0, .frame), (0, .frame), (0, .frame), (0, .read (some [])), (0, .timeout 4 true),
    (0, .read (some (MsgFactory.handshake sampleAgentEnv.oob [] []))), (0, .frame), (0, .frame),
    (0, .read (some (MsgFactory.piece 0 1 []))), (0, .frame)]

/-- After a reconnect the agent requests blocks on a connection on which the peer never unchoked
it. -/
theorem stale_flag_requests_choked :
    ¬ Along (step sampleAgentEnv) (fun w => ∀ i, (w.agents i).RespectsChoking)
      (create sampleAgentEnv [⟨[], 3, true⟩]) staleFlagRun := by
  intro h
  set events := ((run (step sampleAgentEnv) (create sampleAgentEnv [⟨[], 3, true⟩])
    staleFlagRun).agents 0).connection with hevents
  have hsplit : events = events.take 10 ++ pushedRequest ⟨0, 0, 1⟩ :: events.drop 11 := by
    rw [hevents]
    decide +kernel
  have hword := (unchoked_iff _).mp (h.last 0 _ _ _ hsplit)
  rw [hevents] at hword
  revert hword
  decide +kernel

end World

end Tent
