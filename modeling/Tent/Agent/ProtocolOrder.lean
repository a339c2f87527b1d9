import Tent.Session.World

/-!
# The order of the protocol

On every connection the agent sends its handshake first, declares its interest once, after its own
handshake and a valid one of the peer, requests blocks only after that, and its state machine does
not fall back behind the handshake.  `ProtocolOk` says when an event is admissible after the earlier
events of its connection.

`net_reactor::poll` reads before it writes, and the agent notices only in `write` that a
non-blocking connect completed.  A handshake of the peer that is parsed before that makes the agent
declare its interest first; the state machine goes from `HANDSHAKE_RECEIVED` back to `CONNECTED`
when the connect is noticed.  The order is kept along a run exactly when this does not happen
(`protocol_order_iff_timely`).
-/

set_option autoImplicit false

namespace Tent

open Bytes Transition

/-- A valid handshake of the peer was parsed: its bytes were chopped off the receive buffer, and
`HANDSHAKE` was raised for them. -/
def HandshakeParsed (oob : Oob) (events : List AgentEvent) : Prop :=
  ∃ before slice state after,
    events = before ++ .chopped slice :: .raised state .handshake :: after ∧
      validateHandshake oob slice = true

/-- When an event is admissible after the earlier events of its connection. -/
def ProtocolOk (oob : Oob) (before : List AgentEvent) : AgentEvent → Prop
  | .pushed .handshake _ => ∀ msg bytes, .pushed msg bytes ∉ before
  | .pushed .interested _ => (∃ bytes, .pushed .handshake bytes ∈ before) ∧
      HandshakeParsed oob before ∧ ∀ bytes, .pushed .interested bytes ∉ before
  | .pushed (.request _) _ => ∃ bytes, .pushed .interested bytes ∈ before
  | .raised state .connected =>
      state ≠ .handshakeReceived ∧ state ≠ .choked ∧ state ≠ .unchoked
  | _ => True

namespace Agent

/-- The events of the current connection are in the order of the protocol. -/
def InOrder (oob : Oob) (a : Agent) : Prop := Each (ProtocolOk oob) a.connection

/-- How far an agent with an open socket has come. -/
inductive Phase (a : Agent) : Prop where
  /-- The connect was not noticed yet and nothing was pushed. -/
  | connecting (hconnected : a.connected = false) (hstate : a.state = .started)
      (hpushed : ∀ msg bytes, .pushed msg bytes ∉ a.connection)
  /-- The handshake was pushed, and the peer's was not received. -/
  | connected (hconnected : a.connected = true) (hstate : a.state = .connected)
      (hhandshake : ∃ bytes, .pushed .handshake bytes ∈ a.connection)
      (hinterested : ∀ bytes, .pushed .interested bytes ∉ a.connection)
  /-- Both handshakes are there and the interest was declared. -/
  | handshaken (hconnected : a.connected = true)
      (hstate : a.state.isHandshakeReceived = true)
      (hinterested : ∃ bytes, .pushed .interested bytes ∈ a.connection)

/-- The invariant behind the order: what is open is in one of the phases. -/
structure Staged (a : Agent) : Prop where
  /-- Only an open socket is read from. -/
  reading_open : a.reading = true → a.fd.isSome = true
  /-- A connected agent has a socket. -/
  connected_open : a.SocketOpen
  /-- An open connection is in one of the phases. -/
  phase : a.fd.isSome = true → Phase a

/-- Events that push nothing leave the phase. -/
lemma Phase.of_quiet {a a' : Agent} (h : Phase a) (es : List AgentEvent)
    (hconn : a'.connection = a.connection ++ es) (hes : ∀ msg bytes, .pushed msg bytes ∉ es)
    (hconnected : a'.connected = a.connected) (hstate : a'.state = a.state) : Phase a' := by
  have hmem : ∀ msg bytes, .pushed msg bytes ∈ a'.connection ↔
      .pushed msg bytes ∈ a.connection := by
    intro msg bytes
    rw [hconn, List.mem_append]
    exact or_iff_left (hes msg bytes)
  cases h with
  | connecting hc hs hp =>
    exact .connecting (hconnected.trans hc) (hstate.trans hs) fun msg bytes hm =>
      hp msg bytes ((hmem msg bytes).mp hm)
  | connected hc hs hh hi =>
    obtain ⟨bytes, hh⟩ := hh
    exact .connected (hconnected.trans hc) (hstate.trans hs) ⟨bytes, (hmem _ _).mpr hh⟩
      fun bytes hm => hi bytes ((hmem _ _).mp hm)
  | handshaken hc hs hi =>
    obtain ⟨bytes, hi⟩ := hi
    exact .handshaken (hconnected.trans hc) (hstate ▸ hs) ⟨bytes, (hmem _ _).mpr hi⟩

end Agent

namespace Ctx

variable {Digest : Type*} {env : AgentEnv Digest}

variable (env) in
/-- The start of a connection is in order and leaves an agent in one of the first two phases. -/
lemma inOrder_start (c : Ctx) (fd : ℕ) (success : Bool) :
    (((c.openSocket fd).reg .readable).start env success).agent.InOrder env.oob ∧
      Agent.Phase (((c.openSocket fd).reg .readable).start env success).agent := by
  have hopen : (c.openSocket fd).agent.connection = [] := since_concat_mark _ _
  unfold start connect
  cases success with
  | false =>
    have hconn : (reg .writable (attempt false
        (((c.openSocket fd).reg .readable).raise .start .started))).agent.connection =
        [.raised c.agent.state .start] := by
      rw [Agent.connection_eq (a := (c.openSocket fd).agent)
        [.raised c.agent.state .start] rfl (by simp), hopen, List.nil_append]
    constructor
    · rw [if_neg (by simp), Agent.InOrder, hconn, ← List.nil_append [_], each_concat]
      exact ⟨each_nil _, trivial⟩
    · exact .connecting rfl rfl fun msg bytes hm => by
        rw [if_neg (by simp), hconn] at hm
        simp at hm
  | true =>
    set bytes := MsgFactory.handshake env.oob env.localPeerId env.infoHash with hbytes
    have hconn : (onConnected env (attempt true
        (((c.openSocket fd).reg .readable).raise .start .started))).agent.connection =
        [.raised c.agent.state .start] ++ [.raised .started .connected] ++
          [.pushed .handshake bytes] := by
      rw [Agent.connection_eq (a := (c.openSocket fd).agent)
        [.raised c.agent.state .start, .raised .started .connected,
          .pushed .handshake bytes] (by
            simp [onConnected, handshake, push, raise, reg, attempt, openSocket, hbytes])
        (by simp), hopen]
      rfl
    constructor
    · rw [if_pos rfl, Agent.InOrder, hconn, each_concat, each_concat, ← List.nil_append [_],
        each_concat]
      exact ⟨⟨⟨each_nil _, trivial⟩, by simp [ProtocolOk]⟩, by simp [ProtocolOk]⟩
    · refine .connected rfl rfl ⟨bytes, ?_⟩ fun b hm => ?_
      · rw [if_pos rfl, hconn]
        simp
      · rw [if_pos rfl, hconn] at hm
        simp at hm

variable (env) in
/-- Noticing that the connect completed is in order and leads to the second phase. -/
lemma inOrder_onConnected {c : Ctx} (horder : c.agent.InOrder env.oob)
    (hconn : c.agent.connected = true) (hstate : c.agent.state = .started)
    (hpushed : ∀ msg bytes, .pushed msg bytes ∉ c.agent.connection) :
    (c.onConnected env).agent.InOrder env.oob ∧ Agent.Phase (c.onConnected env).agent := by
  set bytes := MsgFactory.handshake env.oob env.localPeerId env.infoHash with hbytes
  have hconnection : (c.onConnected env).agent.connection =
      c.agent.connection ++ [.raised .started .connected] ++ [.pushed .handshake bytes] := by
    rw [Agent.connection_eq (a := c.agent)
      [.raised .started .connected, .pushed .handshake bytes]
      (by simp [onConnected, handshake, push, raise, reg, hstate, hbytes]) (by simp),
      List.append_assoc]
    rfl
  constructor
  · unfold Agent.InOrder
    rw [hconnection, each_concat, each_concat]
    refine ⟨⟨horder, by simp [ProtocolOk]⟩, fun msg b hm => ?_⟩
    rw [List.mem_append, List.mem_singleton] at hm
    rcases hm with hm | hm
    · exact hpushed msg b hm
    · exact absurd hm (by simp)
  · refine .connected hconn rfl ⟨bytes, ?_⟩ fun b hm => ?_
    · rw [hconnection]
      simp
    · rw [hconnection, List.mem_append, List.mem_append] at hm
      rcases hm with (hm | hm) | hm
      · exact hpushed _ b hm
      · simp at hm
      · simp at hm

variable (env) in
/-- A valid handshake of the peer is in order exactly when the connect was noticed before. -/
lemma inOrder_onHandshake_iff {c : Ctx} (horder : c.agent.InOrder env.oob) (hphase : c.agent.Phase)
    (hhs : c.agent.state.isHandshakeReceived = false)
    (hvalid : validateHandshake env.oob (c.slice env) = true) :
    ((c.chopHandshake env).onHandshake.agent.InOrder env.oob ↔ c.agent.connected = true) ∧
      (c.agent.connected = true →
        Agent.Phase (c.chopHandshake env).onHandshake.agent) := by
  have hconnection : (c.chopHandshake env).onHandshake.agent.connection =
      c.agent.connection ++ [.chopped (c.slice env)] ++ [.raised c.agent.state .handshake] ++
        [.pushed .interested MsgFactory.interested] := by
    rw [Agent.connection_eq (a := c.agent) [.chopped (c.slice env),
      .raised c.agent.state .handshake, .pushed .interested MsgFactory.interested]
      (by simp [onHandshake, interested, push, raise, reg, chopHandshake, chop]) (by simp)]
    simp
  have hmem : ∀ msg b, .pushed msg b ∈ c.agent.connection ++ [.chopped (c.slice env)] ++
      [.raised c.agent.state .handshake] ↔ .pushed msg b ∈ c.agent.connection := by
    simp
  have hfirst : Each (ProtocolOk env.oob) (c.agent.connection ++ [.chopped (c.slice env)] ++
      [.raised c.agent.state .handshake]) := by
    rw [each_concat, each_concat]
    exact ⟨⟨horder, trivial⟩, trivial⟩
  have hiff : (c.chopHandshake env).onHandshake.agent.InOrder env.oob ↔
      ProtocolOk env.oob (c.agent.connection ++ [.chopped (c.slice env)] ++
        [.raised c.agent.state .handshake])
        (.pushed .interested MsgFactory.interested) := by
    unfold Agent.InOrder
    rw [hconnection, each_concat]
    exact and_iff_right hfirst
  constructor
  · rw [hiff, ProtocolOk]
    cases hphase with
    | connecting hconn _ hpushed =>
      refine iff_of_false ?_ (by simp [hconn])
      rintro ⟨⟨b, hb⟩, -⟩
      exact hpushed _ b ((hmem _ b).mp hb)
    | connected hconn _ hhandshake hinterested =>
      obtain ⟨b, hb⟩ := hhandshake
      have hparsed : HandshakeParsed env.oob (c.agent.connection ++ [.chopped (c.slice env)] ++
          [.raised c.agent.state .handshake]) :=
        ⟨c.agent.connection, c.slice env, c.agent.state, [], by simp, hvalid⟩
      refine iff_of_true ⟨⟨b, (hmem _ b).mpr hb⟩, hparsed, fun b' hb' => ?_⟩ hconn
      exact hinterested b' ((hmem _ b').mp hb')
    | handshaken _ hstate _ => exact absurd (hhs.symm.trans hstate) (by simp)
  · intro hconn
    refine .handshaken hconn rfl ⟨MsgFactory.interested, ?_⟩
    rw [hconnection]
    simp

variable [DecidableEq Digest]

variable (env) in
/-- Handling a message of an agent behind its handshake is in order. -/
lemma inOrder_handleMsg {c : Ctx} (horder : c.agent.InOrder env.oob) (hphase : c.agent.Phase)
    (hhs : c.agent.state.isHandshakeReceived = true) (msg : Message) :
    ((c.chop env).handleMsg env msg).agent.InOrder env.oob ∧
      Agent.Phase ((c.chop env).handleMsg env msg).agent := by
  cases hphase with
  | connecting _ hstate _ => rw [hstate] at hhs; exact Bool.noConfusion hhs
  | connected _ hstate _ _ => rw [hstate] at hhs; exact Bool.noConfusion hhs
  | handshaken hconn _ hinterested =>
    obtain ⟨b, hb⟩ := hinterested
    obtain ⟨es, htrace, hes⟩ := handleMsg_events env msg (c.chop env)
    have hopened : .opened ∉ [.chopped (c.slice env), .handled msg] ++ es := by
      intro hmem
      rcases List.mem_append.mp hmem with hmem | hmem
      · simp at hmem
      · rcases hes _ hmem with ⟨st, h | h⟩ | ⟨req, h⟩
        · exact absurd h (by simp)
        · exact absurd h (by simp)
        · exact absurd h (by simp [pushedRequest])
    have hconnection : ((c.chop env).handleMsg env msg).agent.connection =
        c.agent.connection ++ ([.chopped (c.slice env), .handled msg] ++ es) := by
      refine Agent.connection_eq _ ?_ hopened
      rw [htrace]
      simp [chop]
    constructor
    · unfold Agent.InOrder
      rw [hconnection, each_append_of_forall]
      · exact horder
      · intro pre hpre e he
        rcases List.mem_append.mp he with he | he
        · rcases List.mem_pair.mp he with rfl | rfl
          · trivial
          · trivial
        · rcases hes e he with ⟨st, rfl | rfl⟩ | ⟨req, rfl⟩
          · trivial
          · trivial
          · exact ⟨b, hpre.subset hb⟩
    · refine .handshaken ?_ ?_ ⟨b, ?_⟩
      · rw [(handleMsg_keeps env msg (c.chop env)).2.1]
        exact hconn
      · exact handleMsg_state msg hhs
      · rw [hconnection]
        exact List.mem_append_left _ hb

variable (env) in
/-- No valid handshake of the peer is parsed before the agent noticed that it is connected. -/
def Timely (c : Ctx) : Label → Prop
  | .frame => c.agent.reading = true → c.frameReady env = true →
      c.agent.state.isHandshakeReceived = false →
      validateHandshake env.oob (c.slice env) = true → c.agent.connected = true
  | _ => True

/-- After a step the agent is in order exactly when the step was timely, and then it is staged. -/
def Exact (env : AgentEnv Digest) (c : Ctx) (l : Label) (c' : Ctx) : Prop :=
  (c'.agent.InOrder env.oob ↔ Timely env c l) ∧ (Timely env c l → c'.agent.Staged)

omit [DecidableEq Digest] in
/-- An event that pushes nothing and changes no flag. -/
lemma inOrder_of_quiet {c : Ctx} (horder : c.agent.InOrder env.oob) (c' : Ctx) (e : AgentEvent)
    (htrace : c'.agent.trace = c.agent.trace ++ [e]) (hopened : e ≠ .opened)
    (hpushed : ∀ msg b, e ≠ .pushed msg b) (hok : ProtocolOk env.oob c.agent.connection e) :
    c'.agent.InOrder env.oob ∧ (c'.agent.connected = c.agent.connected →
      c'.agent.state = c.agent.state → c.agent.Phase → c'.agent.Phase) := by
  have hconn := Agent.connection_eq _ htrace (by simpa using hopened.symm)
  constructor
  · unfold Agent.InOrder
    rw [hconn, each_concat]
    exact ⟨horder, hok⟩
  · intro hconnected hstate hphase
    refine hphase.of_quiet _ hconn (fun msg b hm => ?_) hconnected hstate
    exact hpushed msg b (List.mem_singleton.mp hm).symm

/-- Reading is always in order. -/
lemma exact_read {c : Ctx} (result : Option ByteString) (hstaged : c.agent.Staged)
    (horder : c.agent.InOrder env.oob) :
    Exact env c (.read result) (c.step env (.read result)) := by
  have hopen := socketOpen_step env (.read result) hstaged.connected_open
  revert hopen
  apply step_read_cases (P := fun c' => c'.agent.SocketOpen → Exact env c (.read result) c')
  · exact fun _ => ⟨iff_of_true horder trivial, fun _ => hstaged⟩
  · intro hreading _ _ hopen
    have hq := inOrder_of_quiet horder c.onDisconnected (.raised c.agent.state .disconnected) rfl
      (by simp) (by simp) trivial
    refine ⟨iff_of_true hq.1 trivial, fun _ => ⟨fun hr => ?_, hopen, fun hfd => ?_⟩⟩
    · exact absurd (hreading.symm.trans hr) (by simp)
    · exact Bool.noConfusion hfd
  · intro b bytes _ hfd _ hopen
    have hq := inOrder_of_quiet horder ((c.append (b :: bytes)).setReading true)
      (.received (b :: bytes)) rfl (by simp) (by simp) trivial
    exact ⟨iff_of_true hq.1 trivial, fun _ => ⟨fun _ => hfd, hopen, fun _ =>
      hq.2 rfl rfl (hstaged.phase hfd)⟩⟩

/-- A pass of the receive loop is in order unless it accepts a handshake too early. -/
lemma exact_frame {c : Ctx} (hstaged : c.agent.Staged) (horder : c.agent.InOrder env.oob) :
    Exact env c .frame (c.step env .frame) := by
  have hopen := socketOpen_step env .frame hstaged.connected_open
  revert hopen
  apply step_frame_cases (P := fun c' => c'.agent.SocketOpen → Exact env c .frame c')
  · intro hreading _
    refine ⟨iff_of_true horder fun hr => ?_, fun _ => hstaged⟩
    exact absurd (hreading.symm.trans hr) (by simp)
  · intro _ hready _
    refine ⟨iff_of_true horder fun _ hr => ?_, fun _ => ⟨fun hr => ?_, hstaged.connected_open,
      fun hfd => ?_⟩⟩
    · exact absurd (hready.symm.trans hr) (by simp)
    · exact Bool.noConfusion hr
    · exact (hstaged.phase hfd).of_quiet [] (List.append_nil _).symm (by simp) rfl rfl
  · intro hreading hready
    have hfd := hstaged.reading_open hreading
    have hphase := hstaged.phase hfd
    obtain ⟨hkeepFd, -, hkeepReading, -⟩ := frame_keeps env c
    have hkeepOpen : (c.frame env).agent.reading = true →
        (c.frame env).agent.fd.isSome = true := fun _ => by rw [hkeepFd]; exact hfd
    have hframe : ((c.frame env).agent.InOrder env.oob ↔ Timely env c .frame) ∧
        (Timely env c .frame → (c.frame env).agent.Phase) := by
      apply frame_cases (P := fun c' => (c'.agent.InOrder env.oob ↔ Timely env c .frame) ∧
        (Timely env c .frame → c'.agent.Phase))
      · intro _ hvalid
        have hq := inOrder_of_quiet horder (c.chopHandshake env) (.chopped (c.slice env)) rfl
          (by simp) (by simp) trivial
        refine ⟨iff_of_true hq.1 fun _ _ _ hv => ?_, fun _ => hq.2 rfl rfl hphase⟩
        exact absurd (hvalid.symm.trans hv) (by simp)
      · intro hhs hvalid
        obtain ⟨hiff, hnext⟩ := inOrder_onHandshake_iff env horder hphase hhs hvalid
        have htimely : Timely env c .frame ↔ c.agent.connected = true :=
          ⟨fun h => h hreading hready hhs hvalid, fun h _ _ _ _ => h⟩
        rw [hiff, htimely]
        exact ⟨Iff.rfl, hnext⟩
      · intro hhs
        obtain ⟨hord, hnext⟩ := inOrder_handleMsg env horder hphase hhs
          (.ofSlice env.oob (c.slice env))
        refine ⟨iff_of_true hord fun _ _ h => ?_, fun _ => hnext⟩
        exact absurd (hhs.symm.trans h) (by simp)
    exact fun hopen => ⟨hframe.1, fun ht => ⟨hkeepOpen, hopen, fun _ => hframe.2 ht⟩⟩

/-- Writing is always in order: the connect is noticed in the first phase only. -/
lemma exact_write {c : Ctx} (answer : WriteAnswer) (hstaged : c.agent.Staged)
    (horder : c.agent.InOrder env.oob) :
    Exact env c (.write answer) (c.step env (.write answer)) := by
  have hopen := socketOpen_step env (.write answer) hstaged.connected_open
  -- what the socket accepted is recorded, whether or not the queue is empty now
  have hsent : ∀ c' : Ctx, c'.agent.trace = c.agent.trace ++
      [.accepted (drain c.agent.sendQueue (answer.on c.agent.fd)).accepted] →
      c'.agent.connected = c.agent.connected → c'.agent.state = c.agent.state →
      c'.agent.reading = c.agent.reading → c'.agent.fd = c.agent.fd → c'.agent.SocketOpen →
      Exact env c (.write answer) c' := by
    intro c' htrace hconn hstate hreading hfd hopen
    have hq := inOrder_of_quiet horder c' _ htrace (by simp) (by simp) trivial
    refine ⟨iff_of_true hq.1 trivial, fun _ => ⟨?_, hopen, fun hfd' => ?_⟩⟩
    · rw [hreading, hfd]
      exact hstaged.reading_open
    · exact hq.2 hconn hstate (hstaged.phase (hfd ▸ hfd'))
  revert hopen
  apply step_write_cases (P := fun c' => c'.agent.SocketOpen → Exact env c (.write answer) c')
  · exact fun _ _ => ⟨iff_of_true horder trivial, fun _ => hstaged⟩
  · intro hreading hconn hfd hopen
    cases hstaged.phase hfd with
    | connecting _ hstate hpushed =>
      obtain ⟨hord, hphase⟩ := inOrder_onConnected env
        (c := c.setConnected.unregEvents .writable) horder rfl hstate hpushed
      refine ⟨iff_of_true hord trivial, fun _ => ⟨fun hr => ?_, hopen, fun _ => hphase⟩⟩
      exact absurd (hreading.symm.trans hr) (by simp)
    | connected hconn' => exact absurd (hconn.symm.trans hconn') (by simp)
    | handshaken hconn' => exact absurd (hconn.symm.trans hconn') (by simp)
  · intro hreading _ _ hopen
    refine ⟨iff_of_true horder trivial, fun _ => ⟨fun hr => ?_, hopen, fun hfd => ?_⟩⟩
    · exact absurd (hreading.symm.trans hr) (by simp)
    · exact Bool.noConfusion hfd
  · exact fun _ _ _ => hsent (c.sent answer) rfl rfl rfl rfl rfl
  · exact fun _ _ _ => hsent ((c.sent answer).unregEvents .writable) rfl rfl rfl rfl rfl

/-- A reconnect is in order: it opens a new connection. -/
lemma exact_timeout {c : Ctx} (fd : ℕ) (success : Bool) (hstaged : c.agent.Staged)
    (horder : c.agent.InOrder env.oob) :
    Exact env c (.timeout fd success) (c.step env (.timeout fd success)) := by
  have hopen := socketOpen_step env (.timeout fd success) hstaged.connected_open
  revert hopen
  apply step_timeout_cases
    (P := fun c' => c'.agent.SocketOpen → Exact env c (.timeout fd success) c')
  · exact fun _ => ⟨iff_of_true horder trivial, fun _ => hstaged⟩
  · intro hreading _ hopen
    obtain ⟨hord, hphase⟩ := inOrder_start env c.clearQueue.closeSocket fd success
    refine ⟨iff_of_true hord trivial, fun _ => ⟨fun hr => ?_, hopen, fun _ => hphase⟩⟩
    rw [onTimeout, (start_keeps env success _).2.2.1] at hr
    exact absurd (hreading.symm.trans hr) (by simp)

/-- A staged agent in order stays so under a step exactly when the step is timely, and a timely step
keeps it staged. -/
lemma inOrder_step_iff {c : Ctx} {l : Label} (hl : l ≠ .execute) (hstaged : c.agent.Staged)
    (horder : c.agent.InOrder env.oob) : Exact env c l (c.step env l) := by
  cases l with
  | execute => exact absurd rfl hl
  | read result => exact exact_read result hstaged horder
  | frame => exact exact_frame hstaged horder
  | write answer => exact exact_write answer hstaged horder
  | timeout fd success => exact exact_timeout fd success hstaged horder

end Ctx

namespace World

variable {Digest : Type*} {env : AgentEnv Digest} [DecidableEq Digest]

/-- In every run of a session over `read`, `write` and `on_timeout` steps, all agents keep the order
of the protocol on all their connections exactly when no valid handshake is parsed before the agent
noticed that it is connected. -/
theorem protocol_order_iff_timely (peers : List Peer) (labels : List (ℕ × Label))
    (hlabels : ∀ label ∈ labels, label.2 ≠ .execute) :
    Along (step env) (fun w => ∀ i, (w.agents i).InOrder env.oob) (create env peers) labels ↔
      Meets (step env) (fun w label => Ctx.Timely env (w.ctx label.1) label.2) (create env peers)
        labels := by
  refine along_iff_meets_agents (V := fun l => l ≠ .execute) (I := Agent.Staged)
    (fun c l hl hstaged horder => (Ctx.inOrder_step_iff hl hstaged horder).1)
    (fun c l hl hstaged horder htimely => (Ctx.inOrder_step_iff hl hstaged horder).2 htimely)
    hlabels (forall_agents_create ?_ ?_ peers) (forall_agents_create ?_ ?_ peers)
  · exact fun peerId => ⟨fun h => Bool.noConfusion h, fun h => Bool.noConfusion h,
      fun h => Bool.noConfusion h⟩
  · intro i peerId shared fd success
    refine ⟨fun hr => ?_, Ctx.socketOpen_create fd success _,
      fun _ => (Ctx.inOrder_start env _ fd success).2⟩
    rw [Ctx.create, (Ctx.start_keeps env success _).2.2.1] at hr
    exact Bool.noConfusion hr
  · exact fun peerId => each_nil _
  · exact fun i peerId shared fd success => (Ctx.inOrder_start env _ fd success).1

/-- The exactness statement for an agent whose connect succeeds at once and whose peer then sends
its handshake. -/
theorem protocol_order_sample :
    (∀ label ∈ [(0, Label.read (some (MsgFactory.handshake sampleAgentEnv.oob [] []))),
        (0, .frame)], label.2 ≠ .execute) ∧
      (Along (step sampleAgentEnv) (fun w => ∀ i, (w.agents i).InOrder sampleAgentEnv.oob)
          (create sampleAgentEnv [⟨[], 3, true⟩])
          [(0, .read (some (MsgFactory.handshake sampleAgentEnv.oob [] []))), (0, .frame)] ↔
        Meets (step sampleAgentEnv)
          (fun w label => Ctx.Timely sampleAgentEnv (w.ctx label.1) label.2)
          (create sampleAgentEnv [⟨[], 3, true⟩])
          [(0, .read (some (MsgFactory.handshake sampleAgentEnv.oob [] []))), (0, .frame)]) := by
  have hlabels : ∀ label ∈ [(0, Label.read (some (MsgFactory.handshake sampleAgentEnv.oob [] []))),
      (0, .frame)], label.2 ≠ .execute := by
    intro label hmem
    rcases List.mem_pair.mp hmem with rfl | rfl
    · simp
    · simp
  exact ⟨hlabels, protocol_order_iff_timely _ _ hlabels⟩

/-- A peer whose handshake is readable in the batch in which the connect completes: the agent
declares its interest before its own handshake, and then the state machine goes back to
`CONNECTED`. -/
theorem early_handshake_breaks_order :
    ¬ Along (step sampleAgentEnv) (fun w => ∀ i, (w.agents i).InOrder sampleAgentEnv.oob)
      (create sampleAgentEnv [⟨[], 3, false⟩])
      [(0, .read (some (MsgFactory.handshake sampleAgentEnv.oob [] []))), (0, .frame), (0, .frame),
        (0, .write ⟨some 0, 0, []⟩)] := by
  intro h
  set handshake := MsgFactory.handshake sampleAgentEnv.oob [] [] with hhandshake
  have hok := h.last 0 [.raised .idle .start, .received handshake, .chopped handshake,
    .raised .started .handshake] (.pushed .interested MsgFactory.interested)
    [.raised .handshakeReceived .connected, .pushed .handshake (MsgFactory.handshake
      sampleAgentEnv.oob sampleAgentEnv.localPeerId sampleAgentEnv.infoHash)] (by
      rw [hhandshake]
      decide +kernel)
  obtain ⟨⟨bytes, hbytes⟩, -⟩ := hok
  simp at hbytes

end World

end Tent
