import Tent.Agent.Receive
import Tent.Tracker.Peers
import Tent.Wire.Bounds

/-!
# What the network decoders look at

Peers and trackers choose the lengths of what they send.  Two decoders take it apart: the receive
loop of an agent, whose passes have the footprints of `Tent.Wire.Bounds`, and
`udp_tracker_client::read`, which takes the words of a datagram without looking at its length.

`decoders_inside_iff` says when all of their reads stay inside the bytes that were received.  For
the loop, which is handed a stream in chunks, the bytes received up to the end of each chunk have to
be well framed.
-/

set_option autoImplicit false

namespace Tent

open Bytes Transition

/-! ### The receive loop -/

namespace Ctx

variable {Digest : Type*} (env : AgentEnv Digest)

/-- The block of a piece message was received before. -/
def known (c : Ctx) : Bool :=
  (c.shared.handler.receivedPieces
    (PieceHandler.keyOf env.oob (Message.ofSlice env.oob (c.slice env)).payload)).received

/-- The reads of a pass of the loop of `on_read`. -/
def reads (c : Ctx) : List Read :=
  getMsgLenReads c.agent.msgBuffer c.agent.state.isHandshakeReceived ++
    if c.frameReady env then
      chopReads c.agent.msgBuffer (c.msgLen env) ++
        frameReads env.oob c.agent.state.isHandshakeReceived (c.known env) (c.slice env)
    else []

/-- A pass stays inside exactly if the frame at the front is good. -/
lemma reads_inside_iff (c : Ctx) :
    (∀ r ∈ c.reads env, r.Inside) ↔ c.framer.Good env.oob :=
  Framer.reads_inside_iff env.oob (c.known env) c.framer

variable [DecidableEq Digest]

/-- All reads stay inside while the chunks are given to `on_read` one after the other. -/
def ReadsInside : Ctx → List ByteString → Prop
  | _, [] => True
  | c, bytes :: chunks =>
    (∀ n, ∀ r ∈ ((pass (frameReady env) (frame env))^[n] (c.append bytes)).reads env, r.Inside) ∧
      ∀ c', c.onRead env bytes = some c' → ReadsInside c' chunks

/-- The reads of a call of `on_read` stay inside exactly if the bytes are well framed. -/
lemma onRead_inside_iff (bytes : ByteString) (c : Ctx) :
    (∀ n, ∀ r ∈ ((pass (frameReady env) (frame env))^[n] (c.append bytes)).reads env,
        r.Inside) ↔
      WellFramed env.oob c.agent.state.isHandshakeReceived (c.agent.msgBuffer ++ bytes) := by
  refine Iff.trans ?_ (Framer.allGood_iff_wellFramed (c.framer.append bytes))
  refine forall_congr' fun n => ?_
  rw [reads_inside_iff, framer_iterate]

/-- Bytes that arrive after a call of `on_read` are well framed together with what it left exactly
if they are together with all that was received. -/
lemma wellFramed_after {bytes : ByteString} {c c' : Ctx}
    (hhere : WellFramed env.oob c.agent.state.isHandshakeReceived (c.agent.msgBuffer ++ bytes))
    (hread : c.onRead env bytes = some c') (more : ByteString) :
    WellFramed env.oob c'.agent.state.isHandshakeReceived (c'.agent.msgBuffer ++ more) ↔
      WellFramed env.oob c.agent.state.isHandshakeReceived
        (c.agent.msgBuffer ++ (bytes ++ more)) := by
  have hfeed : c.framer.feed env.oob bytes = some c'.framer := by
    rw [← map_framer_onRead, hread]
    rfl
  obtain ⟨n, -, hn, -⟩ := whileFuel_eq_some_iff.mp hfeed
  have hgood := (Framer.allGood_iff_wellFramed (c.framer.append bytes)).mpr hhere
  have hiff := Framer.allGood_append_iff hgood more n
  rw [hn, Framer.allGood_iff_wellFramed, Framer.allGood_iff_wellFramed] at hiff
  have hassoc : ((c.framer.append bytes).append more).buffer =
      c.agent.msgBuffer ++ (bytes ++ more) :=
    List.append_assoc c.agent.msgBuffer bytes more
  rw [hassoc] at hiff
  exact hiff.symm

/-- The reads stay inside exactly if the bytes that were received up to the end of each chunk are
well framed. -/
theorem readsInside_iff (c : Ctx) (chunks : List ByteString) :
    c.ReadsInside env chunks ↔
      ∀ received, received ≠ [] → received <+: chunks →
        WellFramed env.oob c.agent.state.isHandshakeReceived
          (c.agent.msgBuffer ++ received.flatten) := by
  induction chunks generalizing c with
  | nil =>
    refine iff_of_true trivial fun received hne hprefix => ?_
    exact absurd (List.prefix_nil.mp hprefix) hne
  | cons bytes chunks ih =>
    rw [ReadsInside, onRead_inside_iff]
    constructor
    · rintro ⟨hhere, hnext⟩ received hne hprefix
      obtain ⟨chunk, rest, rfl⟩ := List.exists_cons_of_ne_nil hne
      obtain ⟨rfl, hrest⟩ := List.cons_prefix_cons.mp hprefix
      rw [List.flatten_cons]
      by_cases hlast : rest = []
      · rw [hlast, List.flatten_nil, List.append_nil]
        exact hhere
      · obtain ⟨c', hread, -⟩ := onRead_returns hhere.not_meetsHugePrefix
        exact (wellFramed_after env hhere hread rest.flatten).mp
          ((ih c').mp (hnext c' hread) rest hlast hrest)
    · intro h
      have hhere : WellFramed env.oob c.agent.state.isHandshakeReceived
          (c.agent.msgBuffer ++ bytes) := by
        have hfirst := h [bytes] (List.cons_ne_nil _ _)
          (List.cons_prefix_cons.mpr ⟨rfl, List.nil_prefix⟩)
        rwa [List.flatten_singleton] at hfirst
      refine ⟨hhere, fun c' hread => (ih c').mpr fun received _ hprefix => ?_⟩
      rw [wellFramed_after env hhere hread, ← List.flatten_cons]
      exact h _ (List.cons_ne_nil _ _) (List.cons_prefix_cons.mpr ⟨rfl, hprefix⟩)

end Ctx

/-! ### Datagrams -/

namespace UdpTracker

variable (env : UdpEnv)

/-- The reads of `udp_tracker_client::read`, none if `recvfrom` stored nothing: the header, then the
connection id of a connect response, or three words and the peers of an announce response. -/
def reads (d : Datagram) (u : UdpTracker) : List Read :=
  if d.bytes.isEmpty then []
  else [⟨d.bytes, 0, 4⟩, ⟨d.bytes, 4, 4⟩] ++
    if u.answers env 0 d then [⟨d.bytes, 8, 8⟩]
    else if u.answers env 1 d then
      [⟨d.bytes, 8, 4⟩, ⟨d.bytes, 12, 4⟩, ⟨d.bytes, 16, 4⟩] ++
        (List.range ((d.bytes.length - 20) / 6)).flatMap fun i =>
          [⟨d.bytes, 20 + 6 * i, 4⟩, ⟨d.bytes, 24 + 6 * i, 2⟩]
    else []

/-- The datagram is as long as what it is taken for, or empty. -/
def LongEnough (d : Datagram) (u : UdpTracker) : Prop :=
  d.bytes ≠ [] → 8 ≤ d.bytes.length ∧
    (u.answers env 0 d = true → 16 ≤ d.bytes.length) ∧
    (u.answers env 1 d = true → 20 ≤ d.bytes.length)

variable {env}

/-- The reads of the header and the connection id are in the footprint: they do not depend on what
lies behind the datagram. -/
lemma words_eq_of_inside {d : Datagram} {u : UdpTracker} (hne : d.bytes ≠ [])
    (h : ∀ r ∈ u.reads env d, r.Inside) (oob : Oob) :
    d.header env.oob = d.header oob ∧
      (u.answers env 0 d = true → word env.oob d.bytes 8 8 = word oob d.bytes 8 8) := by
  rw [reads, if_neg (by simpa using hne), List.forall_mem_append, List.forall_mem_cons,
    List.forall_mem_cons] at h
  obtain ⟨⟨haction, hid, -⟩, hrest⟩ := h
  constructor
  · unfold Datagram.header word
    rw [haction.window_eq env.oob oob, hid.window_eq env.oob oob]
  · intro hconnect
    rw [if_pos hconnect] at hrest
    exact congrArg ofBE ((hrest _ (List.mem_singleton_self _)).window_eq env.oob oob)

/-- The reads of a datagram stay inside exactly if it is long enough. -/
theorem reads_inside_iff (d : Datagram) (u : UdpTracker) :
    (∀ r ∈ u.reads env d, r.Inside) ↔ u.LongEnough env d := by
  by_cases hempty : d.bytes = []
  · refine iff_of_true ?_ fun hne => absurd hempty hne
    simp [reads, hempty]
  · have hheader : (∀ r ∈ [Read.mk d.bytes 0 4, ⟨d.bytes, 4, 4⟩], r.Inside) ↔
        8 ≤ d.bytes.length := by
      simp only [Read.forall_inside_cons, Read.forall_inside_nil, and_true]
      omega
    rw [reads, if_neg (by simpa using hempty), List.forall_mem_append, hheader, LongEnough,
      imp_iff_right hempty]
    refine and_congr_right fun h8 => ?_
    cases h₀ : u.answers env 0 d with
    | true =>
      rw [not_answers_one h₀, if_pos rfl]
      simp [Read.Inside]
    | false =>
      cases h₁ : u.answers env 1 d with
      | false => simp
      | true =>
        rw [if_neg Bool.false_ne_true, if_pos rfl, List.forall_mem_append]
        have hwords : (∀ r ∈ [Read.mk d.bytes 8 4, ⟨d.bytes, 12, 4⟩, ⟨d.bytes, 16, 4⟩],
            r.Inside) ↔ 20 ≤ d.bytes.length := by
          simp only [Read.forall_inside_cons, Read.forall_inside_nil, and_true]
          omega
        rw [hwords]
        simp only [Bool.false_eq_true, false_imp_iff, forall_const, true_and]
        refine and_iff_left_of_imp fun h20 r hr => ?_
        obtain ⟨i, hi, hr⟩ := List.mem_flatMap.mp hr
        have hlt := List.mem_range.mp hi
        simp only [List.mem_cons, List.not_mem_nil, or_false] at hr
        rcases hr with rfl | rfl
        · exact (Read.inside_iff (by omega)).mpr (by omega)
        · exact (Read.inside_iff (by omega)).mpr (by omega)

end UdpTracker

/-! ### Both decoders -/

section Decoders

variable {Digest : Type*} [DecidableEq Digest]

/-- The network decoders stay inside the bytes that were received exactly under these conditions:
for an agent, whatever state it is in and however the stream is split, all that was received up to
the end of each chunk is well framed; for a datagram, it is as long as what it is taken for. -/
theorem decoders_inside_iff (env : AgentEnv Digest) (udpEnv : UdpEnv) (c : Ctx)
    (chunks : List ByteString) (u : UdpTracker) (d : Datagram) :
    (c.ReadsInside env chunks ↔
      ∀ received, received ≠ [] → received <+: chunks →
        WellFramed env.oob c.agent.state.isHandshakeReceived
          (c.agent.msgBuffer ++ received.flatten)) ∧
    ((∀ r ∈ u.reads udpEnv d, r.Inside) ↔ u.LongEnough udpEnv d) :=
  ⟨Ctx.readsInside_iff env c chunks, UdpTracker.reads_inside_iff d u⟩

end Decoders

/-- The state of a client that has sent a connect request. -/
def sampleUdpTracker : UdpTracker :=
  (UdpTracker.initial [] ⟨0, ⟨0, 0, 0, 0⟩⟩).connect ⟨0, ⟨1, 2, 3, 4⟩⟩ 7 true

/-- A complete handshake in one chunk leaves an empty buffer, of which the length of the next
message is computed; the header of a datagram of one byte is read as well. -/
theorem reads_behind_end :
    ¬ (sampleCtx [] true).ReadsInside sampleAgentEnv
        [MsgFactory.handshake sampleAgentEnv.oob [] []] ∧
      ¬ ∀ r ∈ sampleUdpTracker.reads ⟨sampleAgentEnv.oob, [], [], 0, 0⟩ ⟨[0], 0, 0, true⟩,
        r.Inside := by
  constructor
  · rintro ⟨hinside, -⟩
    have hpass := hinside 1
    revert hpass
    decide +kernel
  · decide +kernel

end Tent
