import Tent.Agent.Reconnect
import Tent.Wire.Chunking

/-!
# Splitting what a peer sends

TCP delivers a stream in chunks of its own choosing.  `onRead_split` says that an agent does not
notice: two ways to split the same bytes lead to the same handshake events and calls of
`handle_msg`, the same state of the state machine and the same receive buffer.

The framer settles everything but the state, and the state follows from what was decoded
(`Decodes`): a handshake event and the messages `CHOKE` and `UNCHOKE` are all that moves it.
-/

set_option autoImplicit false

namespace Tent

open Bytes Transition

/-- The state of the state machine after something was decoded. -/
def Decoded.stateAfter (state : SessionState) : Decoded → SessionState
  | .handshake => .handshakeReceived
  | .message msg => Receiver.stateAfter state msg

/-- What was decoded between two states of an agent, and the state machine following it. -/
def Ctx.Decodes (c c' : Ctx) : Prop :=
  ∃ ds, decodedOf c'.agent.trace = decodedOf c.agent.trace ++ ds ∧
    c'.agent.state = ds.foldl Decoded.stateAfter c.agent.state

namespace Ctx

variable {Digest : Type*} {env : AgentEnv Digest}

/-- Nothing is decoded when nothing happens. -/
lemma Decodes.refl (c : Ctx) : Decodes c c := ⟨[], by simp, rfl⟩

/-- What is decoded first and what is decoded then. -/
lemma Decodes.trans {c₁ c₂ c₃ : Ctx} (h : Decodes c₁ c₂) (h' : Decodes c₂ c₃) :
    Decodes c₁ c₃ := by
  obtain ⟨ds, hdec, hstate⟩ := h
  obtain ⟨ds', hdec', hstate'⟩ := h'
  refine ⟨ds ++ ds', ?_, ?_⟩
  · rw [hdec', hdec, List.append_assoc]
  · rw [hstate', hstate, List.foldl_append]

/-- The state follows from what was decoded. -/
lemma Decodes.state_eq {c c₁ c₂ : Ctx} (h₁ : Decodes c c₁) (h₂ : Decodes c c₂)
    (heq : decodedOf c₁.agent.trace = decodedOf c₂.agent.trace) :
    c₁.agent.state = c₂.agent.state := by
  obtain ⟨ds₁, hdec₁, hstate₁⟩ := h₁
  obtain ⟨ds₂, hdec₂, hstate₂⟩ := h₂
  rw [hdec₁, hdec₂] at heq
  rw [hstate₁, hstate₂, List.append_cancel_left heq]

variable [DecidableEq Digest]

/-- A pass of the receive loop decodes one frame. -/
lemma decodes_frame (c : Ctx) : Decodes c (c.frame env) := by
  have hframer := framer_frame env c
  refine ⟨decodeFrame env.oob c.agent.state.isHandshakeReceived (c.slice env),
    congrArg Framer.decoded hframer, ?_⟩
  apply frame_cases (P := fun c' => c'.agent.state = _)
  · intro hhs hvalid
    simp [decodeFrame, hhs, hvalid]
    rfl
  · intro hhs hvalid
    simp [decodeFrame, hhs, hvalid]
    rfl
  · intro hhs
    rw [handleMsg_state_eq]
    simp [decodeFrame, hhs]
    rfl

/-- A call of `on_read`. -/
lemma decodes_onRead {bytes : ByteString} {c c' : Ctx} (h : c.onRead env bytes = some c') :
    Decodes c c' := by
  have happend : Decodes c (c.append bytes) :=
    ⟨[], by rw [List.append_nil]; exact decodedOf_concat_of_none rfl c.agent.trace, rfl⟩
  refine happend.trans ?_
  exact whileFuel_rel Decodes.refl (fun _ _ _ => Decodes.trans) (fun c _ => decodes_frame c) h

/-- A sequence of calls of `on_read`. -/
lemma decodes_foldlM_onRead {chunks : List ByteString} {c c' : Ctx}
    (h : chunks.foldlM (fun c bytes => onRead env bytes c) c = some c') : Decodes c c' := by
  induction chunks generalizing c with
  | nil =>
    obtain rfl : c = c' := by simpa using h
    exact Decodes.refl c
  | cons bytes chunks ih =>
    rw [List.foldlM_cons] at h
    obtain ⟨c₁, hread, hrest⟩ := Option.bind_eq_some_iff.mp h
    exact (decodes_onRead hread).trans (ih hrest)

variable (env) in
/-- A sequence of calls of `on_read` over bytes without huge prefixes returns with what the framer
makes of the concatenation. -/
lemma foldlM_onRead_returns {chunks : List ByteString} (hchunks : chunks ≠ []) {c : Ctx}
    (hhuge : ¬ MeetsHugePrefix env.oob c.agent.state.isHandshakeReceived
      (c.agent.msgBuffer ++ chunks.flatten)) :
    ∃ c', chunks.foldlM (fun c bytes => onRead env bytes c) c = some c' ∧
      c.framer.feed env.oob chunks.flatten = some c'.framer := by
  obtain ⟨f, hfeed, -⟩ := Framer.feed_returns (f := c.framer) hhuge
  have hrun := map_framer_foldlM_onRead env chunks c
  rw [Framer.feed_chunks hchunks hhuge, hfeed] at hrun
  obtain ⟨c', hc', rfl⟩ := Option.map_eq_some_iff.mp hrun
  exact ⟨c', hc', hfeed⟩

/-- Framing does not depend on how TCP splits the stream.  Whatever the state machine and the
receive buffer hold at the start, and whatever lies behind the ends of the buffers in the two runs,
two ways to split a stream without huge length prefixes into non-empty chunks lead to the same
handshake events and calls of `handle_msg`, to the same state and to the same receive buffer. -/
theorem onRead_split (env₁ env₂ : AgentEnv Digest) (stream : ByteString)
    (chunks₁ chunks₂ : List ByteString) (hsplit₁ : chunks₁.flatten = stream)
    (hsplit₂ : chunks₂.flatten = stream) (hne₁ : ∀ chunk ∈ chunks₁, chunk ≠ [])
    (hne₂ : ∀ chunk ∈ chunks₂, chunk ≠ []) (c : Ctx)
    (hhuge : ¬ MeetsHugePrefix env₁.oob c.agent.state.isHandshakeReceived
      (c.agent.msgBuffer ++ stream)) :
    ∃ c₁ c₂, chunks₁.foldlM (fun c bytes => onRead env₁ bytes c) c = some c₁ ∧
      chunks₂.foldlM (fun c bytes => onRead env₂ bytes c) c = some c₂ ∧
      decodedOf c₁.agent.trace = decodedOf c₂.agent.trace ∧
      c₁.agent.state = c₂.agent.state ∧ c₁.agent.msgBuffer = c₂.agent.msgBuffer := by
  by_cases hempty : stream = []
  · -- a list of non-empty chunks of the empty stream is empty
    have hnil : ∀ chunks : List ByteString, chunks.flatten = stream →
        (∀ chunk ∈ chunks, chunk ≠ []) → chunks = [] := by
      intro chunks hsplit hne
      rw [hempty, List.flatten_eq_nil_iff] at hsplit
      exact List.eq_nil_iff_forall_not_mem.mpr fun chunk hchunk =>
        hne chunk hchunk (hsplit chunk hchunk)
    rw [hnil chunks₁ hsplit₁ hne₁, hnil chunks₂ hsplit₂ hne₂]
    exact ⟨c, c, rfl, rfl, rfl, rfl, rfl⟩
  · have hcons : ∀ chunks : List ByteString, chunks.flatten = stream → chunks ≠ [] := by
      rintro chunks hsplit rfl
      exact hempty hsplit.symm
    have hhuge₂ : ¬ MeetsHugePrefix env₂.oob c.agent.state.isHandshakeReceived
        (c.agent.msgBuffer ++ stream) := fun hmeet => hhuge (hmeet.oracle env₁.oob)
    obtain ⟨c₁, hrun₁, hfeed₁⟩ := foldlM_onRead_returns env₁ (hcons chunks₁ hsplit₁)
      (c := c) (by rwa [hsplit₁])
    obtain ⟨c₂, hrun₂, hfeed₂⟩ := foldlM_onRead_returns env₂ (hcons chunks₂ hsplit₂)
      (c := c) (by rwa [hsplit₂])
    have hframer : c₁.framer = c₂.framer := by
      rw [hsplit₁, Framer.feed_oracle env₁.oob env₂.oob hhuge] at hfeed₁
      rw [hsplit₂, hfeed₁] at hfeed₂
      exact Option.some.inj hfeed₂
    have hdecoded : decodedOf c₁.agent.trace = decodedOf c₂.agent.trace :=
      congrArg Framer.decoded hframer
    exact ⟨c₁, c₂, hrun₁, hrun₂, hdecoded,
      (decodes_foldlM_onRead hrun₁).state_eq (decodes_foldlM_onRead hrun₂) hdecoded,
      congrArg Framer.buffer hframer⟩

/-- A rejected handshake (its protocol string is empty), an accepted one and an unknown message,
split inside the first of them or inside the prefix of the message. -/
theorem onRead_split_sample :
    ∃ c₁ c₂,
      [List.replicate 20 0,
        List.replicate 29 0 ++ MsgFactory.handshake sampleAgentEnv.oob [] [] ++
          [0, 0, 0, 1, 77]].foldlM
          (fun c bytes => onRead sampleAgentEnv bytes c) (sampleCtx [] true) = some c₁ ∧
      [List.replicate 49 0 ++ MsgFactory.handshake sampleAgentEnv.oob [] [] ++ [0, 0],
        [0, 1, 77]].foldlM
          (fun c bytes => onRead sampleAgentEnv bytes c) (sampleCtx [] true) = some c₂ ∧
      decodedOf c₁.agent.trace = decodedOf c₂.agent.trace ∧
      c₁.agent.state = c₂.agent.state ∧ c₁.agent.msgBuffer = c₂.agent.msgBuffer := by
  refine onRead_split sampleAgentEnv sampleAgentEnv
    (List.replicate 49 0 ++ MsgFactory.handshake sampleAgentEnv.oob [] [] ++ [0, 0, 0, 1, 77])
    _ _ (by decide +kernel) (by decide +kernel) (by decide +kernel) (by decide +kernel) _ ?_
  intro h
  cases h with
  | handshake _ hrest =>
    cases hrest with
    | handshake _ hrest =>
      cases hrest with
      | huge _ hhuge => exact absurd hhuge (by decide +kernel)
      | message _ _ hrest =>
        -- nothing stands behind the message
        cases hrest with
        | huge h4 _ => exact absurd h4 (by decide +kernel)
        | message h4 _ _ => exact absurd h4 (by decide +kernel)

end Ctx

end Tent
