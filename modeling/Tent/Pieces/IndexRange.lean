import Tent.Pieces.RequestQueues

/-!
# Piece indices from the network

A piece index comes in with a bitfield or in front of a block and goes from there into `have_map_`,
into the requests and into the functions of `torrent_info`, which expect an index below
`num_pieces` and check it in debug builds only.

`infoCalls` lists the calls of `piece_size`, `hash_for_piece` and `map_block` that a call of the
handler makes.  No function of the handler compares an index with `num_pieces`: the indices that are
passed on are in range exactly when those that come in are (`indices_in_range_iff`).
-/

set_option autoImplicit false

namespace Tent

open Bytes Transition

/-- A call of a function of `torrent_info` that takes a piece index. -/
inductive InfoCall where
  /-- `piece_size(index)`. -/
  | pieceSize (index : ℕ)
  /-- `hash_for_piece(index)`. -/
  | hashForPiece (index : ℕ)
  /-- `map_block(index, begin, BLOCK_LEN)`. -/
  | mapBlock (index begin : ℕ)
deriving DecidableEq, Repr

/-- The piece index of the call. -/
def InfoCall.index : InfoCall → ℕ
  | .pieceSize index => index
  | .hashForPiece index => index
  | .mapBlock index _ => index

namespace PieceHandler

variable {Digest : Type*} (env : Env Digest)

/-! ### What is asked of the torrent -/

/-- The calls that `have(peer_id, index)` makes, through `add_to_queue`. -/
def haveIndexCalls (peerId : PeerId) (index : ℕ) (h : PieceHandler) : List InfoCall :=
  if index ∈ h.haveMap peerId then [] else [.pieceSize index]

/-- The calls that `have` makes for the pieces of a bitfield, one after the other. -/
def haveIndicesCalls (peerId : PeerId) : List ℕ → PieceHandler → List InfoCall
  | [], _ => []
  | index :: indices, h =>
    haveIndexCalls peerId index h ++ haveIndicesCalls peerId indices (haveIndex env peerId index h)

/-- The calls that `get_piece_request` makes, through `rebuild_queue` and `add_to_queue`. -/
def getPieceRequestCalls (peerId : PeerId) (h : PieceHandler) : List InfoCall :=
  if (h.requestMap peerId).isEmpty then
    (env.setOrder.order (h.haveMap peerId)).map .pieceSize
  else []

variable [DecidableEq Digest]

/-- The calls that `write_if_valid` makes. -/
def writeIfValidCalls (index : ℕ) (h : PieceHandler) : List InfoCall :=
  let keys := blockKeys env index
  .pieceSize index ::
    if keys.all fun key => (h.receivedPieces key).received then
      .hashForPiece index ::
        if env.sha1 (keys.flatMap fun key => (h.receivedPieces key).block) =
            env.torrent.hashForPiece index then
          keys.map fun key => .mapBlock key.index key.begin
        else []
    else []

/-- The calls that `received` makes. -/
def receivedCalls (payload : ByteString) (h : PieceHandler) : List InfoCall :=
  if (h.receivedPieces (keyOf env.oob payload)).received then []
  else writeIfValidCalls env (keyOf env.oob payload).index
    (store (keyOf env.oob payload) (payload.drop 8) h)

/-- The calls of functions of `torrent_info` that a call of the handler makes. -/
def infoCalls (h : PieceHandler) : HandlerCall → List InfoCall
  | .haveIndex peerId index => haveIndexCalls peerId index h
  | .haveBitfield peerId bitfield => haveIndicesCalls env peerId (bitfieldIndices bitfield 0) h
  | .getPieceRequest peerId => getPieceRequestCalls env peerId h
  | .received payload => receivedCalls env payload h

/-- Every index that a call passes on, stores or gives out is an index of the torrent. -/
structure PassesInRange (h : PieceHandler) (c : HandlerCall) : Prop where
  /-- The indices passed to the functions of `torrent_info`. -/
  passed : ∀ i ∈ infoCalls env h c, i.index < env.torrent.numPieces
  /-- The indices in `have_map_` and in the queued requests. -/
  stored : ∀ peerId, KnownAt peerId (· < env.torrent.numPieces) (call env h c)
  /-- The index of the request that is given out. -/
  requested : ∀ peerId req, c = .getPieceRequest peerId →
    (getPieceRequest env peerId h).2 = some req → req.index < env.torrent.numPieces

/-- The handler has seen indices of the torrent only. -/
structure SeenInRange (h : PieceHandler) : Prop where
  /-- In `have_map_` and in the requests. -/
  known : ∀ peerId, KnownAt peerId (· < env.torrent.numPieces) h
  /-- In the received blocks. -/
  received : ∀ key, (h.receivedPieces key).received = true → key.index < env.torrent.numPieces

variable {env} {h : PieceHandler} {peerId : PeerId}

/-! ### The indices that are passed on -/

omit [DecidableEq Digest] in
/-- The pieces of a bitfield are announced after it. -/
lemma mem_haveMap_foldl (indices : List ℕ) (h : PieceHandler) {i : ℕ}
    (hi : i ∈ indices ∨ i ∈ h.haveMap peerId) :
    i ∈ (indices.foldl (fun h index => haveIndex env peerId index h) h).haveMap peerId := by
  induction indices generalizing h with
  | nil => exact hi.resolve_left List.not_mem_nil
  | cons index indices ih =>
    have hself : index ∈ (haveIndex env peerId index h).haveMap peerId := by
      rw [haveIndex_eq]
      split_ifs with hmem
      · exact hmem
      · rw [addToQueue_haveMap, announce_haveMap]
        simp
    have hkeep : i ∈ h.haveMap peerId → i ∈ (haveIndex env peerId index h).haveMap peerId := by
      intro hmem
      rw [haveIndex_eq]
      split_ifs
      · exact hmem
      · rw [addToQueue_haveMap, announce_haveMap]
        exact List.mem_append_left _ hmem
    refine ih (haveIndex env peerId index h) ?_
    rcases hi with hi | hi
    · rcases List.mem_cons.mp hi with rfl | hi
      · exact .inr hself
      · exact .inl hi
    · exact .inr (hkeep hi)

omit [DecidableEq Digest] in
/-- The pieces of a bitfield are passed on as they are. -/
lemma index_of_mem_haveIndicesCalls {indices : List ℕ} {i : InfoCall}
    (hi : i ∈ haveIndicesCalls env peerId indices h) : i.index ∈ indices := by
  induction indices generalizing h with
  | nil => exact absurd hi List.not_mem_nil
  | cons index indices ih =>
    rw [haveIndicesCalls, haveIndexCalls] at hi
    rcases List.mem_append.mp hi with hi | hi
    · split_ifs at hi
      · exact absurd hi List.not_mem_nil
      · rw [List.mem_singleton.mp hi]
        exact List.mem_cons_self
    · exact List.mem_cons_of_mem index (ih hi)

/-- `write_if_valid` passes on its own index. -/
lemma index_of_mem_writeIfValidCalls {index : ℕ} {i : InfoCall}
    (hi : i ∈ writeIfValidCalls env index h) : i.index = index := by
  unfold writeIfValidCalls at hi
  dsimp only at hi
  split_ifs at hi
  · simp only [List.mem_cons, List.mem_map] at hi
    rcases hi with rfl | rfl | ⟨key, hkey, rfl⟩
    · rfl
    · rfl
    · exact index_of_mem_blockKeys hkey
  · simp only [List.mem_cons, List.not_mem_nil, or_false] at hi
    rcases hi with rfl | rfl <;> rfl
  · rw [List.mem_singleton.mp hi]
    rfl

/-- In a state that has seen indices of the torrent only, a call passes on such indices exactly when
it comes with such indices. -/
lemma passesInRange_iff (hh : SeenInRange env h) (c : HandlerCall) :
    PassesInRange env h c ↔ InRange env c := by
  have hstored : HaveInRange env c →
      ∀ peerId, KnownAt peerId (· < env.torrent.numPieces) (call env h c) :=
    fun hc peerId => (hh.known peerId).call hc
  cases c with
  | haveIndex id index =>
    constructor
    · intro hpass
      by_cases hmem : index ∈ h.haveMap id
      · exact (hh.known id).have_mem index hmem
      · exact hpass.passed (.pieceSize index) (by simp [infoCalls, haveIndexCalls, hmem])
    · intro hindex
      refine ⟨fun i hi => ?_, hstored hindex, fun _ _ heq => absurd heq (by simp)⟩
      rw [infoCalls, haveIndexCalls] at hi
      split_ifs at hi
      · exact absurd hi List.not_mem_nil
      · rw [List.mem_singleton.mp hi]
        exact hindex
  | haveBitfield id bitfield =>
    constructor
    · intro hpass i hi
      exact (hpass.stored id).have_mem i (mem_haveMap_foldl _ h (.inl hi))
    · intro hbits
      exact ⟨fun i hi => hbits _ (index_of_mem_haveIndicesCalls hi), hstored hbits,
        fun _ _ heq => absurd heq (by simp)⟩
  | getPieceRequest id =>
    refine iff_of_true ⟨fun i hi => ?_, hstored trivial, ?_⟩ trivial
    · rw [infoCalls, getPieceRequestCalls] at hi
      split_ifs at hi
      · obtain ⟨index, hindex, rfl⟩ := List.mem_map.mp hi
        exact (hh.known id).have_mem index ((env.setOrder.perm _).mem_iff.mp hindex)
      · exact absurd hi List.not_mem_nil
    · intro peerId req _ hreq
      exact ((hh.known peerId).getPieceRequest env).2 req hreq
  | received payload =>
    constructor
    · intro hpass
      cases hrec : (h.receivedPieces (keyOf env.oob payload)).received with
      | true => exact hh.received _ hrec
      | false =>
        refine hpass.passed (.pieceSize (keyOf env.oob payload).index) ?_
        simp [infoCalls, receivedCalls, hrec, writeIfValidCalls]
    · intro hindex
      refine ⟨fun i hi => ?_, hstored trivial, fun _ _ heq => absurd heq (by simp)⟩
      rw [infoCalls, receivedCalls] at hi
      split_ifs at hi
      · exact absurd hi List.not_mem_nil
      · rw [index_of_mem_writeIfValidCalls hi]
        exact hindex

/-- A call that passes on indices of the torrent only leaves a state that has seen such indices
only. -/
lemma SeenInRange.call (hh : SeenInRange env h) {c : HandlerCall} (hc : PassesInRange env h c) :
    SeenInRange env (call env h c) := by
  refine ⟨hc.stored, fun key hkey => ?_⟩
  have hsame : ∀ {id h'}, LocalTo id h h' → (h'.receivedPieces key).received = true →
      key.index < env.torrent.numPieces := by
    intro id h' hlocal hrec
    rw [receivedPieces_of_core_eq hlocal.core_eq] at hrec
    exact hh.received key hrec
  cases c with
  | haveIndex id index => exact hsame (localTo_haveIndex env id index h) hkey
  | haveBitfield id bitfield => exact hsame (localTo_haveBitfield env id bitfield h) hkey
  | getPieceRequest id => exact hsame (localTo_getPieceRequest env id h) hkey
  | received payload =>
    change ((receivedBlock env (keyOf env.oob payload) (payload.drop 8) h).receivedPieces
      key).received = true at hkey
    rw [received_receivedBlock] at hkey
    split_ifs at hkey with heq
    · rw [heq]
      exact (passesInRange_iff hh _).mp hc
    · exact hh.received key hkey

/-- Along a run every index that is passed to `piece_size`, `hash_for_piece` and `map_block`, every
index in `have_map_` and every index in a request is below `num_pieces` exactly when no bitfield has
a bit set at or behind `num_pieces` and no block comes with such an index. -/
theorem indices_in_range_iff (calls : List HandlerCall) :
    Meets (call env) (PassesInRange env) (create env) calls ↔ ∀ c ∈ calls, InRange env c := by
  have hstart : SeenInRange env (create env) :=
    ⟨fun _ => ⟨fun _ hmem => absurd hmem List.not_mem_nil,
      fun _ hmem => absurd hmem List.not_mem_nil⟩, fun _ hrec => absurd hrec (by simp [create])⟩
  have hsteps : Meets (call env) (PassesInRange env) (create env) calls ↔
      Meets (call env) (fun _ c => InRange env c) (create env) calls :=
    meets_iff_meets (V := fun _ _ => True) (fun h c _ hh => passesInRange_iff hh c)
      (fun h c _ hh hc => hh.call hc) (fun _ _ _ => trivial) hstart
  exact hsteps.trans meets_iff_forall

/-- A bitfield with a spare bit set, for a torrent with one piece: index one is announced, passed to
`piece_size` and requested. -/
theorem spare_bit_out_of_range :
    ¬ Meets (call (sampleEnv [1])) (PassesInRange (sampleEnv [1])) (create (sampleEnv [1]))
        [.haveBitfield [] [192]] ∧
      .pieceSize 1 ∈ infoCalls (sampleEnv [1]) (create (sampleEnv [1])) (.haveBitfield [] [192]) ∧
      (sampleEnv [1]).torrent.numPieces = 1 := by
  have hpassed : .pieceSize 1 ∈
      infoCalls (sampleEnv [1]) (create (sampleEnv [1])) (.haveBitfield [] [192]) := by
    decide +kernel
  refine ⟨fun hmeets => ?_, hpassed, by decide⟩
  have hlt := (hmeets [] _ (List.prefix_rfl)).passed _ hpassed
  exact absurd hlt (by decide)

end PieceHandler

end Tent
