import Tent.Pieces.Corruption

/-!
# The request queues

What may stand in the request queue of a peer: requests for blocks of pieces that the peer
announced, each block at most once, and each with the length that the block really has.

The queue is filled from three places: `have` for a single piece, `have` for a bitfield, and
`rebuild_queue`.  A piece is entered by `have` only when it is announced for the first time, and
`rebuild_queue` runs only on an empty queue and over a set.  So a piece that is entered has no
request in the queue yet (`QueueOk.addToQueue`), and no block gets there twice.
-/

set_option autoImplicit false

namespace Tent

open Bytes Transition

/-- The block that a request asks for. -/
def Request.key (req : Request) : PieceReceivedKey := ⟨req.index, req.begin⟩

namespace PieceHandler

variable {Digest : Type*} (env : Env Digest)

/-- A request that may be made to a peer. -/
structure RequestOk (peerId : PeerId) (h : PieceHandler) (req : Request) : Prop where
  /-- The peer announced the piece. -/
  announced : req.index ∈ h.haveMap peerId
  /-- The block starts on the grid. -/
  blockLen_dvd : blockLen ∣ req.begin
  /-- The block starts inside the piece. -/
  begin_lt : req.begin < env.torrent.pieceSize req.index
  /-- The length is that of the block. -/
  length_eq : req.length = min blockLen (env.torrent.pieceSize req.index - req.begin)

/-- The queue of a peer holds requests that may be made to it, and no block twice. -/
structure QueueOk (peerId : PeerId) (h : PieceHandler) : Prop where
  /-- The requests are for different blocks. -/
  nodup : ((h.requestMap peerId).map Request.key).Nodup
  /-- The requests may be made to the peer. -/
  entries : ∀ req ∈ h.requestMap peerId, RequestOk env peerId h req

/-- What `get_piece_request` gives out: an entry of the queue, which may have been rebuilt for it,
whose block was not received. -/
structure Offered (peerId : PeerId) (h : PieceHandler) (req : Request) : Prop
    extends RequestOk env peerId h req where
  /-- The request was in the queue. -/
  queued : req ∈ (refill env peerId h).1.requestMap peerId
  /-- The block was not received. -/
  unreceived : (h.receivedPieces req.key).received = false

/-- The pieces announced by the call exist. -/
def HaveInRange : HandlerCall → Prop
  | .haveIndex _ index => index < env.torrent.numPieces
  | .haveBitfield _ bitfield => ∀ i ∈ bitfieldIndices bitfield 0, i < env.torrent.numPieces
  | _ => True

/-- The invariant of the entries for a peer: the queue is in order, and no piece is announced
twice. -/
structure Lined (peerId : PeerId) (h : PieceHandler) : Prop extends QueueOk env peerId h where
  /-- No piece is announced twice. -/
  have_nodup : (h.haveMap peerId).Nodup

/-- The same with entries for pieces of the torrent only. -/
structure Entered (peerId : PeerId) (h : PieceHandler) : Prop extends Lined env peerId h where
  /-- Every piece that is entered exists. -/
  known : KnownAt peerId (· < env.torrent.numPieces) h

variable {env} {peerId : PeerId} {h h' : PieceHandler}

lemma RequestOk.congr (hhave : h'.haveMap peerId = h.haveMap peerId) {req : Request}
    (hreq : RequestOk env peerId h req) : RequestOk env peerId h' req where
  announced := by
    rw [hhave]
    exact hreq.announced
  blockLen_dvd := hreq.blockLen_dvd
  begin_lt := hreq.begin_lt
  length_eq := hreq.length_eq

/-- The invariant depends on the entries for the peer only. -/
lemma Lined.congr (hhave : h'.haveMap peerId = h.haveMap peerId)
    (hrequest : h'.requestMap peerId = h.requestMap peerId) (hh : Lined env peerId h) :
    Lined env peerId h' where
  nodup := by
    rw [hrequest]
    exact hh.nodup
  entries req hreq := by
    rw [hrequest] at hreq
    exact (hh.entries req hreq).congr hhave
  have_nodup := by
    rw [hhave]
    exact hh.have_nodup

/-! ### The requests for a piece -/

/-- The last block of a piece has what the full blocks before it leave over. -/
lemma requestLength_eq {k size : ℕ} (hk : k < blocksPerPiece size) :
    (if k < blocksPerPiece size - 1 ∨ size % blockLen = 0 then blockLen else size % blockLen) =
      min blockLen (size - k * blockLen) := by
  have hlt := lt_blocksPerPiece_iff.mp hk
  unfold blocksPerPiece blockLen at *
  split_ifs <;> omega

/-- The new requests are for the unreceived blocks of the piece, in order. -/
lemma map_key_newRequests (index : ℕ) (h : PieceHandler) :
    (newRequests env index h).map Request.key =
      (blockKeys env index).filter fun key => !(h.receivedPieces key).received := by
  unfold newRequests blockKeys
  rw [List.filter_map, List.map_filterMap, ← List.filterMap_eq_filter, List.map_filterMap]
  apply List.filterMap_congr
  intro k _
  cases hrec : (h.receivedPieces ⟨index, blockBegin k⟩).received with
  | true => simp [hrec]
  | false => simp [hrec, Request.key]

/-- The new requests for a list of pieces are for the unreceived blocks of these pieces. -/
lemma mem_map_key_flatMap {indices : List ℕ} {key : PieceReceivedKey} :
    key ∈ (indices.flatMap fun index => newRequests env index h).map Request.key ↔
      key.index ∈ indices ∧ key ∈ blockKeys env key.index ∧
        (h.receivedPieces key).received = false := by
  rw [List.map_flatMap, List.mem_flatMap]
  constructor
  · rintro ⟨index, hindex, hkey⟩
    rw [map_key_newRequests, List.mem_filter] at hkey
    obtain rfl := index_of_mem_blockKeys hkey.1
    exact ⟨hindex, hkey.1, by simpa using hkey.2⟩
  · rintro ⟨hindex, hkey, hrec⟩
    refine ⟨key.index, hindex, ?_⟩
    rw [map_key_newRequests, List.mem_filter]
    exact ⟨hkey, by simpa using hrec⟩

variable (env) in
/-- The new requests for different pieces have no block twice. -/
lemma nodup_map_key_flatMap {indices : List ℕ} (hnodup : indices.Nodup) (h : PieceHandler) :
    ((indices.flatMap fun index => newRequests env index h).map Request.key).Nodup := by
  rw [List.map_flatMap, List.nodup_flatMap]
  constructor
  · intro index _
    rw [map_key_newRequests]
    exact nodup_blockKeys.filter _
  · refine hnodup.imp fun {i j} hij => ?_
    intro key hi hj
    dsimp only at hi hj
    rw [map_key_newRequests] at hi hj
    exact hij ((index_of_mem_blockKeys (List.mem_filter.mp hi).1).symm.trans
      (index_of_mem_blockKeys (List.mem_filter.mp hj).1))

/-- The new requests for an announced piece may be made. -/
lemma requestOk_of_mem_newRequests {index : ℕ} (hhave : index ∈ h.haveMap peerId) {req : Request}
    (hreq : req ∈ newRequests env index h') : RequestOk env peerId h req := by
  rw [newRequests, List.mem_filterMap] at hreq
  obtain ⟨k, hk, hreq⟩ := hreq
  rw [List.mem_range] at hk
  have hbegin := blockBegin_eq (pieceSize_le_intMax env index) hk
  rw [requestLength_eq hk, hbegin] at hreq
  split_ifs at hreq
  obtain rfl := Option.some.inj hreq
  exact ⟨hhave, ⟨k, Nat.mul_comm _ _⟩, lt_blocksPerPiece_iff.mp hk, rfl⟩

variable (env) in
/-- Entering a piece leaves the announcements alone. -/
@[simp] lemma addToQueue_haveMap (peerId : PeerId) (index : ℕ) (h : PieceHandler) :
    (addToQueue env peerId index h).haveMap peerId = h.haveMap peerId :=
  rfl

/-- Entering an announced piece that has no request in the queue keeps the queue in order. -/
lemma QueueOk.addToQueue (hh : QueueOk env peerId h) {index : ℕ}
    (hhave : index ∈ h.haveMap peerId)
    (hnew : ∀ req ∈ h.requestMap peerId, req.index ≠ index) :
    QueueOk env peerId (addToQueue env peerId index h) where
  nodup := by
    rw [addToQueue_requestMap, List.map_append, List.nodup_append, map_key_newRequests]
    refine ⟨hh.nodup, nodup_blockKeys.filter _, ?_⟩
    intro key hkey key' hkey' heq
    obtain ⟨req, hreq, rfl⟩ := List.mem_map.mp hkey
    subst heq
    exact hnew req hreq (index_of_mem_blockKeys (List.mem_filter.mp hkey').1)
  entries := by
    intro req hreq
    rw [addToQueue_requestMap] at hreq
    rcases List.mem_append.mp hreq with hreq | hreq
    · exact (hh.entries req hreq).congr (addToQueue_haveMap env peerId index h)
    · exact (requestOk_of_mem_newRequests hhave hreq).congr
        (addToQueue_haveMap env peerId index h)

/-! ### The calls -/

lemma Lined.haveIndex (hh : Lined env peerId h) (index : ℕ) :
    Lined env peerId (haveIndex env peerId index h) := by
  rw [haveIndex_eq]
  split_ifs with hmem
  · exact hh
  · have hqueue : QueueOk env peerId (announce peerId index h) := by
      refine ⟨hh.nodup, fun req hreq => ?_⟩
      have hok := hh.entries req hreq
      exact ⟨by simp [hok.announced], hok.blockLen_dvd, hok.begin_lt, hok.length_eq⟩
    have hnew : ∀ req ∈ (announce peerId index h).requestMap peerId, req.index ≠ index :=
      fun req hreq heq => hmem (heq ▸ (hh.entries req hreq).announced)
    exact {
      toQueueOk := hqueue.addToQueue (by simp) hnew
      have_nodup := by
        change ((announce peerId index h).haveMap peerId).Nodup
        rw [announce_haveMap, List.nodup_append]
        refine ⟨hh.have_nodup, List.nodup_singleton index, fun k hk k' hk' heq => ?_⟩
        rw [heq, List.mem_singleton.mp hk'] at hk
        exact hmem hk }

lemma Lined.haveBitfield (hh : Lined env peerId h) (bitfield : ByteString) :
    Lined env peerId (haveBitfield env peerId bitfield h) := by
  unfold PieceHandler.haveBitfield
  induction bitfieldIndices bitfield 0 generalizing h with
  | nil => exact hh
  | cons index indices ih => exact ih (hh.haveIndex index)

/-- The loop of `rebuild_queue` over announced pieces that have no requests in the queue. -/
lemma Lined.foldl_addToQueue (indices : List ℕ) (hh : Lined env peerId h)
    (hnodup : indices.Nodup) (hhave : ∀ index ∈ indices, index ∈ h.haveMap peerId)
    (hnew : ∀ index ∈ indices, ∀ req ∈ h.requestMap peerId, req.index ≠ index) :
    Lined env peerId (indices.foldl (fun h index => addToQueue env peerId index h) h) := by
  induction indices generalizing h with
  | nil => exact hh
  | cons index indices ih =>
    have hindex := hhave index List.mem_cons_self
    rw [List.nodup_cons] at hnodup
    have hnext : Lined env peerId (addToQueue env peerId index h) :=
      { toQueueOk := hh.addToQueue hindex (hnew index List.mem_cons_self)
        have_nodup := hh.have_nodup }
    refine ih hnext hnodup.2 (fun k hk => hhave k (List.mem_cons_of_mem index hk)) ?_
    intro k hk req hreq heq
    rw [addToQueue_requestMap] at hreq
    rcases List.mem_append.mp hreq with hreq | hreq
    · exact hnew k (List.mem_cons_of_mem index hk) req hreq heq
    · rw [index_of_mem_newRequests env hreq] at heq
      exact hnodup.1 (heq ▸ hk)

variable (env) in
/-- Filling the queue leaves the announcements alone. -/
lemma refill_haveMap (peerId : PeerId) (h : PieceHandler) :
    (refill env peerId h).1.haveMap peerId = h.haveMap peerId := by
  have hfold : ∀ (indices : List ℕ) (h : PieceHandler),
      (indices.foldl (fun h index => addToQueue env peerId index h) h).haveMap peerId =
        h.haveMap peerId := by
    intro indices
    induction indices with
    | nil => exact fun _ => rfl
    | cons index indices ih => exact fun h => ih (addToQueue env peerId index h)
  rw [refill]
  split_ifs
  · exact hfold _ h
  · rfl

lemma Lined.refill (hh : Lined env peerId h) : Lined env peerId (refill env peerId h).1 := by
  rw [PieceHandler.refill]
  split_ifs with hempty
  · have hnil : h.requestMap peerId = [] := List.isEmpty_iff.mp hempty
    have hperm := env.setOrder.perm (h.haveMap peerId)
    refine hh.foldl_addToQueue _ (hperm.nodup_iff.mpr hh.have_nodup)
      (fun index hindex => hperm.mem_iff.mp hindex) ?_
    intro index _ req hreq
    rw [hnil] at hreq
    exact absurd hreq List.not_mem_nil
  · exact hh

/-- Popping leaves a part of the queue. -/
lemma popUnreceived_sublist (h : PieceHandler) (queue : List Request) :
    (popUnreceived h queue).1.Sublist queue := by
  induction queue with
  | nil => exact List.Sublist.refl []
  | cons req queue ih =>
    rw [popUnreceived]
    split_ifs
    · exact ih.cons req
    · exact List.sublist_cons_self req queue

/-- What is popped was not received. -/
lemma unreceived_of_popUnreceived {queue : List Request} {req : Request}
    (hreq : (popUnreceived h queue).2 = some req) :
    (h.receivedPieces req.key).received = false := by
  induction queue with
  | nil => simp [popUnreceived] at hreq
  | cons front queue ih =>
    rw [popUnreceived] at hreq
    split_ifs at hreq with hrec
    · exact ih hreq
    · obtain rfl := Option.some.inj hreq
      exact Bool.not_eq_true _ ▸ hrec

lemma Lined.getPieceRequest (hh : Lined env peerId h) :
    Lined env peerId (getPieceRequest env peerId h).1 := by
  have hfilled := hh.refill
  rw [getPieceRequest_eq]
  split_ifs
  · have hsub := popUnreceived_sublist (PieceHandler.refill env peerId h).1
      ((PieceHandler.refill env peerId h).1.requestMap peerId)
    refine { nodup := ?_, entries := ?_, have_nodup := hfilled.have_nodup }
    · rw [popped_requestMap]
      exact hfilled.nodup.sublist (hsub.map Request.key)
    · intro req hreq
      rw [popped_requestMap] at hreq
      have hhave : (popped peerId (PieceHandler.refill env peerId h).1).haveMap peerId =
          (PieceHandler.refill env peerId h).1.haveMap peerId := rfl
      exact (hfilled.entries req (hsub.subset hreq)).congr hhave
  · exact hfilled

/-- `get_piece_request` gives out what it may. -/
lemma Lined.offered (hh : Lined env peerId h) {req : Request}
    (hreq : (PieceHandler.getPieceRequest env peerId h).2 = some req) :
    Offered env peerId h req := by
  have hfilled := hh.refill
  have hlocal := localTo_refill env peerId h
  rw [getPieceRequest_eq] at hreq
  split_ifs at hreq
  have hmem := mem_of_popUnreceived (.inr hreq)
  have hok := (hfilled.entries req hmem).congr (refill_haveMap env peerId h).symm
  refine { toRequestOk := hok, queued := hmem, unreceived := ?_ }
  rw [← receivedPieces_of_core_eq hlocal.core_eq]
  exact unreceived_of_popUnreceived hreq

/-! ### Runs -/

variable [DecidableEq Digest]

variable (peerId) in
/-- Every call keeps the entries for every peer in order. -/
lemma Lined.call (hh : Lined env peerId h) (c : HandlerCall) :
    Lined env peerId (call env h c) := by
  -- a call for another peer does not touch the entries for this one
  have hother : ∀ {id h'}, LocalTo id h h' → peerId ≠ id → Lined env peerId h' :=
    fun hlocal hne => hh.congr (hlocal.haveMap_eq peerId hne) (hlocal.requestMap_eq peerId hne)
  cases c with
  | haveIndex id index =>
    by_cases hid : peerId = id
    · subst hid
      exact hh.haveIndex index
    · exact hother (localTo_haveIndex env id index h) hid
  | haveBitfield id bitfield =>
    by_cases hid : peerId = id
    · subst hid
      exact hh.haveBitfield bitfield
    · exact hother (localTo_haveBitfield env id bitfield h) hid
  | getPieceRequest id =>
    by_cases hid : peerId = id
    · subst hid
      exact hh.getPieceRequest
    · exact hother (localTo_getPieceRequest env id h) hid
  | received payload =>
    obtain ⟨hhave, hrequest⟩ := received_maps env payload h
    exact hh.congr (congrFun hhave peerId) (congrFun hrequest peerId)

/-- A call that announces pieces of the torrent only enters such pieces only. -/
lemma KnownAt.call (hknown : KnownAt peerId (· < env.torrent.numPieces) h) {c : HandlerCall}
    (hc : HaveInRange env c) : KnownAt peerId (· < env.torrent.numPieces) (call env h c) := by
  have hother : ∀ {id h'}, LocalTo id h h' → peerId ≠ id →
      KnownAt peerId (· < env.torrent.numPieces) h' :=
    fun hlocal hne => hknown.congr (hlocal.haveMap_eq peerId hne) (hlocal.requestMap_eq peerId hne)
  cases c with
  | haveIndex id index =>
    by_cases hid : peerId = id
    · subst hid
      exact hknown.haveIndex env index hc
    · exact hother (localTo_haveIndex env id index h) hid
  | haveBitfield id bitfield =>
    by_cases hid : peerId = id
    · subst hid
      exact hknown.haveBitfield env hc
    · exact hother (localTo_haveBitfield env id bitfield h) hid
  | getPieceRequest id =>
    by_cases hid : peerId = id
    · subst hid
      exact (hknown.getPieceRequest env).1
    · exact hother (localTo_getPieceRequest env id h) hid
  | received payload =>
    obtain ⟨hhave, hrequest⟩ := received_maps env payload h
    exact hknown.congr (congrFun hhave peerId) (congrFun hrequest peerId)

omit [DecidableEq Digest] in
variable (env) in
/-- Before the first call there are no entries. -/
lemma lined_create (peerId : PeerId) : Lined env peerId (create env) where
  nodup := List.nodup_nil
  entries _ hreq := absurd hreq List.not_mem_nil
  have_nodup := List.nodup_nil

variable (env) in
/-- In every state of every run the entries for every peer are in order. -/
lemma lined_along (calls : List HandlerCall) :
    Along (PieceHandler.call env) (fun h => ∀ peerId, Lined env peerId h) (create env) calls :=
  along_of_meets (C := fun _ _ => True) (fun _ c _ hh peerId => (hh peerId).call peerId c)
    (meets_of_forall fun _ _ => trivial) fun peerId => lined_create env peerId

/-- In every state that calls with existing pieces lead to, the queue of every peer holds requests
for different blocks of announced pieces, each with the length of its block, and
`get_piece_request` gives out such a request, for a block that was not received. -/
theorem request_queues_ok (calls : List HandlerCall) (hcalls : ∀ c ∈ calls, HaveInRange env c) :
    Along (call env) (fun h => ∀ peerId, QueueOk env peerId h ∧
        ∀ req, (getPieceRequest env peerId h).2 = some req → Offered env peerId h req)
      (create env) calls := by
  have hstart : ∀ peerId, Entered env peerId (create env) := fun peerId =>
    { toLined := lined_create env peerId
      known := ⟨fun _ hindex => absurd hindex List.not_mem_nil,
        fun _ hreq => absurd hreq List.not_mem_nil⟩ }
  have hrun := along_of_meets (C := fun _ c => HaveInRange env c)
    (P := fun h => ∀ peerId, Entered env peerId h)
    (fun h c hc hh peerId =>
      { toLined := (hh peerId).toLined.call peerId c
        known := (hh peerId).known.call hc }) (meets_of_forall hcalls) hstart
  exact hrun.mono fun h hh peerId =>
    ⟨(hh peerId).toQueueOk, fun req hreq => (hh peerId).offered hreq⟩

/-- The queue of a peer of the torrent of one byte, whose piece is announced, requested, announced
again in a bitfield and requested again. -/
theorem request_queues_sample :
    (∀ c ∈ [HandlerCall.haveIndex [1] 0, .getPieceRequest [1], .haveBitfield [1] [128],
      .getPieceRequest [1]], HaveInRange (sampleEnv [1]) c) ∧
    Along (call (sampleEnv [1])) (fun h => ∀ peerId, QueueOk (sampleEnv [1]) peerId h ∧
        ∀ req, (getPieceRequest (sampleEnv [1]) peerId h).2 = some req →
          Offered (sampleEnv [1]) peerId h req)
      (create (sampleEnv [1])) [.haveIndex [1] 0, .getPieceRequest [1], .haveBitfield [1] [128],
        .getPieceRequest [1]] := by
  have hrange : ∀ c ∈ [HandlerCall.haveIndex [1] 0, .getPieceRequest [1],
      .haveBitfield [1] [128], .getPieceRequest [1]], HaveInRange (sampleEnv [1]) c := by
    intro c hc
    simp only [List.mem_cons, List.not_mem_nil, or_false] at hc
    rcases hc with rfl | rfl | rfl | rfl
    · change 0 < (sampleEnv [1]).torrent.numPieces
      decide
    · trivial
    · change ∀ i ∈ bitfieldIndices [128] 0, i < (sampleEnv [1]).torrent.numPieces
      decide
    · trivial
  exact ⟨hrange, request_queues_ok _ hrange⟩

end PieceHandler

end Tent
