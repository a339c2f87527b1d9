import Tent.Pieces.WriteIfValid

/-!
# What the handler knows about a peer

`have_map_` and `request_map_` keep the announcements and the requests of all peers, each under the
id of the peer.  The functions that are called for a peer touch the entries under its id and nothing
else (`LocalTo`), what they give out depends on these entries and on the received blocks only
(`AgreeAt`), and no piece is requested from a peer that is not entered under its id (`KnownAt`).

`received` is called without an id: it changes the blocks and the files, and none of the entries.
-/

set_option autoImplicit false

namespace Tent

open Bytes

namespace PieceHandler

/-- The handler without its entries for peers. -/
def core (h : PieceHandler) : PieceHandler :=
  { h with
    haveMap := fun _ => []
    requestMap := fun _ => [] }

/-- Two states of the handler differ at most in the entries for one peer. -/
structure LocalTo (peerId : PeerId) (h h' : PieceHandler) : Prop where
  /-- Everything but the entries for peers is the same. -/
  core_eq : h'.core = h.core
  /-- The announcements of other peers are the same. -/
  haveMap_eq : ∀ id, id ≠ peerId → h'.haveMap id = h.haveMap id
  /-- The requests for other peers are the same. -/
  requestMap_eq : ∀ id, id ≠ peerId → h'.requestMap id = h.requestMap id

/-- Two states of the handler agree in the entries for one peer and in everything that is not an
entry for a peer. -/
structure AgreeAt (peerId : PeerId) (h₁ h₂ : PieceHandler) : Prop where
  /-- Everything but the entries for peers is the same. -/
  core_eq : h₁.core = h₂.core
  /-- The announcements of the peer are the same. -/
  haveMap_eq : h₁.haveMap peerId = h₂.haveMap peerId
  /-- The requests for the peer are the same. -/
  requestMap_eq : h₁.requestMap peerId = h₂.requestMap peerId

/-- All pieces entered for a peer are of some kind. -/
structure KnownAt (peerId : PeerId) (S : ℕ → Prop) (h : PieceHandler) : Prop where
  /-- The announced pieces are. -/
  have_mem : ∀ index ∈ h.haveMap peerId, S index
  /-- The pieces of the queued requests are. -/
  request_mem : ∀ req ∈ h.requestMap peerId, S req.index

variable {peerId : PeerId} {S : ℕ → Prop} {h h₁ h₂ h₃ : PieceHandler}

lemma LocalTo.refl (peerId : PeerId) (h : PieceHandler) : LocalTo peerId h h :=
  ⟨rfl, fun _ _ => rfl, fun _ _ => rfl⟩

lemma LocalTo.trans (h₁₂ : LocalTo peerId h₁ h₂) (h₂₃ : LocalTo peerId h₂ h₃) :
    LocalTo peerId h₁ h₃ where
  core_eq := h₂₃.core_eq.trans h₁₂.core_eq
  haveMap_eq id hid := (h₂₃.haveMap_eq id hid).trans (h₁₂.haveMap_eq id hid)
  requestMap_eq id hid := (h₂₃.requestMap_eq id hid).trans (h₁₂.requestMap_eq id hid)

/-- A loop of local steps is local. -/
lemma LocalTo.foldl {α : Type*} {f : PieceHandler → α → PieceHandler}
    (hf : ∀ h x, LocalTo peerId h (f h x)) (xs : List α) (h : PieceHandler) :
    LocalTo peerId h (xs.foldl f h) := by
  induction xs generalizing h with
  | nil => exact .refl peerId h
  | cons x xs ih => exact (hf h x).trans (ih (f h x))

/-- A loop of steps that keep two states in agreement keeps them so. -/
lemma AgreeAt.foldl {α : Type*} {f : PieceHandler → α → PieceHandler}
    (hf : ∀ {h₁ h₂}, AgreeAt peerId h₁ h₂ → ∀ x, AgreeAt peerId (f h₁ x) (f h₂ x))
    (hagree : AgreeAt peerId h₁ h₂) (xs : List α) :
    AgreeAt peerId (xs.foldl f h₁) (xs.foldl f h₂) := by
  induction xs generalizing h₁ h₂ with
  | nil => exact hagree
  | cons x xs ih => exact ih (hf hagree x)

/-- A loop over pieces of the right kind enters such pieces only. -/
lemma KnownAt.foldl {f : PieceHandler → ℕ → PieceHandler}
    (hf : ∀ {h}, KnownAt peerId S h → ∀ index, S index → KnownAt peerId S (f h index))
    (hknown : KnownAt peerId S h) {indices : List ℕ} (hindices : ∀ index ∈ indices, S index) :
    KnownAt peerId S (indices.foldl f h) := by
  induction indices generalizing h with
  | nil => exact hknown
  | cons index indices ih =>
    exact ih (hf hknown index (hindices index List.mem_cons_self))
      fun k hk => hindices k (List.mem_cons_of_mem index hk)

lemma KnownAt.mono {S' : ℕ → Prop} (hS : ∀ index, S index → S' index)
    (hknown : KnownAt peerId S h) : KnownAt peerId S' h where
  have_mem index hindex := hS index (hknown.have_mem index hindex)
  request_mem req hreq := hS req.index (hknown.request_mem req hreq)

lemma KnownAt.congr (hhave : h₂.haveMap peerId = h₁.haveMap peerId)
    (hrequest : h₂.requestMap peerId = h₁.requestMap peerId) (hknown : KnownAt peerId S h₁) :
    KnownAt peerId S h₂ where
  have_mem index hindex := hknown.have_mem index (hhave ▸ hindex)
  request_mem req hreq := hknown.request_mem req (hrequest ▸ hreq)

/-- States with the same core have received the same blocks. -/
lemma receivedPieces_of_core_eq (hcore : h₁.core = h₂.core) :
    h₁.receivedPieces = h₂.receivedPieces := by
  have hreceived : h₁.core.receivedPieces = h₂.core.receivedPieces := by rw [hcore]
  exact hreceived

variable {Digest : Type*} (env : Env Digest)

/-! ### Entering a piece -/

/-- The new requests depend on the received blocks only. -/
lemma newRequests_congr (hcore : h₁.core = h₂.core) (index : ℕ) :
    newRequests env index h₁ = newRequests env index h₂ := by
  unfold newRequests
  rw [receivedPieces_of_core_eq hcore]

/-- The requests for a piece are requests for this piece. -/
lemma index_of_mem_newRequests {index : ℕ} {req : Request} (hreq : req ∈ newRequests env index h) :
    req.index = index := by
  rw [newRequests, List.mem_filterMap] at hreq
  obtain ⟨k, -, hk⟩ := hreq
  split_ifs at hk
  · exact congrArg Request.index (Option.some.inj hk).symm
  · exact congrArg Request.index (Option.some.inj hk).symm

/-- The queue after `add_to_queue`. -/
@[simp] lemma addToQueue_requestMap (peerId : PeerId) (index : ℕ) (h : PieceHandler) :
    (addToQueue env peerId index h).requestMap peerId =
      h.requestMap peerId ++ newRequests env index h :=
  Function.update_self _ _ _

lemma localTo_addToQueue (peerId : PeerId) (index : ℕ) (h : PieceHandler) :
    LocalTo peerId h (addToQueue env peerId index h) :=
  ⟨rfl, fun _ _ => rfl, fun _ hid => Function.update_of_ne hid _ _⟩

lemma AgreeAt.addToQueue (hagree : AgreeAt peerId h₁ h₂) (index : ℕ) :
    AgreeAt peerId (addToQueue env peerId index h₁) (addToQueue env peerId index h₂) where
  core_eq := hagree.core_eq
  haveMap_eq := hagree.haveMap_eq
  requestMap_eq := by
    rw [addToQueue_requestMap, addToQueue_requestMap, hagree.requestMap_eq,
      newRequests_congr env hagree.core_eq]

lemma KnownAt.addToQueue (hknown : KnownAt peerId S h) (index : ℕ) (hindex : S index) :
    KnownAt peerId S (addToQueue env peerId index h) where
  have_mem := hknown.have_mem
  request_mem := by
    intro req hreq
    rw [addToQueue_requestMap] at hreq
    rcases List.mem_append.mp hreq with hreq | hreq
    · exact hknown.request_mem req hreq
    · rw [index_of_mem_newRequests env hreq]
      exact hindex

/-! ### A bitfield -/

/-- The first line of `have` that changes something: the piece is announced. -/
def announce (peerId : PeerId) (index : ℕ) (h : PieceHandler) : PieceHandler :=
  { h with haveMap := Function.update h.haveMap peerId (h.haveMap peerId ++ [index]) }

/-- `have` announces a piece and enters its requests, unless it was announced before. -/
lemma haveIndex_eq (peerId : PeerId) (index : ℕ) (h : PieceHandler) :
    haveIndex env peerId index h =
      if index ∈ h.haveMap peerId then h
      else addToQueue env peerId index (announce peerId index h) :=
  rfl

/-- The announcements after one more. -/
@[simp] lemma announce_haveMap (peerId : PeerId) (index : ℕ) (h : PieceHandler) :
    (announce peerId index h).haveMap peerId = h.haveMap peerId ++ [index] :=
  Function.update_self _ _ _

lemma localTo_haveIndex (peerId : PeerId) (index : ℕ) (h : PieceHandler) :
    LocalTo peerId h (haveIndex env peerId index h) := by
  rw [haveIndex_eq]
  split_ifs
  · exact .refl peerId h
  · have hannounce : LocalTo peerId h (announce peerId index h) :=
      ⟨rfl, fun _ hid => Function.update_of_ne hid _ _, fun _ _ => rfl⟩
    exact hannounce.trans (localTo_addToQueue env peerId index _)

lemma AgreeAt.haveIndex (hagree : AgreeAt peerId h₁ h₂) (index : ℕ) :
    AgreeAt peerId (haveIndex env peerId index h₁) (haveIndex env peerId index h₂) := by
  rw [haveIndex_eq, haveIndex_eq, hagree.haveMap_eq]
  split_ifs
  · exact hagree
  · have hannounce : AgreeAt peerId (announce peerId index h₁) (announce peerId index h₂) :=
      ⟨hagree.core_eq, by rw [announce_haveMap, announce_haveMap, hagree.haveMap_eq],
        hagree.requestMap_eq⟩
    exact hannounce.addToQueue env index

lemma KnownAt.haveIndex (hknown : KnownAt peerId S h) (index : ℕ) (hindex : S index) :
    KnownAt peerId S (haveIndex env peerId index h) := by
  rw [haveIndex_eq]
  split_ifs
  · exact hknown
  · have hannounce : KnownAt peerId S (announce peerId index h) := by
      refine ⟨fun k hk => ?_, hknown.request_mem⟩
      rw [announce_haveMap] at hk
      rcases List.mem_append.mp hk with hk | hk
      · exact hknown.have_mem k hk
      · rw [List.mem_singleton.mp hk]
        exact hindex
    exact hannounce.addToQueue env index hindex

lemma localTo_haveBitfield (peerId : PeerId) (bitfield : ByteString) (h : PieceHandler) :
    LocalTo peerId h (haveBitfield env peerId bitfield h) :=
  .foldl (fun h index => localTo_haveIndex env peerId index h) _ h

lemma AgreeAt.haveBitfield (hagree : AgreeAt peerId h₁ h₂) (bitfield : ByteString) :
    AgreeAt peerId (haveBitfield env peerId bitfield h₁) (haveBitfield env peerId bitfield h₂) :=
  .foldl (fun hagree index => hagree.haveIndex env index) hagree _

lemma KnownAt.haveBitfield (hknown : KnownAt peerId S h) {bitfield : ByteString}
    (hbitfield : ∀ index ∈ bitfieldIndices bitfield 0, S index) :
    KnownAt peerId S (haveBitfield env peerId bitfield h) :=
  .foldl (fun hknown index hindex => hknown.haveIndex env index hindex) hknown hbitfield

/-! ### The next request -/

lemma localTo_refill (peerId : PeerId) (h : PieceHandler) :
    LocalTo peerId h (refill env peerId h).1 := by
  rw [refill]
  split_ifs
  · exact .foldl (fun h index => localTo_addToQueue env peerId index h) _ h
  · exact .refl peerId h

lemma AgreeAt.refill (hagree : AgreeAt peerId h₁ h₂) :
    AgreeAt peerId (refill env peerId h₁).1 (refill env peerId h₂).1 ∧
      (refill env peerId h₁).2 = (refill env peerId h₂).2 := by
  rw [PieceHandler.refill, PieceHandler.refill, hagree.requestMap_eq]
  split_ifs
  · have hrebuilt :
        AgreeAt peerId (rebuildQueue env peerId h₁).1 (rebuildQueue env peerId h₂).1 := by
      unfold rebuildQueue
      rw [hagree.haveMap_eq]
      exact .foldl (fun hagree index => hagree.addToQueue env index) hagree _
    refine ⟨hrebuilt, ?_⟩
    change (!((rebuildQueue env peerId h₁).1.requestMap peerId).isEmpty) =
      !((rebuildQueue env peerId h₂).1.requestMap peerId).isEmpty
    rw [hrebuilt.requestMap_eq]
  · exact ⟨hagree, rfl⟩

lemma KnownAt.refill (hknown : KnownAt peerId S h) : KnownAt peerId S (refill env peerId h).1 := by
  rw [PieceHandler.refill]
  split_ifs
  · refine .foldl (fun hknown index hindex => hknown.addToQueue env index hindex) hknown ?_
    intro index hindex
    exact hknown.have_mem index ((env.setOrder.perm _).mem_iff.mp hindex)
  · exact hknown

/-- Popping depends on the received blocks only. -/
lemma popUnreceived_congr (hcore : h₁.core = h₂.core) (queue : List Request) :
    popUnreceived h₁ queue = popUnreceived h₂ queue := by
  induction queue with
  | nil => rfl
  | cons req queue ih => rw [popUnreceived, popUnreceived, receivedPieces_of_core_eq hcore, ih]

/-- What is popped and what remains was in the queue. -/
lemma mem_of_popUnreceived {queue : List Request} {req : Request}
    (hreq : req ∈ (popUnreceived h queue).1 ∨ (popUnreceived h queue).2 = some req) :
    req ∈ queue := by
  induction queue with
  | nil => simp [popUnreceived] at hreq
  | cons front queue ih =>
    rw [popUnreceived] at hreq
    split_ifs at hreq
    · exact List.mem_cons_of_mem front (ih hreq)
    · rcases hreq with hreq | hreq
      · exact List.mem_cons_of_mem front hreq
      · rw [Option.some.inj hreq]
        exact List.mem_cons_self

/-- `get_piece_request` replaces the queue of the peer in the filled handler. -/
def popped (peerId : PeerId) (h : PieceHandler) : PieceHandler :=
  { h with
    requestMap :=
      Function.update h.requestMap peerId (popUnreceived h (h.requestMap peerId)).1 }

/-- `get_piece_request` fills the queue and pops from it. -/
lemma getPieceRequest_eq (peerId : PeerId) (h : PieceHandler) :
    getPieceRequest env peerId h =
      if (refill env peerId h).2 then
        (popped peerId (refill env peerId h).1,
          (popUnreceived (refill env peerId h).1 ((refill env peerId h).1.requestMap peerId)).2)
      else ((refill env peerId h).1, none) :=
  rfl

/-- The queue after popping. -/
@[simp] lemma popped_requestMap (peerId : PeerId) (h : PieceHandler) :
    (popped peerId h).requestMap peerId = (popUnreceived h (h.requestMap peerId)).1 :=
  Function.update_self _ _ _

lemma localTo_getPieceRequest (peerId : PeerId) (h : PieceHandler) :
    LocalTo peerId h (getPieceRequest env peerId h).1 := by
  have hpopped : ∀ h, LocalTo peerId h (popped peerId h) := fun _ =>
    ⟨rfl, fun _ _ => rfl, fun _ hid => Function.update_of_ne hid _ _⟩
  rw [getPieceRequest_eq]
  split_ifs
  · exact (localTo_refill env peerId h).trans (hpopped _)
  · exact localTo_refill env peerId h

lemma AgreeAt.getPieceRequest (hagree : AgreeAt peerId h₁ h₂) :
    AgreeAt peerId (getPieceRequest env peerId h₁).1 (getPieceRequest env peerId h₂).1 ∧
      (getPieceRequest env peerId h₁).2 = (getPieceRequest env peerId h₂).2 := by
  obtain ⟨hfilled, hflag⟩ := hagree.refill env
  have hpop := popUnreceived_congr hfilled.core_eq
    ((PieceHandler.refill env peerId h₂).1.requestMap peerId)
  rw [getPieceRequest_eq, getPieceRequest_eq, hflag]
  split_ifs
  · refine ⟨⟨hfilled.core_eq, hfilled.haveMap_eq, ?_⟩, ?_⟩
    · rw [popped_requestMap, popped_requestMap, hfilled.requestMap_eq, hpop]
    · rw [hfilled.requestMap_eq, hpop]
  · exact ⟨hfilled, rfl⟩

lemma KnownAt.getPieceRequest (hknown : KnownAt peerId S h) :
    KnownAt peerId S (getPieceRequest env peerId h).1 ∧
      ∀ req, (getPieceRequest env peerId h).2 = some req → S req.index := by
  have hfilled := hknown.refill env
  rw [getPieceRequest_eq]
  split_ifs
  · refine ⟨⟨hfilled.have_mem, fun req hreq => ?_⟩, fun req hreq => ?_⟩
    · rw [popped_requestMap] at hreq
      exact hfilled.request_mem req (mem_of_popUnreceived (.inl hreq))
    · exact hfilled.request_mem req (mem_of_popUnreceived (.inr hreq))
  · exact ⟨hfilled, fun req hreq => absurd hreq (by simp)⟩

/-! ### A received block -/

lemma writeSlice_core (key : PieceReceivedKey) (h : PieceHandler) (s : FileSlice) :
    (writeSlice env key h s).core = writeSlice env key h.core s := by
  have hhandlers : h.core.fileHandlers = h.fileHandlers := rfl
  unfold writeSlice
  rw [hhandlers]
  cases h.fileHandlers.lookup (env.torrent.fileName s.fileIndex) with
  | none => rfl
  | some file => rfl

lemma writeBlock_core (h : PieceHandler) (key : PieceReceivedKey) :
    (writeBlock env h key).core = writeBlock env h.core key :=
  (List.foldl_hom core fun h s => (writeSlice_core env key h s).symm).symm

lemma writtenPiece_core (index : ℕ) (h : PieceHandler) :
    (writtenPiece env index h).core = writtenPiece env index h.core := by
  have hwrite : ((blockKeys env index).foldl (writeBlock env) (hashedPiece env index h)).core =
      (blockKeys env index).foldl (writeBlock env) (hashedPiece env index h.core) :=
    (List.foldl_hom core fun h key => (writeBlock_core env h key).symm).symm
  have hcount : ∀ w : PieceHandler,
      core { w with
        writtenPieces := w.writtenPieces + 1, log := w.log ++ [.validated index] } =
      { w.core with
        writtenPieces := w.core.writtenPieces + 1, log := w.core.log ++ [.validated index] } :=
    fun _ => rfl
  rw [writtenPiece, writtenPiece, ← hwrite]
  exact hcount _

lemma stopIfDone_core (h : PieceHandler) : (stopIfDone env h).core = stopIfDone env h.core := by
  rw [stopIfDone, stopIfDone]
  change _ = if isDone env h then _ else _
  split_ifs <;> rfl

variable [DecidableEq Digest]

/-- What `received` does to everything else does not depend on the entries for peers. -/
lemma received_core (payload : ByteString) (h : PieceHandler) :
    (received env payload h).core = received env payload h.core := by
  set key := keyOf env.oob payload with hkey
  set data := payload.drop 8 with hdata
  change (receivedBlock env key data h).core = receivedBlock env key data h.core
  apply receivedBlock_cases (P := fun h' => h'.core = receivedBlock env key data h.core)
  · intro hrec
    have hrec' : (h.core.receivedPieces key).received = true := hrec
    rw [receivedBlock, if_pos hrec']
  · intro hrec hall
    have hrec' : (h.core.receivedPieces key).received = false := hrec
    have hall' : ¬ AllReceived env key.index (store key data h.core) := hall
    rw [receivedBlock, hrec', writeIfValid_of_missing hall']
    rfl
  · intro hrec hall hhash
    have hrec' : (h.core.receivedPieces key).received = false := hrec
    have hall' : AllReceived env key.index (store key data h.core) := hall
    rw [receivedBlock, hrec', writeIfValid_of_mismatch hall' hhash]
    rfl
  · intro hrec hall hhash
    have hrec' : (h.core.receivedPieces key).received = false := hrec
    have hall' : AllReceived env key.index (store key data h.core) := hall
    rw [receivedBlock_of_match hrec' hall' hhash, stopIfDone_core, writtenPiece_core]
    rfl

/-- `received` leaves the entries for peers alone. -/
lemma received_maps (payload : ByteString) (h : PieceHandler) :
    (received env payload h).haveMap = h.haveMap ∧
      (received env payload h).requestMap = h.requestMap := by
  set key := keyOf env.oob payload with hkey
  apply receivedBlock_cases
    (P := fun h' => h'.haveMap = h.haveMap ∧ h'.requestMap = h.requestMap)
  · exact fun _ => ⟨rfl, rfl⟩
  · exact fun _ _ => ⟨rfl, rfl⟩
  · exact fun _ _ _ => ⟨rfl, rfl⟩
  · intro _ _ _
    have hframe := writeFrame_writePiece env (blockKeys env key.index)
      (hashedPiece env key.index (store key (payload.drop 8) h))
    have hcount := countFrame_writtenPiece env key.index (store key (payload.drop 8) h)
    rw [stopIfDone_haveMap, stopIfDone_requestMap, hcount.haveMap_eq, hcount.requestMap_eq]
    exact ⟨hframe.haveMap_eq, hframe.requestMap_eq⟩

end PieceHandler

end Tent
