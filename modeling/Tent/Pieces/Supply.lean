import Tent.Foundation.Refill
import Tent.Pieces.RequestQueues

/-!
# What a peer can still be asked for

`get_piece_request` rebuilds the queue of a peer only when it is empty, and then pops until it finds
a block that was not received.  The rebuilt queue holds every unreceived block of the announced
pieces (`supply`), so a call on an empty queue finds one if there is one.  A queue that is not empty
is popped as it stands: when all of its entries were received from other peers in the meantime, the
call drains it and returns false, whatever else is outstanding (`Stalled`).
-/

set_option autoImplicit false

namespace Tent

open Transition

namespace PieceHandler

variable {Digest : Type*} (env : Env Digest)

/-- The block of the request was not received. -/
def unreceived (h : PieceHandler) (req : Request) : Bool := !(h.receivedPieces req.key).received

/-- What `rebuild_queue` enters for a peer: the unreceived blocks of the announced pieces, in the
order in which the set is walked through. -/
def supply (peerId : PeerId) (h : PieceHandler) : List Request :=
  (env.setOrder.order (h.haveMap peerId)).flatMap fun index => newRequests env index h

/-- Some block of an announced piece was not received. -/
def Outstanding (peerId : PeerId) (h : PieceHandler) : Prop :=
  ∃ index ∈ h.haveMap peerId, ∃ key ∈ blockKeys env index,
    (h.receivedPieces key).received = false

/-- If a block of an announced piece is outstanding, `get_piece_request` returns one. -/
def CompleteAt (peerId : PeerId) (h : PieceHandler) : Prop :=
  Outstanding env peerId h →
    ∃ req, (getPieceRequest env peerId h).2 = some req ∧ req.index ∈ h.haveMap peerId ∧
      req.key ∈ blockKeys env req.index ∧ (h.receivedPieces req.key).received = false

/-- A block is outstanding, but the queue holds received blocks and nothing else. -/
structure Stalled (peerId : PeerId) (h : PieceHandler) : Prop where
  /-- The queue is not empty, so it is not rebuilt. -/
  queue_ne_nil : h.requestMap peerId ≠ []
  /-- All of its blocks were received. -/
  queue_received : ∀ req ∈ h.requestMap peerId, (h.receivedPieces req.key).received = true
  /-- There is something to ask for. -/
  outstanding : Outstanding env peerId h

variable {env} {peerId : PeerId} {h : PieceHandler}

/-! ### The supply -/

/-- The supply holds the unreceived blocks of the announced pieces. -/
lemma mem_map_key_supply {key : PieceReceivedKey} :
    key ∈ (supply env peerId h).map Request.key ↔
      key.index ∈ h.haveMap peerId ∧ key ∈ blockKeys env key.index ∧
        (h.receivedPieces key).received = false := by
  rw [supply, mem_map_key_flatMap, (env.setOrder.perm _).mem_iff]

/-- The supply holds blocks that were not received. -/
lemma unreceived_of_mem_supply {req : Request} (hreq : req ∈ supply env peerId h) :
    (h.receivedPieces req.key).received = false :=
  (mem_map_key_supply.mp (List.mem_map_of_mem hreq)).2.2

/-- The supply depends on the announcements and the received blocks only. -/
lemma supply_congr {h' : PieceHandler} (hcore : h'.core = h.core)
    (hhave : h'.haveMap peerId = h.haveMap peerId) :
    supply env peerId h' = supply env peerId h := by
  unfold supply
  rw [hhave]
  exact List.flatMap_congr fun index _ => newRequests_congr env hcore index

/-- The supply has no block twice if no piece is announced twice. -/
lemma nodup_supply (hnodup : (h.haveMap peerId).Nodup) :
    ((supply env peerId h).map Request.key).Nodup :=
  nodup_map_key_flatMap env ((env.setOrder.perm _).nodup_iff.mpr hnodup) h

/-- There is a supply exactly if a block is outstanding. -/
lemma supply_ne_nil_iff : supply env peerId h ≠ [] ↔ Outstanding env peerId h := by
  constructor
  · intro hne
    obtain ⟨req, hreq⟩ := List.exists_mem_of_ne_nil _ hne
    obtain ⟨hindex, hblock, hrec⟩ := mem_map_key_supply.mp (List.mem_map_of_mem hreq)
    exact ⟨req.index, hindex, req.key, hblock, hrec⟩
  · rintro ⟨index, hindex, key, hblock, hrec⟩ hnil
    obtain rfl := index_of_mem_blockKeys hblock
    have hkey := mem_map_key_supply.mpr ⟨hindex, hblock, hrec⟩
    rw [hnil] at hkey
    exact List.not_mem_nil hkey

/-! ### The queue that is popped -/

/-- A loop of `add_to_queue` appends the requests for its pieces. -/
lemma foldl_addToQueue_requestMap (indices : List ℕ) (h : PieceHandler) :
    (indices.foldl (fun h index => addToQueue env peerId index h) h).requestMap peerId =
      h.requestMap peerId ++ indices.flatMap fun index => newRequests env index h := by
  induction indices generalizing h with
  | nil => simp
  | cons index indices ih =>
    have hcore : (addToQueue env peerId index h).core = h.core := rfl
    have hnew : ∀ k, newRequests env k (addToQueue env peerId index h) = newRequests env k h :=
      newRequests_congr env hcore
    rw [List.foldl_cons, ih, addToQueue_requestMap, List.append_assoc, List.flatMap_cons]
    simp only [hnew]

variable (env) in
/-- The queue that `get_piece_request` pops from. -/
lemma refill_requestMap (peerId : PeerId) (h : PieceHandler) :
    (refill env peerId h).1.requestMap peerId =
      if h.requestMap peerId = [] then supply env peerId h else h.requestMap peerId := by
  unfold refill
  by_cases hempty : h.requestMap peerId = []
  · rw [if_pos (List.isEmpty_iff.mpr hempty), if_pos hempty, rebuildQueue]
    dsimp only
    rw [foldl_addToQueue_requestMap, hempty, List.nil_append]
    rfl
  · rw [if_neg (by simpa using hempty), if_neg hempty]

variable (env) in
/-- There is something to pop exactly if the queue is not empty after all. -/
lemma refill_snd (peerId : PeerId) (h : PieceHandler) :
    (refill env peerId h).2 = !((refill env peerId h).1.requestMap peerId).isEmpty := by
  unfold refill
  split_ifs with hempty
  · rfl
  · simpa using hempty

/-- The queue that is left is what popping leaves of the filled queue. -/
lemma getPieceRequest_requestMap (peerId : PeerId) (h : PieceHandler) :
    (getPieceRequest env peerId h).1.requestMap peerId =
      (popUnreceived h ((refill env peerId h).1.requestMap peerId)).1 := by
  have hpop := popUnreceived_congr (localTo_refill env peerId h).core_eq
    ((refill env peerId h).1.requestMap peerId)
  rw [getPieceRequest_eq]
  split_ifs with hfilled
  · rw [popped_requestMap, hpop]
  · rw [refill_snd, Bool.not_eq_true, Bool.not_eq_false', List.isEmpty_iff] at hfilled
    rw [hfilled, popUnreceived]

variable (env) in
/-- `get_piece_request` announces nothing. -/
lemma getPieceRequest_haveMap (peerId : PeerId) (h : PieceHandler) :
    (getPieceRequest env peerId h).1.haveMap peerId = h.haveMap peerId := by
  rw [getPieceRequest_eq]
  split_ifs
  · exact refill_haveMap env peerId h
  · exact refill_haveMap env peerId h

/-- What is popped from the filled queue is the answer. -/
lemma getPieceRequest_snd (peerId : PeerId) (h : PieceHandler) :
    (getPieceRequest env peerId h).2 =
      (popUnreceived h ((refill env peerId h).1.requestMap peerId)).2 := by
  have hpop := popUnreceived_congr (localTo_refill env peerId h).core_eq
    ((refill env peerId h).1.requestMap peerId)
  rw [getPieceRequest_eq]
  split_ifs with hfilled
  · rw [hpop]
  · rw [refill_snd, Bool.not_eq_true, Bool.not_eq_false', List.isEmpty_iff] at hfilled
    rw [hfilled, popUnreceived]

/-- The loop of `get_piece_request` pops until a block was not received. -/
lemma popUnreceived_eq_pop (h : PieceHandler) (queue : List Request) :
    popUnreceived h queue = Refill.pop (unreceived h) queue := by
  induction queue with
  | nil => rfl
  | cons req queue ih =>
    rw [popUnreceived, Refill.pop, ih]
    change (if (h.receivedPieces req.key).received = true then _ else _) = _
    cases hrec : (h.receivedPieces req.key).received with
    | true => simp [unreceived, hrec]
    | false => simp [unreceived, hrec]

/-- Nothing is popped exactly if all blocks of the queue were received. -/
lemma popUnreceived_eq_none_iff {queue : List Request} :
    (popUnreceived h queue).2 = none ↔
      ∀ req ∈ queue, (h.receivedPieces req.key).received = true := by
  rw [popUnreceived_eq_pop, Refill.pop_snd, List.find?_eq_none]
  simp [unreceived]

/-- `get_piece_request` returns false exactly if the queue is empty and nothing is outstanding, or
if all blocks of the queue were received. -/
lemma getPieceRequest_eq_none_iff :
    (getPieceRequest env peerId h).2 = none ↔
      if h.requestMap peerId = [] then ¬ Outstanding env peerId h
      else ∀ req ∈ h.requestMap peerId, (h.receivedPieces req.key).received = true := by
  rw [getPieceRequest_snd, refill_requestMap, popUnreceived_eq_none_iff]
  split_ifs with hempty
  · rw [← supply_ne_nil_iff, not_not]
    constructor
    · intro hall
      refine List.eq_nil_iff_forall_not_mem.mpr fun req hreq => ?_
      exact Bool.noConfusion ((hall req hreq).symm.trans (unreceived_of_mem_supply hreq))
    · intro hnil req hreq
      rw [hnil] at hreq
      exact absurd hreq List.not_mem_nil
  · rfl

/-! ### Completeness -/

/-- In a state whose entries are in order the answer is complete unless the queue is stalled. -/
lemma Lined.completeAt_iff (hh : Lined env peerId h) :
    CompleteAt env peerId h ↔ ¬ Stalled env peerId h := by
  constructor
  · rintro hcomplete ⟨hne, hrec, hout⟩
    obtain ⟨req, hreq, -⟩ := hcomplete hout
    rw [getPieceRequest_eq_none_iff.mpr (by rwa [if_neg hne])] at hreq
    cases hreq
  · intro hstall hout
    cases hget : (PieceHandler.getPieceRequest env peerId h).2 with
    | none =>
      rw [getPieceRequest_eq_none_iff] at hget
      split_ifs at hget with hempty
      · exact absurd hout hget
      · exact absurd ⟨hempty, hget, hout⟩ hstall
    | some req =>
      have hoffered := hh.offered hget
      refine ⟨req, rfl, hoffered.announced, ?_, hoffered.unreceived⟩
      obtain ⟨k, hk⟩ := hoffered.blockLen_dvd
      have hbegin : req.begin = k * blockLen := hk.trans (Nat.mul_comm _ _)
      exact mem_blockKeys.mpr ⟨rfl, k, hbegin, hbegin ▸ hoffered.begin_lt⟩

variable [DecidableEq Digest]

/-- In every state of every run `get_piece_request` returns an outstanding block of a peer, if there
is one, exactly unless the queue of the peer is not empty and all of its blocks were received. -/
theorem complete_iff_not_stalled (env : Env Digest) (calls : List HandlerCall) :
    Along (call env) (fun h => ∀ peerId, CompleteAt env peerId h ↔ ¬ Stalled env peerId h)
      (create env) calls :=
  (lined_along env calls).mono fun _ hh peerId => (hh peerId).completeAt_iff

/-- Both pieces of a torrent are announced, the first one is requested and does not come, and the
second one, which is left in the queue, comes from another peer. -/
def stallingCalls : List HandlerCall :=
  [.haveIndex [1] 0, .haveIndex [1] 1, .getPieceRequest [1], .received (piecePayload 1 0 [2])]

/-- The next call drains the queue and returns false although the first piece was not received. -/
theorem stale_queue_stalls :
    ¬ Along (call twoPieceEnv) (fun h => ∀ peerId, CompleteAt twoPieceEnv peerId h)
        (create twoPieceEnv) stallingCalls ∧
      (getPieceRequest twoPieceEnv [1]
        (run (call twoPieceEnv) (create twoPieceEnv) stallingCalls)).2 = none := by
  have hnone : (getPieceRequest twoPieceEnv [1]
      (run (call twoPieceEnv) (create twoPieceEnv) stallingCalls)).2 = none := by
    decide +kernel
  refine ⟨fun halong => ?_, hnone⟩
  have hout : Outstanding twoPieceEnv [1]
      (run (call twoPieceEnv) (create twoPieceEnv) stallingCalls) :=
    ⟨0, by decide +kernel, ⟨0, 0⟩, by decide +kernel, by decide +kernel⟩
  obtain ⟨req, hreq, -⟩ := halong.last [1] hout
  rw [hnone] at hreq
  cases hreq

end PieceHandler

end Tent
