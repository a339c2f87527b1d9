import Tent.Foundation.Transition
import Tent.Pieces.Queues

/-!
# Corrupt blocks

Runs of the piece handler over `have`, `get_piece_request` and `received` calls with blocks of any
content, and the question whether a piece can get stuck: all of its blocks received, and still not
written.

Only `received` moves the flags, and nothing takes a flag back.  So a piece whose last missing block
arrives while the stored bytes have the wrong hash keeps all of its flags and is never written: its
blocks are neither requested nor stored again.  `recovers_iff_no_corrupt_completion` says that this
is the only way to get stuck.
-/

set_option autoImplicit false

namespace Tent

open Bytes Transition

/-- A call of the piece handler. -/
inductive HandlerCall where
  /-- `have(peer_id, index)`. -/
  | haveIndex (peerId : PeerId) (index : ℕ)
  /-- `have(peer_id, bitfield)`. -/
  | haveBitfield (peerId : PeerId) (bitfield : ByteString)
  /-- `get_piece_request(peer_id)`. -/
  | getPieceRequest (peerId : PeerId)
  /-- `received(piece)`. -/
  | received (payload : ByteString)
deriving DecidableEq, Repr

namespace PieceHandler

variable {Digest : Type*} (env : Env Digest)

/-! ### Runs over arbitrary blocks -/

/-- The piece indices of a call lie in the torrent. -/
def InRange : HandlerCall → Prop
  | .haveIndex _ index => index < env.torrent.numPieces
  | .haveBitfield _ bitfield => ∀ i ∈ bitfieldIndices bitfield 0, i < env.torrent.numPieces
  | .getPieceRequest _ => True
  | .received payload => (keyOf env.oob payload).index < env.torrent.numPieces

/-- Every piece that was not written has a block that was not received. -/
def NoWedge (h : PieceHandler) : Prop :=
  ∀ i < env.torrent.numPieces, .validated i ∉ h.log →
    ∃ key ∈ blockKeys env i, (h.receivedPieces key).received = false

/-- The bytes of the piece when `data` arrives for `key`. -/
def assembled (h : PieceHandler) (key : PieceReceivedKey) (data : ByteString) : ByteString :=
  (blockKeys env key.index).flatMap fun k =>
    if k = key then (h.receivedPieces k).block ++ data else (h.receivedPieces k).block

/-- The block is the last missing one of a piece that was not written, and the bytes of the piece
have the wrong hash. -/
structure CompletesCorrupt (h : PieceHandler) (key : PieceReceivedKey) (data : ByteString) :
    Prop where
  /-- The piece was not written. -/
  unwritten : .validated key.index ∉ h.log
  /-- The block was not received. -/
  unreceived : (h.receivedPieces key).received = false
  /-- Every other block of the piece was received. -/
  others : ∀ k ∈ blockKeys env key.index, k ≠ key → (h.receivedPieces k).received = true
  /-- The bytes have the wrong hash. -/
  corrupt : env.sha1 (assembled env h key data) ≠ env.torrent.hashForPiece key.index

/-- The call does not complete a piece with corrupt bytes. -/
def NotCorrupt (h : PieceHandler) : HandlerCall → Prop
  | .received payload => ¬ CompletesCorrupt env h (keyOf env.oob payload) (payload.drop 8)
  | _ => True

variable [DecidableEq Digest]

/-- One call. -/
def call (h : PieceHandler) : HandlerCall → PieceHandler
  | .haveIndex peerId index => haveIndex env peerId index h
  | .haveBitfield peerId bitfield => haveBitfield env peerId bitfield h
  | .getPieceRequest peerId => (getPieceRequest env peerId h).1
  | .received payload => received env payload h

/-- A failed check of a complete piece is recovered from: all blocks of the piece are unreceived
again, and a delivery of bytes with the right hash, block by block, completes the piece. -/
def Recovers (h : PieceHandler) : HandlerCall → Prop
  | .received payload =>
      let i := (keyOf env.oob payload).index
      CompletesCorrupt env h (keyOf env.oob payload) (payload.drop 8) →
        (∀ k ∈ blockKeys env i, ((received env payload h).receivedPieces k).received = false) ∧
        ∀ blocks : PieceReceivedKey → ByteString,
          env.sha1 ((blockKeys env i).flatMap blocks) = env.torrent.hashForPiece i →
          .validated i ∈ ((blockKeys env i).foldl
            (fun h k => receivedBlock env k (blocks k) h) (received env payload h)).log
  | _ => True

variable {env}

omit [DecidableEq Digest] in
/-- Before anything was received no piece is stuck. -/
lemma noWedge_create : NoWedge env (create env) := by
  intro i hi _
  obtain ⟨key, hkey⟩ := List.exists_mem_of_ne_nil _ (blockKeys_ne_nil hi)
  exact ⟨key, hkey, rfl⟩

omit [DecidableEq Digest] in
/-- The entries for peers do not get a piece stuck. -/
lemma NoWedge.of_core_eq {h h' : PieceHandler} (hcore : h'.core = h.core) (hh : NoWedge env h) :
    NoWedge env h' := by
  have hlog : h'.core.log = h.core.log := by rw [hcore]
  intro i hi hvalid
  rw [receivedPieces_of_core_eq hcore]
  exact hh i hi fun hmem => hvalid (hlog ▸ hmem)

omit [DecidableEq Digest] in
/-- The stored bytes of the piece after a block is stored are the assembled ones. -/
lemma storedBytes_store (h : PieceHandler) (key : PieceReceivedKey) (data : ByteString) :
    storedBytes env key.index (store key data h) = assembled env h key data := by
  unfold storedBytes assembled
  congr 1
  funext k
  by_cases hk : k = key
  · simp [store, hk]
  · simp [store, hk]

omit [DecidableEq Digest] in
/-- A block of another piece does not get a piece stuck. -/
lemma exists_missing_store {h : PieceHandler} {key : PieceReceivedKey} (data : ByteString) {i : ℕ}
    (hne : i ≠ key.index)
    (hmissing : ∃ k ∈ blockKeys env i, (h.receivedPieces k).received = false) :
    ∃ k ∈ blockKeys env i, ((store key data h).receivedPieces k).received = false := by
  obtain ⟨k, hk, hrec⟩ := hmissing
  have hk' : k ≠ key := fun heq => hne (by rw [← heq, index_of_mem_blockKeys hk])
  exact ⟨k, hk, by simpa [store, hk'] using hrec⟩

omit [DecidableEq Digest] in
/-- The piece is complete after the block is stored exactly when the other blocks were there. -/
lemma allReceived_store_iff {h : PieceHandler} {key : PieceReceivedKey} {data : ByteString} :
    AllReceived env key.index (store key data h) ↔
      ∀ k ∈ blockKeys env key.index, k ≠ key → (h.receivedPieces k).received = true := by
  unfold AllReceived
  refine forall₂_congr fun k _ => ?_
  by_cases hk : k = key
  · simp [store, hk]
  · simp [store, hk]

/-- In a state without stuck pieces, a delivered block leaves no stuck piece exactly when it does
not complete a piece with corrupt bytes. -/
lemma noWedge_receivedBlock_iff {h : PieceHandler} {key : PieceReceivedKey} {data : ByteString}
    (hi : key.index < env.torrent.numPieces) (hh : NoWedge env h) :
    NoWedge env (receivedBlock env key data h) ↔ ¬ CompletesCorrupt env h key data := by
  apply receivedBlock_cases (P := fun h' => NoWedge env h' ↔ ¬ CompletesCorrupt env h key data)
  · intro hrec
    refine iff_of_true hh fun hcor => ?_
    exact absurd (hrec.symm.trans hcor.unreceived) (by simp)
  · intro _ hall
    refine iff_of_true ?_ fun hcor => hall (allReceived_store_iff.mpr hcor.others)
    intro i hin hlog
    by_cases hne : i = key.index
    · subst hne
      simpa [AllReceived] using hall
    · exact exists_missing_store data hne (hh i hin hlog)
  · intro hrec hall hhash
    rw [storedBytes_store] at hhash
    by_cases hlog : .validated key.index ∈ h.log
    · -- the piece was written before: the block lies off the grid and the check repeats
      refine iff_of_true ?_ fun hcor => hcor.unwritten hlog
      intro i hin hlog'
      have hold : .validated i ∉ h.log := fun hmem => hlog' (List.mem_append_left _ hmem)
      have hne : i ≠ key.index := fun heq => hold (heq ▸ hlog)
      exact exists_missing_store data hne (hh i hin hold)
    · refine iff_of_false ?_ (not_not.mpr ⟨hlog, hrec, allReceived_store_iff.mp hall, hhash⟩)
      intro hwedge
      obtain ⟨k, hk, hfalse⟩ := hwedge key.index hi (by
        simp only [hashedPiece, List.mem_append, List.mem_singleton, reduceCtorEq, or_false]
        exact hlog)
      have htrue : ((store key data h).receivedPieces k).received = true := hall k hk
      rw [show (hashedPiece env key.index (store key data h)).receivedPieces =
        (store key data h).receivedPieces from rfl, htrue] at hfalse
      exact Bool.noConfusion hfalse
  · intro hrec hall hhash
    rw [storedBytes_store] at hhash
    refine iff_of_true ?_ fun hcor => hcor.corrupt hhash
    obtain ⟨writes, hwlog, -⟩ := log_writtenPiece env key.index (store key data h)
    have hmono := (log_prefix_stopIfDone env
      (writtenPiece env key.index (store key data h))).subset
    intro i hin hlog
    have hne : i ≠ key.index := by
      intro heq
      subst heq
      exact hlog (hmono (by rw [hwlog]; simp))
    have hold : .validated i ∉ h.log := by
      intro hmem
      refine hlog (hmono ?_)
      rw [hwlog]
      simp only [List.append_assoc, List.mem_append]
      exact Or.inl hmem
    obtain ⟨k, hk, hrec'⟩ := exists_missing_store data hne (hh i hin hold)
    exact ⟨k, hk, by rw [stopIfDone_receivedPieces, received_writtenPiece, hrec']⟩

/-- In a state without stuck pieces, a call leaves no stuck piece exactly when it does not complete
a piece with corrupt bytes. -/
lemma noWedge_call_iff {h : PieceHandler} {c : HandlerCall} (hc : InRange env c)
    (hh : NoWedge env h) : NoWedge env (call env h c) ↔ NotCorrupt env h c := by
  cases c with
  | haveIndex peerId index =>
    exact iff_of_true (.of_core_eq (localTo_haveIndex env peerId index h).core_eq hh) trivial
  | haveBitfield peerId bitfield =>
    exact iff_of_true (.of_core_eq (localTo_haveBitfield env peerId bitfield h).core_eq hh) trivial
  | getPieceRequest peerId =>
    exact iff_of_true (.of_core_eq (localTo_getPieceRequest env peerId h).core_eq hh) trivial
  | received payload => exact noWedge_receivedBlock_iff hc hh

/-- Along a run no piece is ever stuck, and every failed check of a complete piece is recovered
from, exactly when no call of the run completes a piece with corrupt bytes. -/
theorem recovers_iff_no_corrupt_completion (calls : List HandlerCall)
    (hcalls : ∀ c ∈ calls, InRange env c) :
    (Along (call env) (NoWedge env) (create env) calls ∧
        Meets (call env) (Recovers env) (create env) calls) ↔
      Meets (call env) (NotCorrupt env) (create env) calls := by
  have hexact : Along (call env) (NoWedge env) (create env) calls ↔
      Meets (call env) (NotCorrupt env) (create env) calls :=
    along_iff_meets (V := InRange env) (I := fun _ => True)
      (fun h c hc _ hh => noWedge_call_iff hc hh) (fun _ _ _ _ _ _ => trivial) hcalls trivial
      noWedge_create
  constructor
  · exact fun h => hexact.mp h.1
  · intro hmeets
    refine ⟨hexact.mpr hmeets, fun pre c hpre => ?_⟩
    cases c with
    | received payload => exact fun hcor => absurd hcor (hmeets pre _ hpre)
    | _ => trivial

/-- The exactness statement on a torrent of one byte, for the delivery of the right byte. -/
theorem recovers_iff_sample :
    (∀ c ∈ [HandlerCall.received (piecePayload 0 0 [1])], InRange (sampleEnv [1]) c) ∧
    ((Along (call (sampleEnv [1])) (NoWedge (sampleEnv [1])) (create (sampleEnv [1]))
          [.received (piecePayload 0 0 [1])] ∧
        Meets (call (sampleEnv [1])) (Recovers (sampleEnv [1])) (create (sampleEnv [1]))
          [.received (piecePayload 0 0 [1])]) ↔
      Meets (call (sampleEnv [1])) (NotCorrupt (sampleEnv [1])) (create (sampleEnv [1]))
        [.received (piecePayload 0 0 [1])]) := by
  have hrange : ∀ c ∈ [HandlerCall.received (piecePayload 0 0 [1])],
      InRange (sampleEnv [1]) c := by
    intro c hc
    obtain rfl := List.mem_singleton.mp hc
    change (keyOf (sampleEnv [1]).oob (piecePayload 0 0 [1])).index <
      (sampleEnv [1]).torrent.numPieces
    decide
  exact ⟨hrange, recovers_iff_no_corrupt_completion _ hrange⟩

/-- A single wrong byte wedges the torrent of one byte: after its delivery every block of the piece
counts as received, the piece is not written, and delivering the right byte changes nothing. -/
theorem corrupt_block_wedges :
    ¬ (Along (call (sampleEnv [1])) (NoWedge (sampleEnv [1])) (create (sampleEnv [1]))
          [.received (piecePayload 0 0 [2])] ∧
        Meets (call (sampleEnv [1])) (Recovers (sampleEnv [1])) (create (sampleEnv [1]))
          [.received (piecePayload 0 0 [2])]) ∧
      .validated 0 ∉ (run (call (sampleEnv [1])) (create (sampleEnv [1]))
        [.received (piecePayload 0 0 [2]), .received (piecePayload 0 0 [1])]).log := by
  set wrong := received (sampleEnv [1]) (piecePayload 0 0 [2]) (create (sampleEnv [1])) with hwrong
  have hcall : ∀ h payload, call (sampleEnv [1]) h (.received payload) =
      received (sampleEnv [1]) payload h := fun _ _ => rfl
  have hflag : (wrong.receivedPieces ⟨0, 0⟩).received = true := by decide
  have hlog : .validated 0 ∉ wrong.log := by decide
  constructor
  · rintro ⟨halong, -⟩
    have hstuck := halong.last
    rw [run_cons, run_nil, hcall, ← hwrong] at hstuck
    rcases hstuck 0 (by decide) hlog with ⟨key, hkey, hfalse⟩
    obtain rfl : key = ⟨0, 0⟩ := List.mem_singleton.mp hkey
    exact Bool.false_ne_true (hfalse.symm.trans hflag)
  · -- the right byte comes too late
    have hright : received (sampleEnv [1]) (piecePayload 0 0 [1]) wrong = wrong := by
      rw [received, keyOf_piecePayload _ (by decide) (by decide), receivedBlock, if_pos hflag]
    rw [run_cons, run_cons, run_nil, hcall, hcall, ← hwrong, hright]
    exact hlog

end PieceHandler

end Tent
