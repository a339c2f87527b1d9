import Mathlib.Data.Rat.Floor
import Tent.Pieces.RequestQueues
import Tent.Pieces.Slots

/-!
# The blocks of a piece

`add_to_queue` and `write_if_valid` walk over the blocks of a piece with loops of their own.  Both
compute the number of blocks with `std::ceil` and the begins as `uint32_t` products, and the first
one also the lengths, with a case for the last block.

Here the two loops are functions of the size of the piece, which is any positive `int`.
`blockTiling_enumeratedBlocks` says that the blocks of the first loop tile the piece, and
`checksAndHashes_enumeratedBlocks` that the second loop goes over the same blocks.
-/

set_option autoImplicit false

namespace Tent

open Bytes Segments

/-! ### The two loops -/

/-- The loop of `add_to_queue` over a piece of the given size: begin and length of every block that
was not received. -/
def queuedBlocks (pieceSize : ℕ) (received : ℕ → Bool) : List (ℕ × ℕ) :=
  (List.range (blocksPerPiece pieceSize)).filterMap fun blockInd =>
    if received (blockBegin blockInd) then none
    else
      let blockSize :=
        if blockInd < blocksPerPiece pieceSize - 1 ∨ pieceSize % blockLen = 0 then blockLen
        else pieceSize % blockLen
      some (blockBegin blockInd, blockSize)

/-- The blocks that `add_to_queue` goes over in a piece with no received block. -/
def enumeratedBlocks (pieceSize : ℕ) : List (ℕ × ℕ) := queuedBlocks pieceSize fun _ => false

/-- The loops of `write_if_valid` over a piece of the given size: the begins of the blocks. -/
def checkedBegins (pieceSize : ℕ) : List ℕ :=
  (List.range (blocksPerPiece pieceSize)).map blockBegin

/-- The number of blocks is the quotient, rounded up. -/
lemma blocksPerPiece_eq_ceil (pieceSize : ℕ) :
    blocksPerPiece pieceSize = ⌈(pieceSize : ℚ) / blockLen⌉₊ := by
  have hpos : (0 : ℚ) < blockLen := by exact_mod_cast blockLen_pos
  refine eq_of_forall_lt_iff fun k => ?_
  rw [lt_blocksPerPiece_iff, Nat.lt_ceil, lt_div_iff₀ hpos]
  exact_mod_cast Iff.rfl

/-- The blocks of a piece start at the multiples of the block length and are as long as the block
length and the end of the piece allow. -/
lemma enumeratedBlocks_eq {pieceSize : ℕ} (hmax : pieceSize ≤ intMax) :
    enumeratedBlocks pieceSize = (List.range (blocksPerPiece pieceSize)).map fun k =>
      (k * blockLen, min blockLen (pieceSize - k * blockLen)) := by
  rw [enumeratedBlocks, queuedBlocks, ← List.filterMap_eq_map]
  refine List.filterMap_congr fun k hk => ?_
  have hlt := List.mem_range.mp hk
  rw [if_neg Bool.false_ne_true, PieceHandler.requestLength_eq hlt, blockBegin_eq hmax hlt]
  rfl

/-- Both loops visit the same begins. -/
lemma map_fst_enumeratedBlocks {pieceSize : ℕ} (hmax : pieceSize ≤ intMax) :
    (enumeratedBlocks pieceSize).map Prod.fst = checkedBegins pieceSize := by
  rw [enumeratedBlocks_eq hmax, List.map_map, checkedBegins]
  refine List.map_congr_left fun k hk => ?_
  exact (blockBegin_eq hmax (List.mem_range.mp hk)).symm

/-- The blocks cover a piece of the given size. -/
structure BlockTiling (pieceSize : ℕ) (blocks : List (ℕ × ℕ)) : Prop where
  /-- They follow each other from the start of the piece to its end. -/
  tiles : Tiles 0 blocks pieceSize
  /-- No block is empty. -/
  one_le_length : ∀ b ∈ blocks, 1 ≤ b.2
  /-- No block is longer than the block length. -/
  length_le : ∀ b ∈ blocks, b.2 ≤ blockLen
  /-- The lengths add up to the size of the piece. -/
  sum_eq : (blocks.map Prod.snd).sum = pieceSize

/-- The blocks that `add_to_queue` goes over cover the piece. -/
lemma blockTiling_enumeratedBlocks {pieceSize : ℕ} (hmax : pieceSize ≤ intMax) :
    BlockTiling pieceSize (enumeratedBlocks pieceSize) := by
  have hstart : ∀ k < blocksPerPiece pieceSize, k * blockLen < pieceSize :=
    fun k hk => lt_blocksPerPiece_iff.mp hk
  have hcover : pieceSize ≤ blocksPerPiece pieceSize * blockLen :=
    Nat.not_lt.mp fun h => Nat.lt_irrefl _ (lt_blocksPerPiece_iff.mpr h)
  have htiles : Tiles 0 (enumeratedBlocks pieceSize) pieceSize := by
    have h := tiles_range 0 blockLen pieceSize fun k hk => Nat.le_of_lt (hstart k hk)
    simp only [Nat.zero_add, Nat.min_eq_right hcover] at h
    rw [enumeratedBlocks_eq hmax]
    exact h
  have hmem : ∀ b ∈ enumeratedBlocks pieceSize, 1 ≤ b.2 ∧ b.2 ≤ blockLen := by
    intro b hb
    rw [enumeratedBlocks_eq hmax, List.mem_map] at hb
    rcases hb with ⟨k, hk, rfl⟩
    have hlt := hstart k (List.mem_range.mp hk)
    have hpos := blockLen_pos
    exact ⟨Nat.le_min.mpr ⟨hpos, by omega⟩, Nat.min_le_left _ _⟩
  refine ⟨htiles, fun b hb => (hmem b hb).1, fun b hb => (hmem b hb).2, ?_⟩
  exact (Nat.zero_add _).symm.trans htiles.sum_eq

namespace PieceHandler

variable {Digest : Type*} {env : Env Digest} {index : ℕ} {h : PieceHandler}

/-- The new requests of a piece are those of the loop over its size. -/
lemma newRequests_eq_map :
    newRequests env index h =
      (queuedBlocks (env.torrent.pieceSize index) fun begin =>
        (h.receivedPieces ⟨index, begin⟩).received).map fun b => ⟨index, b.1, b.2⟩ := by
  rw [newRequests, queuedBlocks, List.map_filterMap]
  refine List.filterMap_congr fun k _ => ?_
  cases (h.receivedPieces ⟨index, blockBegin k⟩).received with
  | true => rfl
  | false => rfl

/-- The keys of a piece have the begins of the loops over its size. -/
lemma blockKeys_eq_map :
    blockKeys env index =
      (checkedBegins (env.torrent.pieceSize index)).map fun b => ⟨index, b⟩ := by
  rw [blockKeys, checkedBegins, List.map_map]
  rfl

/-- A piece with no received block is queued as a whole. -/
lemma newRequests_of_unreceived
    (hnone : ∀ key ∈ blockKeys env index, (h.receivedPieces key).received = false) :
    newRequests env index h =
      (enumeratedBlocks (env.torrent.pieceSize index)).map fun b => ⟨index, b.1, b.2⟩ := by
  rw [newRequests_eq_map, enumeratedBlocks, queuedBlocks, queuedBlocks]
  refine congrArg _ (List.filterMap_congr fun k hk => ?_)
  rw [hnone _ (List.mem_map_of_mem hk)]

variable [DecidableEq Digest]

variable (env index h) in
/-- `write_if_valid` goes over the blocks of the piece with these begins. -/
structure ChecksAndHashes (begins : List ℕ) : Prop where
  /-- If one of them was not received, nothing happens. -/
  checks : ∀ b ∈ begins, (h.receivedPieces ⟨index, b⟩).received = false →
    writeIfValid env index h = (h, false)
  /-- If all were received, the hasher finishes once, over what is stored for them in order. -/
  hashes : (∀ b ∈ begins, (h.receivedPieces ⟨index, b⟩).received = true) →
    ∃ rest, (writeIfValid env index h).1.log = h.log ++
        .hashed index (begins.flatMap fun b => (h.receivedPieces ⟨index, b⟩).block) :: rest ∧
      ∀ i bytes, .hashed i bytes ∉ rest

/-- `write_if_valid` checks and hashes the blocks that `add_to_queue` goes over. -/
lemma checksAndHashes_enumeratedBlocks :
    ChecksAndHashes env index h
      ((enumeratedBlocks (env.torrent.pieceSize index)).map Prod.fst) := by
  rw [map_fst_enumeratedBlocks (pieceSize_le_intMax env index)]
  set begins := checkedBegins (env.torrent.pieceSize index) with hbegins
  have hkeys : blockKeys env index = begins.map fun b => ⟨index, b⟩ := blockKeys_eq_map
  have hstored : storedBytes env index h =
      begins.flatMap fun b => (h.receivedPieces ⟨index, b⟩).block := by
    rw [storedBytes, hkeys, List.flatMap_map]
  constructor
  · intro b hb hmissing
    refine writeIfValid_of_missing fun hall => ?_
    have htrue := hall ⟨index, b⟩ (by rw [hkeys]; exact List.mem_map_of_mem hb)
    exact Bool.false_ne_true (hmissing.symm.trans htrue)
  · intro hreceived
    have hall : AllReceived env index h := by
      intro key hkey
      rw [hkeys, List.mem_map] at hkey
      rcases hkey with ⟨b, hb, rfl⟩
      exact hreceived b hb
    rw [← hstored]
    by_cases hhash : env.sha1 (storedBytes env index h) = env.torrent.hashForPiece index
    · have hframe := writeFrame_writePiece env (blockKeys env index) (hashedPiece env index h)
      rcases hframe.log_eq with ⟨writes, hlog, hwrites⟩
      refine ⟨writes ++ [.validated index], ?_, fun i bytes hmem => ?_⟩
      · rw [writeIfValid_of_match hall hhash, writtenPiece, hlog]
        simp [hashedPiece]
      · rcases List.mem_append.mp hmem with hmem | hmem
        · rcases hwrites _ hmem with ⟨range, available, hevent⟩
          cases hevent
        · cases List.mem_singleton.mp hmem
    · refine ⟨[], ?_, fun i bytes hmem => by cases hmem⟩
      rw [writeIfValid_of_mismatch hall hhash]
      rfl

/-- For every positive `int` as the size of a piece, the blocks that `add_to_queue` goes over in a
piece with no received block start at zero, follow each other, are neither empty nor longer than the
block length and make up the piece; no product of a block index and the block length wraps around;
and in every torrent with a piece of this size these are the blocks that are queued, and the ones
that `write_if_valid` checks and hashes. -/
theorem block_tiling {pieceSize : ℕ} (hpos : 1 ≤ pieceSize) (hmax : pieceSize ≤ 2 ^ 31 - 1) :
    BlockTiling pieceSize (enumeratedBlocks pieceSize) ∧ enumeratedBlocks pieceSize ≠ [] ∧
    blocksPerPiece pieceSize = ⌈(pieceSize : ℚ) / blockLen⌉₊ ∧
    (∀ blockInd < blocksPerPiece pieceSize, blockInd * blockLen < uint32Range) ∧
    ∀ (env : Env Digest) (index : ℕ), env.torrent.pieceSize index = pieceSize →
      ∀ h : PieceHandler,
        ((∀ key ∈ blockKeys env index, (h.receivedPieces key).received = false) → ∀ peerId,
          (addToQueue env peerId index h).requestMap peerId = h.requestMap peerId ++
            (enumeratedBlocks pieceSize).map fun b => ⟨index, b.1, b.2⟩) ∧
        ChecksAndHashes env index h ((enumeratedBlocks pieceSize).map Prod.fst) := by
  have htiling := blockTiling_enumeratedBlocks hmax
  refine ⟨htiling, fun hnil => ?_, blocksPerPiece_eq_ceil pieceSize, fun k hk => ?_, ?_⟩
  · have hsum := htiling.sum_eq
    rw [hnil, List.map_nil, List.sum_nil] at hsum
    omega
  · have hlt := lt_blocksPerPiece_iff.mp hk
    have hrange : 2 ^ 31 - 1 < uint32Range := by decide
    omega
  · rintro env index rfl h
    refine ⟨fun hnone peerId => ?_, checksAndHashes_enumeratedBlocks⟩
    rw [addToQueue_requestMap, newRequests_of_unreceived hnone]

/-- The tiling of a piece one byte longer than a block, by a full block and a block of one byte, as
a peer has them queued. -/
theorem block_tiling_sample :
    BlockTiling (blockLen + 1) [(0, blockLen), (blockLen, 1)] ∧
    (addToQueue twoBlockEnv [] 0 (create twoBlockEnv)).requestMap [] =
      [⟨0, 0, blockLen⟩, ⟨0, blockLen, 1⟩] := by
  have hblocks : enumeratedBlocks (blockLen + 1) = [(0, blockLen), (blockLen, 1)] := by decide
  rcases @block_tiling ByteString _ (blockLen + 1) (by decide) (by decide) with
    ⟨htiling, -, -, -, htorrents⟩
  have hqueued := (htorrents twoBlockEnv 0 (by decide) (create twoBlockEnv)).1 (fun _ _ => rfl) []
  rw [hblocks] at htiling hqueued
  exact ⟨htiling, hqueued⟩

end PieceHandler

end Tent
