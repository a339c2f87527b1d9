import Tent.Digest.Streaming
import Tent.Pieces.WriteIfValid

/-!
# The hasher of a piece

`piece_handler::write_if_valid` once more, with `lt::hasher` in the place of a hash function: the
blocks of a piece go into the hasher one after the other until one is missing.  Each call has a
hasher of its own, whose buffer holds whatever was on the stack.

`received_hashed` says that over any run of `received` this is the handler whose hash function is
SHA-1, as long as every message is shorter than 2^29 bytes.
-/

set_option autoImplicit false

namespace Tent

open Bytes SecureHash

namespace PieceHandler

section Hashed

variable (env : Env ByteString) (endian : Endian)

/-- The first loop of `write_if_valid`: the hasher over the blocks, unless one is missing. -/
def hashBlocks (h : PieceHandler) : List PieceReceivedKey → Sha1Ctx → Option (Option Sha1Ctx)
  | [], hasher => some (some hasher)
  | key :: keys, hasher =>
    if (h.receivedPieces key).received then
      (sha1Update endian hasher (h.receivedPieces key).block).bind (hashBlocks h keys)
    else
      some none

/-- `piece_handler::write_if_valid` with a hasher. -/
def writeIfValidHashed (buffer : Sha1Buffer) (index : ℕ) (h : PieceHandler) :
    Option (PieceHandler × Bool) :=
  let keys := blockKeys env index
  (hashBlocks endian h keys (sha1Init buffer)).bind fun hasher =>
    match hasher with
    | none => some (h, false)
    | some hasher =>
      (sha1Final endian hasher).map fun digest =>
        let h := { h with log := h.log ++
          [.hashed index (keys.flatMap fun key => (h.receivedPieces key).block)] }
        if digest = env.torrent.hashForPiece index then
          let h := keys.foldl (writeBlock env) h
          ({ h with
              writtenPieces := h.writtenPieces + 1
              log := h.log ++ [.validated index] }, true)
        else (h, false)

/-- `piece_handler::received` with a hasher. -/
def receivedHashed (buffer : Sha1Buffer) (payload : ByteString) (h : PieceHandler) :
    Option PieceHandler :=
  let key := keyOf env.oob payload
  if (h.receivedPieces key).received then some h
  else
    (writeIfValidHashed env endian buffer key.index (store key (payload.drop 8) h)).map
      fun (h, valid) => if valid && isDone env h then { h with log := h.log ++ [.stop] } else h

/-- The environment whose hash function is SHA-1. -/
def withSha1 (env : Env ByteString) : Env ByteString := { env with sha1 := SecureHash.sha1 }

end Hashed

variable {env : Env ByteString} {endian : Endian} {h : PieceHandler} {index : ℕ}

/-- The hasher over blocks that are there. -/
lemma hashBlocks_of_received {keys : List PieceReceivedKey}
    (hall : ∀ key ∈ keys, (h.receivedPieces key).received = true) (hasher : Sha1Ctx) :
    hashBlocks endian h keys hasher =
      ((keys.map fun key => (h.receivedPieces key).block).foldlM (sha1Update endian)
        hasher).map some := by
  induction keys generalizing hasher with
  | nil => rfl
  | cons key keys ih =>
    obtain ⟨hkey, hkeys⟩ := List.forall_mem_cons.mp hall
    rw [hashBlocks, if_pos hkey, List.map_cons, List.foldlM_cons]
    cases hupdate : sha1Update endian hasher (h.receivedPieces key).block with
    | none => rfl
    | some hasher' => exact ih hkeys hasher'

/-- The hasher over blocks one of which is missing. -/
lemma hashBlocks_of_missing {keys : List PieceReceivedKey}
    (hall : ¬ ∀ key ∈ keys, (h.receivedPieces key).received = true) {message : ByteString}
    {surplus : ℕ} {hasher : Sha1Ctx} (hhasher : Represents message surplus hasher) :
    hashBlocks endian h keys hasher = some none := by
  induction keys generalizing message surplus hasher with
  | nil => exact absurd (fun key hkey => absurd hkey List.not_mem_nil) hall
  | cons key keys ih =>
    rw [hashBlocks]
    by_cases hkey : (h.receivedPieces key).received = true
    · obtain ⟨hasher', hupdate, hhasher'⟩ :=
        sha1Update_represents endian hhasher (h.receivedPieces key).block
      rw [if_pos hkey, hupdate, Option.bind_some]
      exact ih (fun hkeys => hall (List.forall_mem_cons.mpr ⟨hkey, hkeys⟩)) hhasher'
    · rw [if_neg hkey]

/-- `write_if_valid` with a hasher is `write_if_valid` with SHA-1. -/
lemma writeIfValidHashed_eq (buffer : Sha1Buffer)
    (hshort : ∀ key ∈ blockKeys env index, (h.receivedPieces key).block.length < 2 ^ 29) :
    writeIfValidHashed env endian buffer index h = some (writeIfValid (withSha1 env) index h) := by
  by_cases hall : AllReceived env index h
  · have hdigest : hasherDigest endian buffer
        ((blockKeys env index).map fun key => (h.receivedPieces key).block) =
          some (sha1 (storedBytes env index h)) := by
      rw [hasherDigest_of_short endian buffer (by simpa using hshort), storedBytes,
        List.flatMap_def]
    rw [hasherDigest] at hdigest
    obtain ⟨hasher, hrun, hfinal⟩ := Option.bind_eq_some_iff.mp hdigest
    have htrue : ((blockKeys env index).all fun key => (h.receivedPieces key).received) = true :=
      List.all_eq_true.mpr hall
    rw [writeIfValidHashed, hashBlocks_of_received hall, hrun, Option.map_some, Option.bind_some]
    dsimp only
    rw [hfinal, Option.map_some]
    by_cases hhash : sha1 (storedBytes env index h) = env.torrent.hashForPiece index
    · rw [if_pos hhash, @writeIfValid_of_match _ (withSha1 env) _ _ _ hall hhash]
      rfl
    · rw [if_neg hhash, @writeIfValid_of_mismatch _ (withSha1 env) _ _ _ hall hhash]
      rfl
  · rw [writeIfValidHashed, hashBlocks_of_missing hall (represents_init buffer), Option.bind_some,
      @writeIfValid_of_missing _ (withSha1 env) _ _ _ hall]

/-! ### Runs -/

/-- Blocks are shorter than 2^29 bytes, and those that were not received are empty. -/
structure ShortBlocks (h : PieceHandler) : Prop where
  /-- Blocks are short. -/
  length_lt : ∀ key, (h.receivedPieces key).block.length < 2 ^ 29
  /-- Blocks that were not received are empty. -/
  eq_nil : ∀ key, (h.receivedPieces key).received = false → (h.receivedPieces key).block = []

/-- Only what is stored matters. -/
lemma ShortBlocks.congr {h' : PieceHandler} (hshort : ShortBlocks h)
    (hsame : h'.receivedPieces = h.receivedPieces) : ShortBlocks h' where
  length_lt key := by
    rw [hsame]
    exact hshort.length_lt key
  eq_nil key := by
    rw [hsame]
    exact hshort.eq_nil key

/-- One block changes. -/
lemma ShortBlocks.update {h' : PieceHandler} {key : PieceReceivedKey} {b : ReceivedBlock}
    (hshort : ShortBlocks h) (hupdate : h'.receivedPieces = Function.update h.receivedPieces key b)
    (hlength : b.block.length < 2 ^ 29) (hnil : b.received = false → b.block = []) :
    ShortBlocks h' := by
  have hcases : ∀ k, h'.receivedPieces k = b ∨ h'.receivedPieces k = h.receivedPieces k := by
    intro k
    rw [hupdate, Function.update_apply]
    split_ifs
    · exact Or.inl rfl
    · exact Or.inr rfl
  refine ⟨fun k => ?_, fun k => ?_⟩
  · rcases hcases k with hk | hk
    · rwa [hk]
    · rw [hk]
      exact hshort.length_lt k
  · rcases hcases k with hk | hk
    · rwa [hk]
    · rw [hk]
      exact hshort.eq_nil k

/-- There are no blocks in the beginning. -/
lemma shortBlocks_create (env : Env ByteString) : ShortBlocks (create env) where
  length_lt _ := Nat.two_pow_pos 29
  eq_nil _ _ := rfl

/-- A block that is stored is as long as the data. -/
lemma ShortBlocks.store {key : PieceReceivedKey} {data : ByteString} (hshort : ShortBlocks h)
    (hrec : (h.receivedPieces key).received = false) (hdata : data.length < 2 ^ 29) :
    ShortBlocks (store key data h) := by
  refine hshort.update rfl ?_ fun hfalse => absurd hfalse (by simp)
  rwa [hshort.eq_nil key hrec, List.nil_append]

/-- Writing consumes blocks. -/
lemma ShortBlocks.writeSlice (env : Env ByteString) {key : PieceReceivedKey} (s : FileSlice)
    (hshort : ShortBlocks h) : ShortBlocks (writeSlice env key h s) := by
  unfold PieceHandler.writeSlice
  cases h.fileHandlers.lookup (env.torrent.fileName s.fileIndex) with
  | none => exact hshort
  | some file =>
    refine hshort.update rfl ?_ fun hfalse => ?_
    · have hlength := hshort.length_lt key
      rw [List.length_drop]
      omega
    · rw [hshort.eq_nil key hfalse, List.drop_nil]

/-- Writing the blocks of a piece consumes them. -/
lemma ShortBlocks.writePiece (env : Env ByteString) (keys : List PieceReceivedKey)
    (hshort : ShortBlocks h) : ShortBlocks (keys.foldl (writeBlock env) h) := by
  refine List.foldlRecOn keys (writeBlock env) hshort fun h hshort key _ => ?_
  exact List.foldlRecOn _ (PieceHandler.writeSlice env key) hshort fun h hshort s _ =>
    hshort.writeSlice env s

/-- Writing a piece and counting it consumes blocks. -/
lemma ShortBlocks.writtenPiece (env : Env ByteString) (index : ℕ) (hshort : ShortBlocks h) :
    ShortBlocks (writtenPiece env index h) := by
  have hhashed : ShortBlocks (hashedPiece env index h) := hshort.congr rfl
  exact (hhashed.writePiece env (blockKeys env index)).congr rfl

/-- A message that is not too long keeps blocks short. -/
lemma ShortBlocks.received {payload : ByteString} (hshort : ShortBlocks h)
    (hpayload : payload.length < 2 ^ 29) : ShortBlocks (received (withSha1 env) payload h) := by
  have hdata : (payload.drop 8).length < 2 ^ 29 := by
    rw [List.length_drop]
    omega
  refine receivedBlock_cases (fun _ => hshort) (fun hrec _ => hshort.store hrec hdata)
    (fun hrec _ _ => (hshort.store hrec hdata).congr rfl) fun hrec _ _ => ?_
  exact ((hshort.store hrec hdata).writtenPiece _ _).congr (stopIfDone_receivedPieces _)

/-- `received` with a hasher is `received` with SHA-1. -/
lemma receivedHashed_eq (buffer : Sha1Buffer) {payload : ByteString} (hshort : ShortBlocks h)
    (hpayload : payload.length < 2 ^ 29) :
    receivedHashed env endian buffer payload h = some (received (withSha1 env) payload h) := by
  have hdata : (payload.drop 8).length < 2 ^ 29 := by
    rw [List.length_drop]
    omega
  have hkey : keyOf (withSha1 env).oob payload = keyOf env.oob payload := rfl
  unfold receivedHashed PieceHandler.received receivedBlock
  dsimp only
  rw [hkey]
  by_cases hrec : (h.receivedPieces (keyOf env.oob payload)).received = true
  · rw [if_pos hrec, if_pos hrec]
  · have hstored := hshort.store (Bool.not_eq_true _ ▸ hrec) hdata
    rw [if_neg hrec, if_neg hrec, writeIfValidHashed_eq buffer fun key _ => hstored.length_lt key,
      Option.map_some]
    rfl

/-- Over any run of `received` the handler with a hasher is the handler with SHA-1, whatever the
buffers of the hashers hold. -/
theorem received_hashed (env : Env ByteString) (endian : Endian)
    {messages : List (Sha1Buffer × ByteString)}
    (hmessages : ∀ m ∈ messages, m.2.length < 2 ^ 29) :
    messages.foldlM (fun h m => receivedHashed env endian m.1 m.2 h) (create env) =
      some (messages.foldl (fun h m => received (withSha1 env) m.2 h) (create env)) := by
  suffices hrun : ∀ h, ShortBlocks h →
      messages.foldlM (fun h m => receivedHashed env endian m.1 m.2 h) h =
        some (messages.foldl (fun h m => received (withSha1 env) m.2 h) h) from
    hrun _ (shortBlocks_create env)
  induction messages with
  | nil => exact fun h _ => rfl
  | cons m messages ih =>
    intro h hshort
    obtain ⟨hm, hrest⟩ := List.forall_mem_cons.mp hmessages
    rw [List.foldlM_cons, receivedHashed_eq m.1 hshort hm, List.foldl_cons]
    exact ih hrest _ (hshort.received hm)

/-- A torrent with a piece of two blocks. -/
def twoUpdatesEnv : Env ByteString where
  torrent :=
    { pieceLength := 2 * blockLen
      files := [⟨[], "a", 2 * blockLen⟩]
      hashForPiece := fun _ => sha1 [1, 2]
      pieceLength_pos := two_blockLen_pos
      pieceLength_le := two_blockLen_le
      files_ne_nil := by decide
      totalSize_lt := by decide }
  sha1 := sha1
  oob := fun _ _ => 0
  setOrder := (sampleEnv []).setOrder

/-- The second block of such a piece and then the first one, with hashers whose buffers differ. -/
theorem received_hashed_sample :
    [((⟨List.replicate 64 7, rfl⟩ : Sha1Buffer), piecePayload 0 blockLen [2]),
        (⟨List.replicate 64 0, rfl⟩, piecePayload 0 0 [1])].foldlM
        (fun h m => receivedHashed twoUpdatesEnv .little m.1 m.2 h) (create twoUpdatesEnv) =
      some ([((⟨List.replicate 64 7, rfl⟩ : Sha1Buffer), piecePayload 0 blockLen [2]),
        (⟨List.replicate 64 0, rfl⟩, piecePayload 0 0 [1])].foldl
        (fun h m => received (withSha1 twoUpdatesEnv) m.2 h) (create twoUpdatesEnv)) :=
  received_hashed twoUpdatesEnv .little (by decide)

end PieceHandler

end Tent
