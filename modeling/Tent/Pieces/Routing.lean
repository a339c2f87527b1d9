import Tent.Pieces.Corruption
import Tent.Pieces.Download

/-!
# Which file a slice is written to

`map_block` names the file of a slice by its index, and `write_if_valid` looks its handler up by the
leaf name of that file.  The constructor stores the handlers under the leaf names too, and a name
that is taken keeps its handler.  So the slices of two files with one leaf name go to the first of
them, in whatever directories they lie.  And there has to be a file: the loop of `map_block` may run
past the last one when an offset of the torrent does not fit into 48 bits.  Every slice goes to its
own file exactly if no leaf name occurs twice and the loop ends inside the files for every block
(`slices_routed_iff`).
-/

set_option autoImplicit false

namespace Tent

open Bytes Transition

namespace PieceHandler

variable {Digest : Type*} (env : Env Digest)

/-- The slices of a piece are ranges of the files of the torrent. -/
def SlicesInside (i : ℕ) : Prop :=
  ∀ key ∈ blockKeys env i, ∀ s ∈ env.torrent.mapBlock key.index key.begin blockLen,
    s.offset + s.size ≤ env.torrent.fileSize s.fileIndex

/-- What is written while a piece is written goes to the files it is meant for. -/
structure Routed (h : PieceHandler) : Prop where
  /-- The constructor built a handler for every file, and no two files share one. -/
  handlers : HandlersOwn env h
  /-- Every slice is a range of its file. -/
  inside : ∀ i < env.torrent.numPieces, SlicesInside env i
  /-- The handler that is selected for a slice is that of its file. -/
  selected : ∀ i < env.torrent.numPieces, ∀ key ∈ blockKeys env i,
    ∀ s ∈ env.torrent.mapBlock key.index key.begin blockLen,
      h.fileHandlers.lookup (env.torrent.fileName s.fileIndex) = some s.fileIndex
  /-- The bytes of a slice land in its file, and the other files are left alone. -/
  lands : ∀ i < env.torrent.numPieces, ∀ key ∈ blockKeys env i,
    ∀ s ∈ env.torrent.mapBlock key.index key.begin blockLen,
      (writeSlice env key h s).disk = Function.update h.disk s.fileIndex
        (FileHandler.write env.oob (h.receivedPieces key).block s.offset s.size
          (h.disk s.fileIndex))

variable {env} {h : PieceHandler}

/-- The slices of a piece are ranges of the files exactly if the loop of `map_block` ends inside
the files for each of its blocks. -/
lemma slicesInside_iff {i : ℕ} (hi : i < env.torrent.numPieces) :
    SlicesInside env i ↔
      ∀ key ∈ blockKeys env i, env.torrent.EndsInside key.index key.begin blockLen :=
  forall₂_congr fun _ hkey => env.torrent.mapBlock_inside_iff
    (env.torrent.mappedSize_pos (target_lt_totalSize hi hkey) blockLen_pos)

/-- Handlers of their own send every slice to its file. -/
lemma HandlersOwn.routed (hown : HandlersOwn env h)
    (hinside : ∀ i < env.torrent.numPieces, SlicesInside env i) : Routed env h where
  handlers := hown
  inside := hinside
  selected _ _ _ _ s hs := hown s.fileIndex (env.torrent.mem_mapBlock hs).1
  lands _ _ key _ s hs := by
    have hlookup := hown s.fileIndex (env.torrent.mem_mapBlock hs).1
    simp [writeSlice, hlookup]

/-- Files with handlers of their own have different leaf names. -/
lemma HandlersOwn.nodup (hown : HandlersOwn env h) :
    (env.torrent.files.map FileEntry.name).Nodup := by
  have hname : ∀ f (hf : f < env.torrent.numFiles),
      env.torrent.fileName f = env.torrent.files[f].name := by
    intro f hf
    rw [TorrentInfo.fileName, List.getElem?_eq_getElem hf]
    rfl
  rw [List.nodup_iff_injective_getElem]
  intro f g hfg
  have hf : f.val < env.torrent.numFiles := by simpa [TorrentInfo.numFiles] using f.isLt
  have hg : g.val < env.torrent.numFiles := by simpa [TorrentInfo.numFiles] using g.isLt
  have hsame : env.torrent.fileName f = env.torrent.fileName g := by
    rw [hname f hf, hname g hg]
    simp only [List.getElem_map] at hfg
    exact hfg
  have hlookup := hown f hf
  rw [hsame, hown g hg] at hlookup
  exact Fin.ext (Option.some.inj hlookup).symm

/-! ### Runs -/

variable [DecidableEq Digest]

variable (env) in
/-- No call changes the map of file handlers. -/
lemma call_fileHandlers (h : PieceHandler) (c : HandlerCall) :
    (call env h c).fileHandlers = h.fileHandlers := by
  have hlocal : ∀ {id h'}, LocalTo id h h' → h'.fileHandlers = h.fileHandlers := by
    intro id h' hl
    have hcore : h'.core.fileHandlers = h.core.fileHandlers := by rw [hl.core_eq]
    exact hcore
  cases c with
  | haveIndex id index => exact hlocal (localTo_haveIndex env id index h)
  | haveBitfield id bitfield => exact hlocal (localTo_haveBitfield env id bitfield h)
  | getPieceRequest id => exact hlocal (localTo_getPieceRequest env id h)
  | received payload =>
    apply receivedBlock_cases (P := fun h' => h'.fileHandlers = h.fileHandlers)
    · exact fun _ => rfl
    · exact fun _ _ => rfl
    · exact fun _ _ _ => rfl
    · intro _ _ _
      have hframe := writeFrame_writePiece env (blockKeys env (keyOf env.oob payload).index)
        (hashedPiece env (keyOf env.oob payload).index
          (store (keyOf env.oob payload) (payload.drop 8) h))
      rw [stopIfDone_fileHandlers, (countFrame_writtenPiece env _ _).fileHandlers_eq]
      exact hframe.fileHandlers_eq

/-- In every state of every run each slice of a piece that is written goes to its own file exactly
if the leaf names of the torrent are pairwise distinct and the loop of `map_block` ends inside the
files for every block. -/
theorem slices_routed_iff (env : Env Digest) (calls : List HandlerCall) :
    Along (call env) (Routed env) (create env) calls ↔
      (env.torrent.files.map FileEntry.name).Nodup ∧
        ∀ i < env.torrent.numPieces, ∀ key ∈ blockKeys env i,
          env.torrent.EndsInside key.index key.begin blockLen := by
  constructor
  · intro halong
    have hstart := halong [] List.nil_prefix
    exact ⟨hstart.handlers.nodup, fun i hi => (slicesInside_iff hi).mp (hstart.inside i hi)⟩
  · rintro ⟨hnames, hends⟩
    have hrun : Along (call env) (HandlersOwn env) (create env) calls :=
      along_of_meets (C := fun _ _ => True)
        (fun h c _ hown f hf => (call_fileHandlers env h c).symm ▸ hown f hf)
        (meets_of_forall fun _ _ => trivial) (handlersOwn_create hnames)
    exact hrun.mono fun _ hown => hown.routed fun i hi => (slicesInside_iff hi).mpr (hends i hi)

-- the third file begins at `2 ^ 48`: for its first block the search finds the fourth file, which is
-- too short, though the leaf names are distinct
example :
    ¬ TorrentInfo.EndsInside
      { pieceLength := 2 ^ 30
        files := [⟨[], "a", 2 ^ 47⟩, ⟨[], "b", 2 ^ 47⟩, ⟨[], "c", 2 ^ 30⟩, ⟨[], "d", 2 ^ 30⟩]
        hashForPiece := fun _ => ([] : ByteString)
        pieceLength_pos := by decide
        pieceLength_le := by decide
        files_ne_nil := by decide
        totalSize_lt := by decide } 2 0 blockLen := by
  decide +kernel

/-- A torrent of one piece with the files `a/x` and `b/x`, of one byte each. -/
def twoDirsEnv : Env ByteString where
  torrent :=
    { pieceLength := blockLen
      files := [⟨["a"], "x", 1⟩, ⟨["b"], "x", 1⟩]
      hashForPiece := fun _ => sampleSha1 [2]
      pieceLength_pos := blockLen_pos
      pieceLength_le := (sampleTorrent []).pieceLength_le
      files_ne_nil := by decide
      totalSize_lt := by decide }
  sha1 := sampleSha1
  oob := fun _ _ => 0
  setOrder := (sampleEnv []).setOrder

/-- The second file has no handler of its own, and the byte that is meant for it is written to the
first file. -/
theorem same_leaf_names_share_handler :
    (twoDirsEnv.torrent.files.map FileEntry.path).Nodup ∧
      ¬ Along (call twoDirsEnv) (Routed twoDirsEnv) (create twoDirsEnv) [] ∧
      twoDirsEnv.torrent.mapBlock 0 0 blockLen = [⟨0, 0, 1⟩, ⟨1, 0, 1⟩] ∧
      (create twoDirsEnv).fileHandlers.lookup (twoDirsEnv.torrent.fileName 1) = some 0 := by
  have hlookup :
      (create twoDirsEnv).fileHandlers.lookup (twoDirsEnv.torrent.fileName 1) = some 0 := by
    decide
  refine ⟨by decide, fun halong => ?_, by decide, hlookup⟩
  have hown := (halong [] List.nil_prefix).handlers 1 (by decide)
  rw [run_nil, hlookup] at hown
  exact absurd hown (by decide)

end PieceHandler

end Tent
