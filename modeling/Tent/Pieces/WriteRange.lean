import Tent.Pieces.Routing
import Tent.Pieces.Slots

/-!
# The range that writing a piece touches

`add_to_queue` requests the blocks of a piece with the lengths that they have, the last one cut off
at the end of the piece.  `write_if_valid` maps every block with the constant `BLOCK_LEN`, and
`map_block` cuts off at the end of the torrent only.  So the last block of a piece is written beyond
the end of the piece when the piece is not the last one and no multiple of `BLOCK_LEN`, with bytes
from behind the stored block; a slice of a file whose leaf name is taken is written to another
file; and where an offset does not fit into 48 bits the block may be mapped to another place.

`piece_only_iff` says when the write of a piece leaves everything else alone, whatever the files
hold: exactly if the bytes of every whole block from where `map_block` finds it on, taken at their
offsets in the files that the leaf names lead to, are bytes of the piece.  With distinct leaf names
this comes down to `map_block` finding the blocks and to the end of the last one
(`blocksInside_iff_of_nodup`).
-/

set_option autoImplicit false

namespace Tent

open Bytes Segments Transition

namespace TorrentInfo

variable {Digest : Type*} (t : TorrentInfo Digest)

/-- The file whose handler the constructor stored under the leaf name of a file. -/
def handlerOf (f : ℕ) : Option ℕ := (emplaceHandlers t.files 0 []).lookup (t.fileName f)

/-- The byte of the file is a byte of the piece. -/
def InPiece (i f o : ℕ) : Prop :=
  o < t.fileSize f ∧ i * t.pieceLength ≤ t.position f o ∧
    t.position f o < i * t.pieceLength + t.pieceSize i

/-- The end of the last whole block of a piece, cut off at the end of the torrent. -/
def mappedEnd (i : ℕ) : ℕ :=
  min (i * t.pieceLength + blocksPerPiece (t.pieceSize i) * blockLen) t.totalSize

/-- Every whole block of the piece, from where `map_block` finds it on, ends inside the files, and
each of its bytes, at its offset in the file that the leaf name leads to, is a byte of the piece,
unless that file is empty and cannot be written to. -/
def BlocksInside (i : ℕ) : Prop :=
  ∀ k < blocksPerPiece (t.pieceSize i), t.EndsInside i (k * blockLen) blockLen ∧
    ∀ f < t.numFiles, ∀ o < t.fileSize f, t.foundPosition i (k * blockLen) ≤ t.position f o →
      t.position f o <
          t.foundPosition i (k * blockLen) + t.mappedSize i (k * blockLen) blockLen →
        ∀ g, t.handlerOf f = some g → t.fileSize g = 0 ∨ t.InPiece i g o

/-- The last piece and the pieces that are a multiple of the block length end with a block. -/
lemma mappedEnd_eq_iff {i : ℕ} (hi : i < t.numPieces) :
    t.mappedEnd i = i * t.pieceLength + t.pieceSize i ↔
      i + 1 = t.numPieces ∨ blockLen ∣ t.pieceLength := by
  have hsize := t.pieceSize_eq_min hi
  have hcover := t.totalSize_le
  have hend := t.piece_end_le hi
  have hblocks : t.pieceSize i ≤ blocksPerPiece (t.pieceSize i) * blockLen ∧
      (blocksPerPiece (t.pieceSize i) * blockLen = t.pieceSize i ↔
        blockLen ∣ t.pieceSize i) := by
    unfold blocksPerPiece blockLen
    omega
  by_cases hlast : i + 1 = t.numPieces
  · refine iff_of_true ?_ (.inl hlast)
    rw [← hlast, Nat.succ_mul] at hcover
    unfold mappedEnd
    omega
  · have hnext := t.mul_pieceLength_lt (show i + 1 < t.numPieces by omega)
    rw [Nat.succ_mul] at hnext
    have hfull : t.pieceSize i = t.pieceLength := by omega
    have hdvd : blockLen ∣ t.pieceLength ↔ blockLen ∣ t.pieceSize i := by rw [hfull]
    rw [or_iff_right hlast, hdvd, ← hblocks.2]
    unfold mappedEnd
    omega

end TorrentInfo

/-! ### Files that can be written to -/

namespace Disk

variable {Digest : Type*}

/-- Every file has at least its size, and exactly the streams of empty files have failed. -/
structure Writable (t : TorrentInfo Digest) (d : Disk) : Prop where
  /-- The files are long enough. -/
  length_le : ∀ f, t.fileSize f ≤ (d f).content.length
  /-- The streams of empty files have failed, the others are good. -/
  fail_iff : ∀ f, (d f).fail = true ↔ t.fileSize f = 0

/-- The constructors leave files that can be written to. -/
lemma writable_create (t : TorrentInfo Digest) : Writable t (create t) where
  length_le f := by
    unfold create
    rw [(FileHandler.create_spec _).1, List.length_replicate]
  fail_iff f := by
    unfold create
    rw [(FileHandler.create_spec _).2, decide_eq_true_iff]

variable {t : TorrentInfo Digest} {d : Disk}

/-- A failed stream takes nothing. -/
lemma update_of_fail {g : ℕ} (hg : (d g).fail = true) (oob : Oob) (data : ByteString)
    (offset size : ℕ) : Function.update d g (FileHandler.write oob data offset size (d g)) = d := by
  have hwrite : FileHandler.write oob data offset size (d g) = d g := by
    simp [FileHandler.write, OFStream.seekp, OFStream.write, hg]
  rw [hwrite, Function.update_eq_self]

/-- A write keeps the files writable. -/
lemma Writable.update (hd : Writable t d) (oob : Oob) (data : ByteString) (g offset size : ℕ) :
    Writable t (Function.update d g (FileHandler.write oob data offset size (d g))) := by
  cases hfail : (d g).fail with
  | true =>
    rw [update_of_fail hfail]
    exact hd
  | false =>
    have hsize : t.fileSize g ≠ 0 := fun hzero => by
      rw [(hd.fail_iff g).mpr hzero] at hfail
      exact Bool.noConfusion hfail
    rw [FileHandler.write_of_good hfail]
    refine ⟨fun f => ?_, fun f => ?_⟩
    · by_cases hf : f = g
      · subst hf
        rw [Function.update_self]
        exact Nat.le_trans (hd.length_le f) (length_le_length_overwrite _ _ _ _)
      · rw [Function.update_of_ne hf]
        exact hd.length_le f
    · by_cases hf : f = g
      · subst hf
        rw [Function.update_self]
        exact iff_of_false (by simp) hsize
      · rw [Function.update_of_ne hf]
        exact hd.fail_iff f

/-- What a write puts into its range does not depend on what the files held. -/
lemma image_update_of_mem {g o offset size : ℕ} (hg : (d g).fail = false) (oob : Oob)
    (data : ByteString) (hle : offset ≤ o) (hlt : o < offset + size) :
    image (Function.update d g (FileHandler.write oob data offset size (d g))) g o =
      (window oob data 0 size)[o - offset]? := by
  rw [image, Function.update_self, FileHandler.write_of_good hg]
  exact getElem?_overwrite_of_mem 0 _ hle (by rwa [length_window])

/-- A write changes no byte outside of its range. -/
lemma image_update_of_notMem {g f o offset size : ℕ} (oob : Oob) (data : ByteString)
    (ho : o < (d f).content.length) (hout : ¬ (f = g ∧ offset ≤ o ∧ o < offset + size)) :
    image (Function.update d g (FileHandler.write oob data offset size (d g))) f o =
      image d f o := by
  cases hfail : (d g).fail with
  | true => rw [update_of_fail hfail]
  | false =>
    by_cases hf : f = g
    · subst hf
      rw [image, Function.update_self, FileHandler.write_of_good hfail]
      refine getElem?_overwrite_of_notMem 0 ho fun hin => hout ⟨rfl, hin.1, ?_⟩
      simpa using hin.2
    · rw [image, Function.update_of_ne hf]
      rfl

/-- A write inside of a file does not make any file longer. -/
lemma length_update (hd : Writable t d) (oob : Oob) (data : ByteString) {g offset size : ℕ}
    (hle : offset + size ≤ t.fileSize g) (f : ℕ) :
    (Function.update d g (FileHandler.write oob data offset size (d g)) f).content.length =
      (d f).content.length := by
  cases hfail : (d g).fail with
  | true => rw [update_of_fail hfail]
  | false =>
    by_cases hf : f = g
    · subst hf
      have hlen := hd.length_le f
      rw [Function.update_self, FileHandler.write_of_good hfail]
      exact length_overwrite 0 (by rw [length_window]; omega)
    · rw [Function.update_of_ne hf]

end Disk

namespace PieceHandler

variable {Digest : Type*} (env : Env Digest)

/-- The piece is stored as it was requested: all of its blocks are there, each with the length that
was requested, and their bytes have the right hash. -/
structure PieceStored (i : ℕ) (h : PieceHandler) : Prop where
  /-- All blocks were received. -/
  received : AllReceived env i h
  /-- The blocks have the requested lengths. -/
  length_eq : ∀ key ∈ blockKeys env i, (h.receivedPieces key).block.length = slotLen env key
  /-- The bytes have the right hash. -/
  hash_eq : env.sha1 (storedBytes env i h) = env.torrent.hashForPiece i

/-- Only bytes of the piece differ between the files of the two states. -/
def OnlyPiece (i : ℕ) (h h' : PieceHandler) : Prop :=
  ∀ f < env.torrent.numFiles, ∀ o, h'.disk.image f o ≠ h.disk.image f o →
    env.torrent.InPiece i f o

variable {env} {i : ℕ}

/-- The blocks of a piece by their numbers. -/
lemma forall_blockKeys_iff {P : PieceReceivedKey → Prop} :
    (∀ key ∈ blockKeys env i, P key) ↔
      ∀ k < blocksPerPiece (env.torrent.pieceSize i), P ⟨i, k * blockLen⟩ := by
  simp [blockKeys_eq]

/-- A block of a piece begins inside the piece, and inside the torrent. -/
lemma target_lt_of_lt_blocksPerPiece (hi : i < env.torrent.numPieces) {k : ℕ}
    (hk : k < blocksPerPiece (env.torrent.pieceSize i)) :
    k * blockLen < env.torrent.pieceSize i ∧
      i * env.torrent.pieceLength + k * blockLen < env.torrent.totalSize := by
  have hend := env.torrent.piece_end_le hi
  have hlt := lt_blocksPerPiece_iff.mp hk
  omega

/-- With distinct leaf names, a block whose bytes go to the piece is found: the position found
differs from that of the block by a multiple of `2 ^ 48`, and no piece is that long. -/
lemma mapped_of_blocksInside (hnames : (env.torrent.files.map FileEntry.name).Nodup)
    (hi : i < env.torrent.numPieces) (hinside : env.torrent.BlocksInside i) {k : ℕ}
    (hk : k < blocksPerPiece (env.torrent.pieceSize i)) :
    env.torrent.Mapped i (k * blockLen) blockLen := by
  obtain ⟨hends, hbytes⟩ := hinside k hk
  obtain ⟨hbegin, htarget⟩ := target_lt_of_lt_blocksPerPiece hi hk
  have hsize := env.torrent.mappedSize_pos htarget blockLen_pos
  have hmod := env.torrent.foundPosition_mod i (k * blockLen)
  have hfits : env.torrent.foundPosition i (k * blockLen) +
      env.torrent.mappedSize i (k * blockLen) blockLen ≤ env.torrent.totalSize := hends
  obtain ⟨f, hf, o, ho, hp⟩ := env.torrent.exists_position_eq
    (show env.torrent.foundPosition i (k * blockLen) < env.torrent.totalSize by omega)
  have hown : env.torrent.handlerOf f = some f := handlersOwn_create hnames f hf
  refine ⟨?_, hends⟩
  rcases hbytes f hf o ho (by omega) (by omega) f hown with hzero | ⟨-, hle, hlt⟩
  · omega
  · have hpiece := env.torrent.pieceSize_le i
    have hmax := env.torrent.pieceLength_le
    unfold offsetRange at hmod
    unfold intMax at hmax
    omega

/-- With distinct leaf names only two things count: that the blocks are found, and where the last
one ends. -/
lemma blocksInside_iff_of_nodup (hnames : (env.torrent.files.map FileEntry.name).Nodup)
    (hi : i < env.torrent.numPieces) :
    env.torrent.BlocksInside i ↔
      PieceMapped env i ∧ (i + 1 = env.torrent.numPieces ∨ blockLen ∣ env.torrent.pieceLength) := by
  have hown : ∀ f < env.torrent.numFiles, env.torrent.handlerOf f = some f :=
    handlersOwn_create hnames
  have hend := env.torrent.piece_end_le hi
  rw [← env.torrent.mappedEnd_eq_iff hi, PieceMapped, forall_blockKeys_iff]
  constructor
  · intro hinside
    have hmapped := fun k hk => mapped_of_blocksInside hnames hi hinside (k := k) hk
    refine ⟨hmapped, ?_⟩
    by_contra hne
    -- the first byte behind the piece is written with the last block
    have hcover : env.torrent.pieceSize i ≤
        blocksPerPiece (env.torrent.pieceSize i) * blockLen := by
      unfold blocksPerPiece blockLen
      omega
    have hbehind : i * env.torrent.pieceLength + env.torrent.pieceSize i <
          i * env.torrent.pieceLength + blocksPerPiece (env.torrent.pieceSize i) * blockLen ∧
        i * env.torrent.pieceLength + env.torrent.pieceSize i < env.torrent.totalSize := by
      unfold TorrentInfo.mappedEnd at hne
      omega
    have hdiv := Nat.div_add_mod (env.torrent.pieceSize i) blockLen
    have hmod := Nat.mod_lt (env.torrent.pieceSize i) blockLen_pos
    rw [Nat.mul_comm] at hdiv
    have hk : env.torrent.pieceSize i / blockLen <
        blocksPerPiece (env.torrent.pieceSize i) := by
      rw [Nat.div_lt_iff_lt_mul blockLen_pos]
      omega
    obtain ⟨f, hf, o, ho, hp⟩ := env.torrent.exists_position_eq hbehind.2
    have hbytes := (hinside _ hk).2 f hf o ho
    rw [(hmapped _ hk).found_eq, (hmapped _ hk).mappedSize_eq_min] at hbytes
    rcases hbytes (by omega) (by omega) f (hown f hf) with hzero | ⟨-, -, hpiece⟩
    · omega
    · omega
  · rintro ⟨hmapped, heq⟩ k hk
    have hfound : env.torrent.Mapped i (k * blockLen) blockLen := hmapped k hk
    refine ⟨hfound.endsInside, fun f hf o ho hle hlt g hg => ?_⟩
    obtain rfl : f = g := Option.some.inj ((hown f hf).symm.trans hg)
    have hmul := Nat.mul_le_mul_right blockLen (show k + 1 ≤ _ from hk)
    rw [Nat.succ_mul] at hmul
    rw [hfound.found_eq] at hle hlt
    rw [hfound.mappedSize_eq_min] at hlt
    unfold TorrentInfo.mappedEnd at heq
    exact .inr ⟨ho, by omega, by omega⟩

variable (env)

/-! ### The slices of a piece -/

/-- The slices that are written for some blocks, each with its block. -/
def sliceSteps (keys : List PieceReceivedKey) : List (PieceReceivedKey × FileSlice) :=
  keys.flatMap fun key =>
    (env.torrent.mapBlock key.index key.begin blockLen).map (Prod.mk key)

/-- The write of one slice. -/
def sliceStep (h : PieceHandler) (l : PieceReceivedKey × FileSlice) : PieceHandler :=
  writeSlice env l.1 h l.2

/-- Blocks are written slice by slice. -/
lemma foldl_writeBlock_eq_run (keys : List PieceReceivedKey) (h : PieceHandler) :
    keys.foldl (writeBlock env) h = run (sliceStep env) h (sliceSteps env keys) := by
  induction keys generalizing h with
  | nil => rfl
  | cons key keys ih =>
    have hsteps : sliceSteps env (key :: keys) =
        (env.torrent.mapBlock key.index key.begin blockLen).map (Prod.mk key) ++
          sliceSteps env keys := List.flatMap_cons
    rw [List.foldl_cons, ih, hsteps, run_append]
    congr 1
    rw [run, List.foldl_map]
    rfl

variable {env} {h : PieceHandler}

/-- A slice of a piece is one of one of its blocks. -/
lemma mem_sliceSteps_iff {l : PieceReceivedKey × FileSlice} :
    l ∈ sliceSteps env (blockKeys env i) ↔
      ∃ k < blocksPerPiece (env.torrent.pieceSize i), l.1 = ⟨i, k * blockLen⟩ ∧
        l.2 ∈ env.torrent.mapBlock i (k * blockLen) blockLen := by
  rw [sliceSteps, List.mem_flatMap]
  constructor
  · rintro ⟨key, hkey, hl⟩
    obtain ⟨s, hs, rfl⟩ := List.mem_map.mp hl
    rw [blockKeys_eq] at hkey
    obtain ⟨k, hk, rfl⟩ := List.mem_map.mp hkey
    exact ⟨k, List.mem_range.mp hk, rfl, hs⟩
  · rintro ⟨k, hk, hkey, hs⟩
    refine ⟨⟨i, k * blockLen⟩, ?_, List.mem_map.mpr ⟨l.2, hs, Prod.ext hkey.symm rfl⟩⟩
    rw [blockKeys_eq]
    exact List.mem_map.mpr ⟨k, List.mem_range.mpr hk, rfl⟩

/-- The handlers are those that the constructor built. -/
def HandlersBuilt (env : Env Digest) (h : PieceHandler) : Prop :=
  h.fileHandlers = (create env).fileHandlers

/-- The files after the write of a slice. -/
lemma disk_writeSlice (hbuilt : HandlersBuilt env h) (key : PieceReceivedKey) (s : FileSlice) :
    (writeSlice env key h s).disk =
      match env.torrent.handlerOf s.fileIndex with
      | some g => Function.update h.disk g
          (FileHandler.write env.oob (h.receivedPieces key).block s.offset s.size (h.disk g))
      | none => h.disk := by
  have hlookup : h.fileHandlers.lookup (env.torrent.fileName s.fileIndex) =
      env.torrent.handlerOf s.fileIndex := by
    rw [hbuilt]
    rfl
  unfold writeSlice
  rw [hlookup]
  cases env.torrent.handlerOf s.fileIndex with
  | none => rfl
  | some g => rfl

/-- The write of a slice keeps the handlers. -/
lemma HandlersBuilt.sliceStep (hbuilt : HandlersBuilt env h)
    (l : PieceReceivedKey × FileSlice) : HandlersBuilt env (sliceStep env h l) :=
  (writeFrame_writeSlice env l.1 h l.2).fileHandlers_eq.trans hbuilt

/-- The write of a slice keeps the files writable. -/
lemma writable_sliceStep (hbuilt : HandlersBuilt env h) (hd : h.disk.Writable env.torrent)
    (l : PieceReceivedKey × FileSlice) : (sliceStep env h l).disk.Writable env.torrent := by
  unfold sliceStep
  rw [disk_writeSlice hbuilt]
  cases env.torrent.handlerOf l.2.fileIndex with
  | none => exact hd
  | some g => exact hd.update _ _ _ _ _

/-! ### Writes that stay in the piece -/

/-- The files are as long as before, and no byte that is none of the piece has changed. -/
structure Untouched (env : Env Digest) (i : ℕ) (d d' : Disk) : Prop where
  /-- The files have their lengths. -/
  length_eq : ∀ f, (d' f).content.length = (d f).content.length
  /-- The bytes of other pieces are the same. -/
  image_eq : ∀ f o, ¬ env.torrent.InPiece i f o → d'.image f o = d.image f o

/-- A slice whose bytes go to the piece leaves everything else alone. -/
lemma untouched_sliceStep (hbuilt : HandlersBuilt env h) (hd : h.disk.Writable env.torrent)
    {l : PieceReceivedKey × FileSlice} (hpos : 0 < l.2.size)
    (hsafe : ∀ g, env.torrent.handlerOf l.2.fileIndex = some g → env.torrent.fileSize g = 0 ∨
      ∀ o, l.2.offset ≤ o → o < l.2.offset + l.2.size → env.torrent.InPiece i g o) :
    Untouched env i h.disk (sliceStep env h l).disk := by
  unfold sliceStep
  rw [disk_writeSlice hbuilt]
  cases hg : env.torrent.handlerOf l.2.fileIndex with
  | none => exact ⟨fun _ => rfl, fun _ _ _ => rfl⟩
  | some g =>
    rcases hsafe g hg with hzero | hin
    · dsimp only
      rw [Disk.update_of_fail ((hd.fail_iff g).mpr hzero)]
      exact ⟨fun _ => rfl, fun _ _ _ => rfl⟩
    · have hlast := (hin (l.2.offset + l.2.size - 1) (by omega) (by omega)).1
      have hlen := Disk.length_update hd env.oob (h.receivedPieces l.1).block
        (show l.2.offset + l.2.size ≤ env.torrent.fileSize g by omega)
      refine ⟨hlen, fun f o hout => ?_⟩
      by_cases ho : o < (h.disk f).content.length
      · refine Disk.image_update_of_notMem _ _ ho fun hmem => hout ?_
        rw [hmem.1]
        exact hin o hmem.2.1 hmem.2.2
      · have hnew := hlen f
        dsimp only
        rw [Disk.image, Disk.image, List.getElem?_eq_none (by omega),
          List.getElem?_eq_none (by omega)]

/-- If all that is written for a piece goes to the piece, everything else is left alone. -/
lemma untouched_run (hslices : SlicesInside env i) (hinside : env.torrent.BlocksInside i)
    (hbuilt : HandlersBuilt env h) (hd : h.disk.Writable env.torrent) :
    Untouched env i h.disk (run (sliceStep env) h (sliceSteps env (blockKeys env i))).disk := by
  have hsafe : ∀ l ∈ sliceSteps env (blockKeys env i), ∀ g,
      env.torrent.handlerOf l.2.fileIndex = some g → env.torrent.fileSize g = 0 ∨
        ∀ o, l.2.offset ≤ o → o < l.2.offset + l.2.size → env.torrent.InPiece i g o := by
    intro l hl g hg
    obtain ⟨k, hk, -, hs⟩ := mem_sliceSteps_iff.mp hl
    obtain ⟨hends, hbytes⟩ := hinside k hk
    have hle := forall_blockKeys_iff.mp hslices k hk l.2 hs
    refine or_iff_not_imp_left.mpr fun hsize o ho ho' => ?_
    have hsource : o < env.torrent.fileSize l.2.fileIndex := by omega
    obtain ⟨hp, hp'⟩ := (hends.exists_mem_mapBlock_iff hsource).mp ⟨l.2, hs, rfl, ho, ho'⟩
    exact (hbytes _ (env.torrent.mem_mapBlock hs).1 o hsource hp hp' g hg).resolve_left hsize
  have hrun : HandlersBuilt env (run (sliceStep env) h (sliceSteps env (blockKeys env i))) ∧
      (run (sliceStep env) h (sliceSteps env (blockKeys env i))).disk.Writable env.torrent ∧
      Untouched env i h.disk
        (run (sliceStep env) h (sliceSteps env (blockKeys env i))).disk := run_invariant
    (V := fun l => l ∈ sliceSteps env (blockKeys env i))
    (P := fun h' => HandlersBuilt env h' ∧ h'.disk.Writable env.torrent ∧
      Untouched env i h.disk h'.disk)
    (fun h' l hl hh => by
      obtain ⟨hbuilt', hd', hsame⟩ := hh
      obtain ⟨k, -, -, hs⟩ := mem_sliceSteps_iff.mp hl
      have hstep := untouched_sliceStep hbuilt' hd' (env.torrent.mem_mapBlock hs).2 (hsafe l hl)
      exact ⟨hbuilt'.sliceStep l, writable_sliceStep hbuilt' hd' l,
        fun f => (hstep.length_eq f).trans (hsame.length_eq f),
        fun f o hout => (hstep.image_eq f o hout).trans (hsame.image_eq f o hout)⟩)
    (fun _ hl => hl) ⟨hbuilt, hd, fun _ => rfl, fun _ _ _ => rfl⟩
  exact hrun.2.2

/-! ### Writes that leave the piece -/

/-- Two states that differ in the contents of the files only. -/
structure Twin (env : Env Digest) (h₁ h₂ : PieceHandler) : Prop where
  /-- Everything but the files is the same. -/
  eq : h₂ = { h₁ with disk := h₂.disk }
  /-- The handlers are those that the constructor built. -/
  built : HandlersBuilt env h₁
  /-- The files of the first state can be written to. -/
  writable₁ : h₁.disk.Writable env.torrent
  /-- The files of the second state can be written to. -/
  writable₂ : h₂.disk.Writable env.torrent

/-- The handlers of the second state are the built ones too. -/
lemma Twin.built₂ {h₁ h₂ : PieceHandler} (ht : Twin env h₁ h₂) : HandlersBuilt env h₂ := by
  rw [ht.eq]
  exact ht.built

/-- The byte of the file is there, and it is the same on both disks. -/
def SameByte (g o : ℕ) (d₁ d₂ : Disk) : Prop :=
  ∃ x, d₁.image g o = some x ∧ d₂.image g o = some x

/-- The write of a slice keeps two states twins. -/
lemma Twin.sliceStep {h₁ h₂ : PieceHandler} (ht : Twin env h₁ h₂)
    (l : PieceReceivedKey × FileSlice) :
    Twin env (sliceStep env h₁ l) (PieceHandler.sliceStep env h₂ l) := by
  refine ⟨?_, ht.built.sliceStep l, writable_sliceStep ht.built ht.writable₁ l,
    writable_sliceStep ht.built₂ ht.writable₂ l⟩
  rw [ht.eq]
  unfold PieceHandler.sliceStep writeSlice
  cases hlookup : h₁.fileHandlers.lookup (env.torrent.fileName l.2.fileIndex) with
  | none => simp
  | some g => simp

/-- The bytes that a slice writes are the same afterwards, whatever the files held. -/
lemma Twin.sameByte_sliceStep {h₁ h₂ : PieceHandler} (ht : Twin env h₁ h₂)
    {l : PieceReceivedKey × FileSlice} {g o : ℕ}
    (hg : env.torrent.handlerOf l.2.fileIndex = some g) (hsize : env.torrent.fileSize g ≠ 0)
    (hle : l.2.offset ≤ o) (hlt : o < l.2.offset + l.2.size) :
    SameByte g o (PieceHandler.sliceStep env h₁ l).disk (PieceHandler.sliceStep env h₂ l).disk := by
  have hblocks : h₂.receivedPieces = h₁.receivedPieces := by
    rw [ht.eq]
  have hgood : ∀ {d : Disk}, d.Writable env.torrent → (d g).fail = false := by
    intro d hd
    rw [← Bool.not_eq_true, hd.fail_iff g]
    exact hsize
  have hlen : o - l.2.offset <
      (window env.oob (h₁.receivedPieces l.1).block 0 l.2.size).length := by
    rw [length_window]
    omega
  refine ⟨(window env.oob (h₁.receivedPieces l.1).block 0 l.2.size)[o - l.2.offset], ?_, ?_⟩
  · unfold PieceHandler.sliceStep
    rw [disk_writeSlice ht.built, hg]
    exact (Disk.image_update_of_mem (hgood ht.writable₁) _ _ hle hlt).trans
      (List.getElem?_eq_getElem hlen)
  · unfold PieceHandler.sliceStep
    rw [disk_writeSlice ht.built₂, hg, hblocks]
    exact (Disk.image_update_of_mem (hgood ht.writable₂) _ _ hle hlt).trans
      (List.getElem?_eq_getElem hlen)

/-- A byte that is the same on both disks stays so. -/
lemma Twin.keeps_sameByte {h₁ h₂ : PieceHandler} (ht : Twin env h₁ h₂) {g o : ℕ}
    (hsame : SameByte g o h₁.disk h₂.disk) (l : PieceReceivedKey × FileSlice) :
    SameByte g o (PieceHandler.sliceStep env h₁ l).disk (PieceHandler.sliceStep env h₂ l).disk := by
  cases hl : env.torrent.handlerOf l.2.fileIndex with
  | none =>
    unfold PieceHandler.sliceStep
    rw [disk_writeSlice ht.built, disk_writeSlice ht.built₂, hl]
    exact hsame
  | some g' =>
    by_cases hzero : env.torrent.fileSize g' = 0
    · unfold PieceHandler.sliceStep
      rw [disk_writeSlice ht.built, disk_writeSlice ht.built₂, hl]
      dsimp only
      rw [Disk.update_of_fail ((ht.writable₁.fail_iff g').mpr hzero),
        Disk.update_of_fail ((ht.writable₂.fail_iff g').mpr hzero)]
      exact hsame
    · by_cases hin : g = g' ∧ l.2.offset ≤ o ∧ o < l.2.offset + l.2.size
      · obtain ⟨rfl, hle, hlt⟩ := hin
        exact ht.sameByte_sliceStep hl hzero hle hlt
      · obtain ⟨x, hx₁, hx₂⟩ := hsame
        obtain ⟨hlt₁, -⟩ := List.getElem?_eq_some_iff.mp hx₁
        obtain ⟨hlt₂, -⟩ := List.getElem?_eq_some_iff.mp hx₂
        unfold PieceHandler.sliceStep
        rw [disk_writeSlice ht.built, disk_writeSlice ht.built₂, hl]
        exact ⟨x, (Disk.image_update_of_notMem _ _ hlt₁ hin).trans hx₁,
          (Disk.image_update_of_notMem _ _ hlt₂ hin).trans hx₂⟩

/-- A byte that one of the slices writes is the same after all of them, whatever the files held. -/
lemma Twin.sameByte_run {h₁ h₂ : PieceHandler} (ht : Twin env h₁ h₂)
    {steps : List (PieceReceivedKey × FileSlice)} {l : PieceReceivedKey × FileSlice}
    (hl : l ∈ steps) {g o : ℕ} (hg : env.torrent.handlerOf l.2.fileIndex = some g)
    (hsize : env.torrent.fileSize g ≠ 0) (hle : l.2.offset ≤ o)
    (hlt : o < l.2.offset + l.2.size) :
    SameByte g o (run (PieceHandler.sliceStep env) h₁ steps).disk
      (run (PieceHandler.sliceStep env) h₂ steps).disk := by
  obtain ⟨pre, post, rfl⟩ := List.append_of_mem hl
  have hpre : Twin env (run (PieceHandler.sliceStep env) h₁ pre)
      (run (PieceHandler.sliceStep env) h₂ pre) :=
    run_rel (V := fun _ => True) (fun _ _ k _ hk => hk.sliceStep k) (fun _ _ => trivial) ht
  rw [run_append, run_append, run_cons, run_cons]
  -- from the slice on, both the twins and the byte are kept
  refine (run_rel (V := fun _ => True)
    (R := fun h₁ h₂ => Twin env h₁ h₂ ∧ SameByte g o h₁.disk h₂.disk)
    (fun _ _ k _ hk => ⟨hk.1.sliceStep k, hk.1.keeps_sameByte hk.2 k⟩)
    (fun _ _ => trivial) ?_).2
  exact ⟨hpre.sliceStep l, hpre.sameByte_sliceStep hg hsize hle hlt⟩

/-! ### Writing a piece -/

/-- A file with bytes is one of the torrent. -/
lemma lt_numFiles_of_fileSize {t : TorrentInfo Digest} {g : ℕ} (hg : t.fileSize g ≠ 0) :
    g < t.numFiles := by
  by_contra hcon
  refine hg ?_
  rw [TorrentInfo.fileSize, List.getD_eq_default]
  simpa [TorrentInfo.sizes, TorrentInfo.numFiles] using hcon

variable [DecidableEq Digest]

/-- The files after a piece that is stored as it was requested was written. -/
lemma PieceStored.disk_writeIfValid (hstored : PieceStored env i h) (d : Disk) :
    (writeIfValid env i { h with disk := d }).1.disk =
      (run (sliceStep env) (hashedPiece env i { h with disk := d })
        (sliceSteps env (blockKeys env i))).disk := by
  have hall : AllReceived env i { h with disk := d } := hstored.received
  have hhash : env.sha1 (storedBytes env i { h with disk := d }) = env.torrent.hashForPiece i :=
    hstored.hash_eq
  rw [writeIfValid_of_match hall hhash, ← foldl_writeBlock_eq_run]
  exact (countFrame_writtenPiece env i { h with disk := d }).disk_eq

/-- The handlers are the built ones and the files can be written to in every state of every run. -/
lemma built_and_writable_along (env : Env Digest) (calls : List HandlerCall) :
    Along (call env) (fun h => HandlersBuilt env h ∧ h.disk.Writable env.torrent) (create env)
      calls := by
  have hdisk : ∀ {h h' : PieceHandler}, h'.disk = h.disk → h.disk.Writable env.torrent →
      h'.disk.Writable env.torrent := fun heq hd => heq ▸ hd
  refine along_of_meets (C := fun _ _ => True) (fun h c _ hh => ?_)
    (meets_of_forall fun _ _ => trivial) ⟨rfl, Disk.writable_create env.torrent⟩
  obtain ⟨hbuilt, hd⟩ := hh
  refine ⟨(call_fileHandlers env h c).trans hbuilt, ?_⟩
  have hlocal : ∀ {id h'}, LocalTo id h h' → h'.disk.Writable env.torrent := by
    intro id h' hl
    have hcore : h'.core.disk = h.core.disk := by rw [hl.core_eq]
    exact hdisk hcore hd
  cases c with
  | haveIndex id index => exact hlocal (localTo_haveIndex env id index h)
  | haveBitfield id bitfield => exact hlocal (localTo_haveBitfield env id bitfield h)
  | getPieceRequest id => exact hlocal (localTo_getPieceRequest env id h)
  | received payload =>
    apply receivedBlock_cases (P := fun h' => h'.disk.Writable env.torrent)
    · exact fun _ => hd
    · exact fun _ _ => hd
    · exact fun _ _ _ => hd
    · intro _ _ _
      rw [stopIfDone_disk, (countFrame_writtenPiece env _ _).disk_eq, foldl_writeBlock_eq_run]
      refine (run_invariant (V := fun _ => True)
        (P := fun h' => HandlersBuilt env h' ∧ h'.disk.Writable env.torrent)
        (fun h' l _ hh => ⟨hh.1.sliceStep l, writable_sliceStep hh.1 hh.2 l⟩)
        (fun _ _ => trivial) ?_).2
      exact ⟨hbuilt, hd⟩

/-- Whatever the files hold, writing a piece that is stored as it was requested stays inside the
files and changes bytes of the piece only, exactly if the bytes of its whole blocks from where
`map_block` finds them on, at their offsets in the files that the leaf names lead to, are bytes of
the piece. -/
theorem piece_only_iff (hi : i < env.torrent.numPieces) (hbuilt : HandlersBuilt env h)
    (hstored : PieceStored env i h) :
    (SlicesInside env i ∧ ∀ d : Disk, d.Writable env.torrent →
        OnlyPiece env i { h with disk := d } (writeIfValid env i { h with disk := d }).1) ↔
      env.torrent.BlocksInside i := by
  constructor
  · rintro ⟨hslices, honly⟩ k hk
    have hends := forall_blockKeys_iff.mp ((slicesInside_iff hi).mp hslices) k hk
    refine ⟨hends, fun f hf o ho hle hlt g hg => ?_⟩
    refine or_iff_not_imp_left.mpr fun hsize => by_contra fun hout => ?_
    obtain ⟨s, hs, rfl, hlo, hhi⟩ := (hends.exists_mem_mapBlock_iff ho).mpr ⟨hle, hlt⟩
    have hl : (⟨⟨i, k * blockLen⟩, s⟩ : PieceReceivedKey × FileSlice) ∈
        sliceSteps env (blockKeys env i) := mem_sliceSteps_iff.mpr ⟨k, hk, rfl, hs⟩
    have hkeep : ∀ d : Disk, d.Writable env.torrent →
        (run (sliceStep env) (hashedPiece env i { h with disk := d })
          (sliceSteps env (blockKeys env i))).disk.image g o = d.image g o := by
      intro d hd
      by_contra hne
      refine hout (honly d hd g (lt_numFiles_of_fileSize hsize) o ?_)
      rw [hstored.disk_writeIfValid d]
      exact hne
    -- two disks that differ in the byte hold the same there after the write
    set d₁ := Disk.create env.torrent with hd₁
    have hw₁ : d₁.Writable env.torrent := Disk.writable_create env.torrent
    have hcontent : (d₁ g).content = List.replicate (env.torrent.fileSize g) 0 :=
      (FileHandler.create_spec _).1
    set d₂ : Disk := Function.update d₁ g { d₁ g with content := (d₁ g).content.set o 1 }
      with hd₂
    have hw₂ : d₂.Writable env.torrent := by
      refine ⟨fun f => ?_, fun f => ?_⟩
      · by_cases hfg : f = g
        · rw [hd₂, hfg, Function.update_self, List.length_set]
          exact hw₁.length_le g
        · rw [hd₂, Function.update_of_ne hfg]
          exact hw₁.length_le f
      · by_cases hfg : f = g
        · rw [hd₂, hfg, Function.update_self]
          exact hw₁.fail_iff g
        · rw [hd₂, Function.update_of_ne hfg]
          exact hw₁.fail_iff f
    have ht : Twin env (hashedPiece env i { h with disk := d₁ })
        (hashedPiece env i { h with disk := d₂ }) := ⟨rfl, hbuilt, hw₁, hw₂⟩
    obtain ⟨x, hx₁, hx₂⟩ := ht.sameByte_run hl hg hsize hlo hhi
    rw [hkeep d₁ hw₁, Disk.image, hcontent] at hx₁
    rw [hkeep d₂ hw₂, Disk.image, hd₂, Function.update_self, hcontent] at hx₂
    obtain ⟨hlen, hzero⟩ := List.getElem?_eq_some_iff.mp hx₁
    rw [List.getElem?_set_self hlen] at hx₂
    rw [List.getElem_replicate, ← Option.some.inj hx₂] at hzero
    exact absurd hzero (by decide)
  · intro hinside
    have hslices : SlicesInside env i :=
      (slicesInside_iff hi).mpr (forall_blockKeys_iff.mpr fun k hk => (hinside k hk).1)
    refine ⟨hslices, fun d hd f _ o hne => by_contra fun hout => hne ?_⟩
    rw [hstored.disk_writeIfValid d]
    exact (untouched_run (h := hashedPiece env i { h with disk := d }) hslices hinside hbuilt
      hd).image_eq f o hout

/-- The first piece was written, and the block of the second one has just been stored. -/
def firstWritten : PieceHandler :=
  store ⟨1, 0⟩ [2] (received twoPieceEnv (piecePayload 0 0 [1]) (create twoPieceEnv))

/-- The exactness statement for the second of two pieces, behind a write of the first one. -/
theorem piece_only_iff_sample :
    (SlicesInside twoPieceEnv 1 ∧ ∀ d : Disk, d.Writable twoPieceEnv.torrent →
        OnlyPiece twoPieceEnv 1 { firstWritten with disk := d }
          (writeIfValid twoPieceEnv 1 { firstWritten with disk := d }).1) ↔
      twoPieceEnv.torrent.BlocksInside 1 := by
  refine piece_only_iff (by decide) ?_ ⟨?_, ?_, ?_⟩
  · change firstWritten.fileHandlers = (create twoPieceEnv).fileHandlers
    decide +kernel
  · change ∀ key ∈ blockKeys twoPieceEnv 1, _
    decide +kernel
  · decide +kernel
  · decide +kernel

/-- The second piece was written, and the block of the first one has just been stored. -/
def secondWritten : PieceHandler :=
  store ⟨0, 0⟩ [1] (received twoPieceEnv (piecePayload 1 0 [2]) (create twoPieceEnv))

/-- Writing the first piece overwrites the second one with a byte from behind the stored block. -/
theorem short_piece_damages_next :
    PieceStored twoPieceEnv 0 secondWritten ∧
      secondWritten.disk.image 0 1 = some 2 ∧
      (writeIfValid twoPieceEnv 0 secondWritten).1.disk.image 0 1 = some 0 ∧
      ¬ OnlyPiece twoPieceEnv 0 secondWritten (writeIfValid twoPieceEnv 0 secondWritten).1 := by
  have hbefore : secondWritten.disk.image 0 1 = some 2 := by decide +kernel
  have hafter : (writeIfValid twoPieceEnv 0 secondWritten).1.disk.image 0 1 = some 0 := by
    decide +kernel
  refine ⟨⟨?_, ?_, ?_⟩, hbefore, hafter, fun honly => ?_⟩
  · change ∀ key ∈ blockKeys twoPieceEnv 0, _
    decide +kernel
  · decide +kernel
  · decide +kernel
  · have hpiece := honly 0 (by decide) 1 (by rw [hafter, hbefore]; decide)
    exact absurd hpiece.2.2 (by decide)

end PieceHandler

end Tent
