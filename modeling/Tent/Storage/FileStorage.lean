import Mathlib.Data.List.GetD
import Tent.Foundation.Segments

/-!
# The torrent and its file storage

The part of libtorrent's `torrent_info` and `file_storage` that the client reads: the piece length,
the list of files, the piece hashes, `piece_size` and `map_block`.

A torrent is one long byte string, cut into pieces of `pieceLength` bytes (the last one may be
shorter) and, independently of that, into files.  `mapBlock` answers which parts of which files a
block of a piece covers.  Its loop is the `cut` of `Tent.Foundation.Segments`, run from the file
that `std::upper_bound` finds, and `paint_mapBlock` says that bytes dealt out along its slices land
on the torrent positions of the block.

The offset of a file, and with it the target of the search, is kept in 48 bits.  What `map_block`
answers for a longer torrent is still a list of slices that together have the size of the block
(`sum_size_mapBlock`), but the search may end at another place (`Mapped`), from where the loop may
run past the last file (`EndsInside`).  Where `OffsetsFit`, it does neither.
-/

set_option autoImplicit false

namespace Tent

open Segments

/-- A file of the torrent: the directories above it, its leaf name and its size in bytes. -/
structure FileEntry where
  /-- The directories of the path, the torrent's own directory first. -/
  branch : List String
  /-- The leaf name, `file_storage::file_name`. -/
  name : String
  /-- The size in bytes, `file_storage::file_size`. -/
  size : ℕ
deriving DecidableEq, Repr

/-- `file_storage::file_path`: the components of the path joined by slashes. -/
def FileEntry.path (f : FileEntry) : String :=
  "/".intercalate (f.branch ++ [f.name])

/-- The largest value of a C++ `int`. -/
def intMax : ℕ := 2 ^ 31 - 1

/-- A torrent as `torrent_info` accepts it.  The fields after the data are the checks of
`torrent_info::parse_info_section`: the piece length is a positive `int`, there is a file, and there
are not too many pieces. -/
structure TorrentInfo (Digest : Type*) where
  /-- `piece_length()`. -/
  pieceLength : ℕ
  /-- The files in the order of the torrent. -/
  files : List FileEntry
  /-- `hash_for_piece(i)`; behind the last piece this is whatever memory holds there. -/
  hashForPiece : ℕ → Digest
  /-- The piece length is positive. -/
  pieceLength_pos : 0 < pieceLength
  /-- The piece length is an `int`. -/
  pieceLength_le : pieceLength ≤ intMax
  /-- There is at least one file. -/
  files_ne_nil : files ≠ []
  /-- `too_many_pieces_in_torrent` was not raised. -/
  totalSize_lt : (files.map FileEntry.size).sum < (intMax - pieceLength) * pieceLength
  /-- `internal_file_entry::size` has 48 bits. -/
  size_lt : ∀ f ∈ files, f.size < 2 ^ 48 := by decide

namespace TorrentInfo

variable {Digest : Type*} (t : TorrentInfo Digest)

/-- The sizes of the files in order. -/
def sizes : List ℕ := t.files.map FileEntry.size

/-- `total_size()`: `add_file` adds the size of every file. -/
def totalSize : ℕ := t.sizes.sum

/-- `num_files()`. -/
def numFiles : ℕ := t.files.length

/-- `num_pieces()`: the total size over the piece length, rounded upwards. -/
def numPieces : ℕ := (t.totalSize + t.pieceLength - 1) / t.pieceLength

/-- `last_piece()`: an `int`, and minus one in a torrent without pieces. -/
def lastPiece : ℤ := t.numPieces - 1

/-- `piece_size(index)`: the piece length, except for the last piece. -/
def pieceSize (index : ℕ) : ℕ :=
  if (index : ℤ) = t.lastPiece then t.totalSize - (t.numPieces - 1) * t.pieceLength
  else t.pieceLength

/-- `file_name(index)`. -/
def fileName (index : ℕ) : String :=
  (t.files[index]?.map FileEntry.name).getD ""

/-- `file_size(index)`. -/
def fileSize (index : ℕ) : ℕ :=
  t.sizes.getD index 0

/-- The position in the torrent of byte `o` of file `f`. -/
def position (f o : ℕ) : ℕ := start t.sizes f + o

end TorrentInfo

/-- The values of `internal_file_entry::offset`, a field of 48 bits. -/
def offsetRange : ℕ := 2 ^ 48

/-- The offsets that `add_file` assigns: each file starts where the total size stood, as far as the
field holds it. -/
def fileOffsets : List FileEntry → ℕ → List ℕ
  | [], _ => []
  | f :: fs, total => total % offsetRange :: fileOffsets fs (total + f.size)

/-- The loop of `std::upper_bound` over a random access range, which halves the `len` elements from
`first` on until none is left.  It is run with fuel for every element. -/
def upperBoundLoop (offsets : List ℕ) (target : ℕ) : ℕ → ℕ → ℕ → ℕ
  | 0, first, _ => first
  | fuel + 1, first, len =>
      if len = 0 then first
      else if target < offsets.getD (first + len / 2) 0 then
        upperBoundLoop offsets target fuel first (len / 2)
      else upperBoundLoop offsets target fuel (first + len / 2 + 1) (len - len / 2 - 1)

/-- `std::upper_bound(m_files.begin(), m_files.end(), target, compare_file_offset)`, as an index. -/
def upperBound (offsets : List ℕ) (target : ℕ) : ℕ :=
  upperBoundLoop offsets target offsets.length 0 offsets.length

/-- `file_slice`: a range of a file. -/
structure FileSlice where
  /-- `file_index`. -/
  fileIndex : ℕ
  /-- `offset`. -/
  offset : ℕ
  /-- `size`. -/
  size : ℕ
deriving DecidableEq, Repr

/-- The loop of `map_block` over the files from the one found on.  The subtractions are the
`file_offset -= file_iter->size` of the loop header; they are cut off at zero only when no bytes are
left and the loop ends. -/
def mapSlices : List FileEntry → ℕ → ℕ → ℕ → List FileSlice
  | [], _, _, _ => []
  | f :: fs, index, fileOffset, size =>
      if size = 0 then []
      else if fileOffset < f.size then
        ⟨index, fileOffset, min (f.size - fileOffset) size⟩ ::
          mapSlices fs (index + 1) (fileOffset + min (f.size - fileOffset) size - f.size)
            (size - min (f.size - fileOffset) size)
      else mapSlices fs (index + 1) (fileOffset - f.size) size

namespace TorrentInfo

variable {Digest : Type*} (t : TorrentInfo Digest)

/-- `target.offset` of `map_block`. -/
def targetOffset (piece offset : ℕ) : ℕ := (piece * t.pieceLength + offset) % offsetRange

/-- The `size` of `map_block` after its fix-up: the requested size, cut off at the end. -/
def mappedSize (piece offset size : ℕ) : ℕ :=
  if t.targetOffset piece offset + size > t.totalSize then
    t.totalSize - t.targetOffset piece offset
  else size

/-- `file_iter` of `map_block`: what `std::upper_bound` finds, and the decrement after it. -/
def fileIter (piece offset : ℕ) : ℕ :=
  upperBound (fileOffsets t.files 0) (t.targetOffset piece offset) - 1

/-- `file_offset` of `map_block` as the loop begins. -/
def fileOffset (piece offset : ℕ) : ℕ :=
  t.targetOffset piece offset - (fileOffsets t.files 0).getD (t.fileIter piece offset) 0

/-- What stands for the slices that the loop of `map_block` makes of the memory behind `m_files`
when `size` bytes are left there: an assertion excludes it, nothing else does.  No such slice is a
range of a file, and neither is this one, behind the end of the last file. -/
def overrun (size : ℕ) : List FileSlice :=
  if size = 0 then [] else [⟨t.numFiles - 1, t.fileSize (t.numFiles - 1), size⟩]

/-- `file_storage::map_block`: the file slices of `size` bytes of a piece from `offset` on, cut off
at the end of the torrent. -/
def mapBlock (piece offset size : ℕ) : List FileSlice :=
  let slices := mapSlices (t.files.drop (t.fileIter piece offset)) (t.fileIter piece offset)
    (t.fileOffset piece offset) (t.mappedSize piece offset size)
  slices ++ t.overrun (t.mappedSize piece offset size - (slices.map FileSlice.size).sum)

/-- The position of the torrent at which the loop of `map_block` begins: `file_offset` bytes into
the file found. -/
def foundPosition (piece offset : ℕ) : ℕ :=
  start t.sizes (t.fileIter piece offset) + t.fileOffset piece offset

/-- From where the loop begins there are as many bytes as `map_block` maps, so that it ends before
it leaves `m_files`. -/
def EndsInside (piece offset size : ℕ) : Prop :=
  t.foundPosition piece offset + t.mappedSize piece offset size ≤ t.totalSize

/-- `map_block` finds the block: the loop begins at the position of the block and ends inside the
files. -/
structure Mapped (piece offset size : ℕ) : Prop where
  /-- The loop begins at the position of the block. -/
  found_eq : t.foundPosition piece offset = piece * t.pieceLength + offset
  /-- The loop ends inside the files. -/
  endsInside : t.EndsInside piece offset size

/-- Every file begins, and the torrent ends, where 48 bits can say it. -/
structure OffsetsFit : Prop where
  /-- Every file begins below `2 ^ 48`. -/
  start_lt : ∀ i < t.numFiles, start t.sizes i < offsetRange
  /-- The torrent is not longer than that. -/
  totalSize_le : t.totalSize ≤ offsetRange

instance (piece offset size : ℕ) : Decidable (t.EndsInside piece offset size) :=
  inferInstanceAs (Decidable (_ ≤ _))

end TorrentInfo

/-! ### Pieces -/

namespace TorrentInfo

variable {Digest : Type*} (t : TorrentInfo Digest)

/-- Every piece before the last one ends inside the torrent. -/
lemma mul_pieceLength_lt {i : ℕ} (hi : i < t.numPieces) : i * t.pieceLength < t.totalSize := by
  have hle : (i + 1) * t.pieceLength ≤ t.totalSize + t.pieceLength - 1 :=
    (Nat.le_div_iff_mul_le t.pieceLength_pos).mp hi
  have hpos := t.pieceLength_pos
  rw [Nat.succ_mul] at hle
  omega

/-- The pieces cover the torrent. -/
lemma totalSize_le : t.totalSize ≤ t.numPieces * t.pieceLength := by
  have hpos := t.pieceLength_pos
  have hlt := Nat.lt_div_mul_add (a := t.totalSize + t.pieceLength - 1) hpos
  unfold numPieces
  omega

/-- A piece is as long as the piece length and the end of the torrent allow. -/
lemma pieceSize_eq_min {i : ℕ} (hi : i < t.numPieces) :
    t.pieceSize i = min t.pieceLength (t.totalSize - i * t.pieceLength) := by
  have hlt := t.mul_pieceLength_lt hi
  have hcover := t.totalSize_le
  unfold pieceSize lastPiece
  split_ifs with h
  · have hnum : t.numPieces = i + 1 := by omega
    rw [hnum, Nat.succ_mul] at hcover
    rw [hnum, Nat.add_sub_cancel]
    omega
  · have hnext := t.mul_pieceLength_lt (show i + 1 < t.numPieces by omega)
    rw [Nat.succ_mul] at hnext
    omega

/-- No piece is empty. -/
lemma pieceSize_pos {i : ℕ} (hi : i < t.numPieces) : 0 < t.pieceSize i := by
  have hlt := t.mul_pieceLength_lt hi
  have hpos := t.pieceLength_pos
  rw [t.pieceSize_eq_min hi]
  omega

/-- A piece is not longer than the piece length, whether or not the index is in range. -/
lemma pieceSize_le (i : ℕ) : t.pieceSize i ≤ t.pieceLength := by
  have hcover := t.totalSize_le
  unfold pieceSize
  split_ifs
  · rcases Nat.eq_zero_or_pos t.numPieces with hzero | hpos
    · rw [hzero, Nat.zero_mul] at hcover
      omega
    · obtain ⟨n, hn⟩ := Nat.exists_eq_add_of_lt hpos
      rw [hn, Nat.zero_add, Nat.succ_mul] at hcover
      rw [hn, Nat.zero_add, Nat.add_sub_cancel]
      omega
  · exact Nat.le_refl _

/-- A piece ends inside the torrent. -/
lemma piece_end_le {i : ℕ} (hi : i < t.numPieces) :
    i * t.pieceLength + t.pieceSize i ≤ t.totalSize := by
  have hlt := t.mul_pieceLength_lt hi
  rw [t.pieceSize_eq_min hi]
  omega

/-- A torrent position lies in the piece that the division names. -/
lemma div_pieceLength_lt {p : ℕ} (hp : p < t.totalSize) : p / t.pieceLength < t.numPieces := by
  rw [Nat.div_lt_iff_lt_mul t.pieceLength_pos]
  exact Nat.lt_of_lt_of_le hp t.totalSize_le

/-- The positions of piece `i` are those that the division maps to `i`. -/
lemma div_pieceLength_eq_iff {i p : ℕ} (hi : i < t.numPieces) (hp : p < t.totalSize) :
    p / t.pieceLength = i ↔
      i * t.pieceLength ≤ p ∧ p < i * t.pieceLength + t.pieceSize i := by
  have hlt := t.mul_pieceLength_lt hi
  have hpos := t.pieceLength_pos
  rw [Nat.div_eq_iff t.pieceLength_pos, t.pieceSize_eq_min hi]
  omega

/-- Every position of the torrent is that of a byte of a file. -/
lemma exists_position_eq {p : ℕ} (hp : p < t.totalSize) :
    ∃ f < t.numFiles, ∃ o < t.fileSize f, t.position f o = p := by
  obtain ⟨f, hf, o, ho, hstart⟩ := exists_start_add hp
  exact ⟨f, by simpa [sizes, numFiles] using hf, o, ho, hstart⟩

/-- Piece indices and piece sizes are `int`s, so they fit into the 32-bit fields of a message. -/
lemma numPieces_lt : t.numPieces < 2 ^ 31 := by
  have hlt : t.totalSize < (intMax - t.pieceLength) * t.pieceLength := t.totalSize_lt
  have hpos := t.pieceLength_pos
  have hdiv : t.numPieces ≤ intMax - t.pieceLength := by
    unfold numPieces
    rw [Nat.div_le_iff_le_mul_add_pred hpos, Nat.mul_comm]
    omega
  have : intMax < 2 ^ 31 := by decide
  omega

end TorrentInfo

/-! ### Mapping a block to files -/

/-- A file slice as a slice of the line of all files. -/
def FileSlice.toSlice (s : FileSlice) : Slice := ⟨s.fileIndex, s.offset, s.size⟩

/-- The loop of `map_block` cuts the interval out of the files. -/
lemma map_toSlice_mapSlices (fs : List FileEntry) (index fileOffset size : ℕ) :
    (mapSlices fs index fileOffset size).map FileSlice.toSlice =
      cut (fs.map FileEntry.size) index fileOffset size := by
  induction fs generalizing index fileOffset size with
  | nil => rfl
  | cons f fs ih =>
    unfold mapSlices
    rw [List.map_cons, cut]
    split_ifs
    · rfl
    · rw [List.map_cons, ih]
      rfl
    · exact ih _ _ _

/-- A slice of the loop of `map_block` is a non-empty range of one of the files. -/
lemma mem_mapSlices {fs : List FileEntry} {index fileOffset size : ℕ} {s : FileSlice}
    (h : s ∈ mapSlices fs index fileOffset size) :
    index ≤ s.fileIndex ∧ 0 < s.size ∧
      ∃ f, fs[s.fileIndex - index]? = some f ∧ s.offset + s.size ≤ f.size := by
  have hmem : s.toSlice ∈ (mapSlices fs index fileOffset size).map FileSlice.toSlice :=
    List.mem_map_of_mem h
  rw [map_toSlice_mapSlices] at hmem
  obtain ⟨hge, hpos, len, hlen, hle⟩ := mem_cut hmem
  rw [List.getElem?_map, Option.map_eq_some_iff] at hlen
  obtain ⟨f, hf, rfl⟩ := hlen
  exact ⟨hge, hpos, f, hf, hle⟩

/-- The slices of the loop of `map_block` have together the requested size, as far as the files
reach. -/
lemma sum_size_mapSlices (fs : List FileEntry) (index fileOffset size : ℕ) :
    ((mapSlices fs index fileOffset size).map FileSlice.size).sum =
      min size ((fs.map FileEntry.size).sum - fileOffset) := by
  rw [← sum_length_cut _ index fileOffset size, ← map_toSlice_mapSlices, List.map_map]
  rfl

/-- Every file is assigned one offset. -/
@[simp] lemma length_fileOffsets (fs : List FileEntry) (total : ℕ) :
    (fileOffsets fs total).length = fs.length := by
  induction fs generalizing total with
  | nil => rfl
  | cons f fs ih => simp [fileOffsets, ih]

/-- The assigned offsets are the starts of the files, as far as 48 bits hold them. -/
lemma getElem?_fileOffsets (fs : List FileEntry) (total j : ℕ) :
    (fileOffsets fs total)[j]? =
      if j < fs.length then some ((total + start (fs.map FileEntry.size) j) % offsetRange)
      else none := by
  induction fs generalizing total j with
  | nil => simp [fileOffsets]
  | cons f fs ih =>
    cases j with
    | zero => simp [fileOffsets]
    | succ j =>
      simp only [fileOffsets, List.getElem?_cons_succ, ih, List.length_cons, List.map_cons,
        start_cons_succ, Nat.add_assoc, Nat.add_lt_add_iff_right]

/-- The halving keeps what stands right before and right behind the elements that are left, so this
is what it finds, whether or not the offsets ascend. -/
lemma upperBoundLoop_spec {offsets : List ℕ} {target fuel first len : ℕ} (hfuel : len ≤ fuel)
    (hlen : first + len ≤ offsets.length)
    (hbelow : first = 0 ∨ offsets.getD (first - 1) 0 ≤ target)
    (habove : first + len = offsets.length ∨ target < offsets.getD (first + len) 0) :
    upperBoundLoop offsets target fuel first len ≤ offsets.length ∧
      (upperBoundLoop offsets target fuel first len = 0 ∨
        offsets.getD (upperBoundLoop offsets target fuel first len - 1) 0 ≤ target) ∧
      (upperBoundLoop offsets target fuel first len = offsets.length ∨
        target < offsets.getD (upperBoundLoop offsets target fuel first len) 0) := by
  induction fuel generalizing first len with
  | zero =>
    obtain rfl : len = 0 := Nat.le_zero.mp hfuel
    exact ⟨hlen, hbelow, habove⟩
  | succ fuel ih =>
    rw [upperBoundLoop]
    split_ifs with hzero hlt
    · subst hzero
      exact ⟨hlen, hbelow, habove⟩
    · exact ih (by omega) (by omega) hbelow (.inr hlt)
    · refine ih (by omega) (by omega) (.inr ?_) ?_
      · rw [Nat.add_sub_cancel]
        exact Nat.le_of_not_lt hlt
      · rwa [show first + len / 2 + 1 + (len - len / 2 - 1) = first + len by omega]

/-- What `std::upper_bound` finds: the element before it is not greater than the target, and it is
the end or greater. -/
lemma upperBound_spec (offsets : List ℕ) (target : ℕ) :
    upperBound offsets target ≤ offsets.length ∧
      (upperBound offsets target = 0 ∨ offsets.getD (upperBound offsets target - 1) 0 ≤ target) ∧
      (upperBound offsets target = offsets.length ∨
        target < offsets.getD (upperBound offsets target) 0) :=
  upperBoundLoop_spec (Nat.le_refl _) (by omega) (.inl rfl) (.inl (Nat.zero_add _))

namespace TorrentInfo

variable {Digest : Type*} (t : TorrentInfo Digest)

/-- There is a file. -/
lemma numFiles_pos : 0 < t.numFiles := List.length_pos_of_ne_nil t.files_ne_nil

/-- Some bytes of a block inside the torrent are mapped, wherever they go. -/
lemma mappedSize_pos {piece offset size : ℕ}
    (htarget : piece * t.pieceLength + offset < t.totalSize) (hsize : 0 < size) :
    0 < t.mappedSize piece offset size := by
  have hle : t.targetOffset piece offset ≤ piece * t.pieceLength + offset := Nat.mod_le _ _
  unfold mappedSize
  split_ifs <;> omega

/-- The file that the search finds is one of the files, and its stored offset is not greater than
the target. -/
lemma fileIter_spec (piece offset : ℕ) :
    t.fileIter piece offset < t.numFiles ∧
      (fileOffsets t.files 0).getD (t.fileIter piece offset) 0 ≤ t.targetOffset piece offset := by
  obtain ⟨hle, hbelow, -⟩ :=
    upperBound_spec (fileOffsets t.files 0) (t.targetOffset piece offset)
  have hpos := t.numFiles_pos
  rw [length_fileOffsets] at hle
  refine ⟨?_, ?_⟩
  · unfold fileIter numFiles at *
    omega
  · rcases hbelow with hzero | hbelow
    · -- the first file is stored with offset zero
      have hfirst : (fileOffsets t.files 0).getD 0 0 = 0 := by
        cases t.files <;> rfl
      rw [fileIter, hzero, hfirst]
      exact Nat.zero_le _
    · exact hbelow

/-- A stored offset is the start of the file, as far as 48 bits hold it. -/
lemma getD_fileOffsets {i : ℕ} (hi : i < t.numFiles) :
    (fileOffsets t.files 0).getD i 0 = start t.sizes i % offsetRange := by
  rw [List.getD_eq_getElem?_getD, getElem?_fileOffsets, if_pos (show i < t.files.length from hi),
    Nat.zero_add]
  rfl

/-- A slice of a block is not empty, and it is a range of one of the files, unless the loop runs
past them. -/
lemma mem_mapBlock {piece offset size : ℕ} {s : FileSlice} (h : s ∈ t.mapBlock piece offset size) :
    s.fileIndex < t.numFiles ∧ 0 < s.size := by
  have hpos := t.numFiles_pos
  rcases List.mem_append.mp h with h | h
  · obtain ⟨hge, hsize, f, hf, -⟩ := mem_mapSlices h
    rw [List.getElem?_drop, Nat.add_sub_cancel' hge] at hf
    obtain ⟨hlt, -⟩ := List.getElem?_eq_some_iff.mp hf
    exact ⟨hlt, hsize⟩
  · unfold overrun at h
    split_ifs at h with hzero
    · exact absurd h List.not_mem_nil
    · rw [List.mem_singleton.mp h]
      exact ⟨Nat.sub_lt hpos Nat.one_pos, Nat.pos_of_ne_zero hzero⟩

/-- The slices of a block have together the mapped size. -/
lemma sum_size_mapBlock (piece offset size : ℕ) :
    ((t.mapBlock piece offset size).map FileSlice.size).sum = t.mappedSize piece offset size := by
  have hover : ∀ n, ((t.overrun n).map FileSlice.size).sum = n := by
    intro n
    unfold overrun
    split_ifs with hzero
    · exact hzero.symm
    · rfl
  unfold mapBlock
  rw [List.map_append, List.sum_append, hover, sum_size_mapSlices]
  omega

/-- The files from the one found on have the bytes that lie behind the start of it. -/
lemma start_add_sum_drop (i : ℕ) : start t.sizes i + (t.sizes.drop i).sum = t.totalSize :=
  List.sum_take_add_sum_drop t.sizes i

/-- Where the loop ends inside the files, `map_block` is the cut of the block out of the files from
the one found on. -/
lemma map_toSlice_mapBlock {piece offset size : ℕ} (h : t.EndsInside piece offset size) :
    (t.mapBlock piece offset size).map FileSlice.toSlice =
      cut (t.sizes.drop (t.fileIter piece offset)) (t.fileIter piece offset)
        (t.fileOffset piece offset) (t.mappedSize piece offset size) := by
  have hsum := t.start_add_sum_drop (t.fileIter piece offset)
  have hrest : t.mappedSize piece offset size -
      min (t.mappedSize piece offset size)
        ((t.sizes.drop (t.fileIter piece offset)).sum - t.fileOffset piece offset) = 0 := by
    unfold EndsInside foundPosition at h
    omega
  simp only [mapBlock, sum_size_mapSlices, List.map_drop]
  rw [← sizes, hrest, overrun, if_pos rfl, List.append_nil, map_toSlice_mapSlices, List.map_drop,
    ← sizes]

/-- The slices of a block are ranges of the files exactly where the loop ends inside them. -/
lemma mapBlock_inside_iff {piece offset size : ℕ} (hsize : 0 < t.mappedSize piece offset size) :
    (∀ s ∈ t.mapBlock piece offset size, s.offset + s.size ≤ t.fileSize s.fileIndex) ↔
      t.EndsInside piece offset size := by
  constructor
  · intro h
    by_contra hout
    have hsum := t.start_add_sum_drop (t.fileIter piece offset)
    have hrest : t.mappedSize piece offset size -
        ((mapSlices (t.files.drop (t.fileIter piece offset)) (t.fileIter piece offset)
          (t.fileOffset piece offset) (t.mappedSize piece offset size)).map
            FileSlice.size).sum ≠ 0 := by
      rw [sum_size_mapSlices, List.map_drop, ← sizes]
      unfold EndsInside foundPosition at hout
      omega
    have hover := h ⟨t.numFiles - 1, t.fileSize (t.numFiles - 1), _⟩
      (List.mem_append_right _ (by rw [overrun, if_neg hrest]; exact List.mem_singleton_self _))
    exact hrest (Nat.le_zero.mp (Nat.le_of_add_le_add_left hover))
  · intro h s hs
    have hmem : s.toSlice ∈ (t.mapBlock piece offset size).map FileSlice.toSlice :=
      List.mem_map_of_mem hs
    rw [t.map_toSlice_mapBlock h] at hmem
    obtain ⟨hge, -, len, hlen, hle⟩ := mem_cut hmem
    rw [List.getElem?_drop, Nat.add_sub_cancel' hge] at hlen
    change t.sizes[s.fileIndex]? = some len at hlen
    unfold fileSize
    rw [List.getD_eq_getElem?_getD, hlen]
    exact hle

variable {t}

/-- Bytes dealt out along the slices of a block land exactly on the torrent positions from the one
found on. -/
theorem EndsInside.paint_mapBlock {α : Type*} {piece offset size : ℕ}
    (h : t.EndsInside piece offset size) {data : List α}
    (hdata : data.length = t.mappedSize piece offset size) (img : ℕ → ℕ → Option α) (f o : ℕ)
    (ho : o < t.fileSize f) :
    paint ((t.mapBlock piece offset size).map FileSlice.toSlice) data img f o =
      if t.foundPosition piece offset ≤ t.position f o ∧
          t.position f o < t.foundPosition piece offset + t.mappedSize piece offset size then
        data[t.position f o - t.foundPosition piece offset]?
      else img f o := by
  have hsum := t.start_add_sum_drop (t.fileIter piece offset)
  rw [t.map_toSlice_mapBlock h]
  unfold EndsInside foundPosition at h
  unfold foundPosition
  generalize t.fileIter piece offset = it at h hsum ⊢
  rcases Nat.lt_or_ge f it with hf | hf
  · -- a file before the one found ends before the block
    have hlen : f < t.sizes.length := by
      by_contra hcon
      rw [fileSize, List.getD_eq_default _ _ (by omega)] at ho
      omega
    have hend : t.position f o < start t.sizes it := by
      have hmono := start_mono t.sizes (show f + 1 ≤ it from hf)
      rw [start_succ hlen] at hmono
      rw [fileSize, List.getD_eq_getElem _ _ hlen] at ho
      unfold position
      omega
    rw [paint_cut_of_lt _ _ hf, if_neg (by omega)]
  · obtain ⟨j, rfl⟩ := Nat.exists_eq_add_of_le hf
    have hdrop := start_drop t.sizes it j
    have hsize : (t.sizes.drop it).getD j 0 = t.fileSize (it + j) := by
      simp [fileSize, List.getD_eq_getElem?_getD]
    rw [paint_cut hdata (by omega), hsize, position]
    by_cases hc : start t.sizes it + t.fileOffset piece offset ≤ start t.sizes (it + j) + o ∧
        start t.sizes (it + j) + o <
          start t.sizes it + t.fileOffset piece offset + t.mappedSize piece offset size
    · rw [if_pos ⟨ho, by omega, by omega⟩, if_pos hc]
      congr 1
      omega
    · rw [if_neg (by omega), if_neg hc]

/-- The slices of a block cover exactly the bytes of the files at the torrent positions from the
one found on. -/
lemma EndsInside.exists_mem_mapBlock_iff {piece offset size : ℕ}
    (h : t.EndsInside piece offset size) {f o : ℕ} (ho : o < t.fileSize f) :
    (∃ s ∈ t.mapBlock piece offset size,
        f = s.fileIndex ∧ s.offset ≤ o ∧ o < s.offset + s.size) ↔
      t.foundPosition piece offset ≤ t.position f o ∧
        t.position f o < t.foundPosition piece offset + t.mappedSize piece offset size := by
  set data : List Unit := List.replicate (t.mappedSize piece offset size) () with hdata
  have hlen : data.length = t.mappedSize piece offset size := List.length_replicate
  have hmap : ((t.mapBlock piece offset size).map FileSlice.toSlice).map Slice.length =
      (t.mapBlock piece offset size).map FileSlice.size := by
    rw [List.map_map]
    rfl
  have hfits : (((t.mapBlock piece offset size).map FileSlice.toSlice).map Slice.length).sum ≤
      data.length := by
    rw [hmap, t.sum_size_mapBlock]
    exact Nat.le_of_eq hlen.symm
  have hsome := isSome_paint ((t.mapBlock piece offset size).map FileSlice.toSlice) hfits
    (fun _ _ => none) f o
  rw [h.paint_mapBlock hlen _ f o ho] at hsome
  have hcovered : (∃ s ∈ t.mapBlock piece offset size,
        f = s.fileIndex ∧ s.offset ≤ o ∧ o < s.offset + s.size) ↔
      ∃ sl ∈ (t.mapBlock piece offset size).map FileSlice.toSlice,
        f = sl.segment ∧ sl.offset ≤ o ∧ o < sl.offset + sl.length := by
    simp [FileSlice.toSlice]
  rw [hcovered]
  split_ifs at hsome with hin
  · rw [List.getElem?_eq_getElem (by omega)] at hsome
    exact iff_of_true ((hsome.mp rfl).resolve_left (by simp)) hin
  · exact iff_of_false (fun hcov => absurd (hsome.mpr (.inr hcov)) (by simp)) hin

/-! ### Blocks that are found -/

variable (t) in
/-- The position found and that of the block differ by a multiple of `2 ^ 48`. -/
lemma foundPosition_mod (piece offset : ℕ) :
    t.foundPosition piece offset % offsetRange =
      (piece * t.pieceLength + offset) % offsetRange := by
  obtain ⟨hlt, hle⟩ := t.fileIter_spec piece offset
  unfold foundPosition fileOffset
  rw [t.getD_fileOffsets hlt] at hle ⊢
  unfold targetOffset offsetRange at *
  omega

/-- Of a block that is found as many bytes are mapped as were requested, cut off at the end of the
torrent. -/
lemma Mapped.mappedSize_eq_min {piece offset size : ℕ} (h : t.Mapped piece offset size) :
    t.mappedSize piece offset size =
      min size (t.totalSize - (piece * t.pieceLength + offset)) := by
  have hle : t.targetOffset piece offset ≤ piece * t.pieceLength + offset := Nat.mod_le _ _
  have hend := h.endsInside
  unfold EndsInside at hend
  rw [h.found_eq] at hend
  unfold mappedSize at hend ⊢
  split_ifs at hend ⊢ <;> omega

/-- Where the offsets fit, every block inside the torrent is found. -/
lemma OffsetsFit.mapped (hfit : t.OffsetsFit) {piece offset : ℕ} (size : ℕ)
    (htarget : piece * t.pieceLength + offset < t.totalSize) : t.Mapped piece offset size := by
  obtain ⟨hlt, hle⟩ := t.fileIter_spec piece offset
  have hoffset : t.targetOffset piece offset = piece * t.pieceLength + offset :=
    Nat.mod_eq_of_lt (Nat.lt_of_lt_of_le htarget hfit.totalSize_le)
  have hfound : t.foundPosition piece offset = piece * t.pieceLength + offset := by
    unfold foundPosition fileOffset
    rw [t.getD_fileOffsets hlt, Nat.mod_eq_of_lt (hfit.start_lt _ hlt), hoffset] at hle ⊢
    exact Nat.add_sub_cancel' hle
  refine ⟨hfound, ?_⟩
  unfold EndsInside mappedSize
  rw [hfound, hoffset]
  split_ifs <;> omega

variable (t) in
/-- The offsets of a torrent of one file fit. -/
lemma offsetsFit_of_numFiles_eq_one (hsingle : t.numFiles = 1) : t.OffsetsFit := by
  obtain ⟨f, hf⟩ := List.length_eq_one_iff.mp hsingle
  have hsize : f.size < offsetRange := t.size_lt f (by rw [hf]; exact List.mem_singleton_self f)
  have hsizes : t.sizes = [f.size] := by rw [sizes, hf, List.map_singleton]
  refine ⟨fun i hi => ?_, ?_⟩
  · obtain rfl : i = 0 := by omega
    exact Nat.two_pow_pos 48
  · rw [totalSize, hsizes, List.sum_singleton]
    exact Nat.le_of_lt hsize

end TorrentInfo

end Tent
