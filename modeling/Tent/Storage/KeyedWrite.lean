import Tent.Pieces.Slots

/-!
# Writing a block by its key

`file_handler` has a second `write`, which is given the key of a block and works out the place and
the length of the write on its own: the place as a product of an `int` and a `uint32_t`, and the
length as a remainder of the number of bytes that the buffer holds.

For a torrent of one file it should store what the other `write` does with the slice that
`map_block` gives (`OverloadsAgree`).  `write_overloads_agree_iff` says when: the product must not
wrap around, the buffer must hold a full block, and the block must not end the file.
-/

set_option autoImplicit false

namespace Tent

open Bytes Segments

namespace FileHandler

variable {Digest : Type*} (t : TorrentInfo Digest) (pos : PieceReceivedKey)

/-- `offset`, a `uint32_t`. -/
def keyOffset : ℕ := (t.pieceLength * pos.index + pos.begin) % uint32Range

/-- `file_len - offset`, converted to the `size_t` that the remainder is taken by. -/
def keyRemaining : ℕ := (((t.totalSize : ℤ) - keyOffset t pos) % 2 ^ 64).toNat

/-- `file_handler::write(pos, data)`: the stream after it; none if the remainder is taken by
zero. -/
def writeKey (oob : Oob) (data : ByteString) (f : OFStream) : Option OFStream :=
  if keyRemaining t pos = 0 then none
  else
    let writeLen := data.length % keyRemaining t pos
    some ((f.seekp (keyOffset t pos)).write (window oob data 0 writeLen))

/-- The position of a block in the torrent. -/
def blockTarget : ℕ := pos.index * t.pieceLength + pos.begin

/-- The range of the only file where a block belongs: from its position on, as many bytes as there
are, cut off at the end of the file. -/
def blockRange (data : ByteString) : FileSlice :=
  ⟨0, blockTarget t pos, min data.length (t.totalSize - blockTarget t pos)⟩

/-- Both overloads of `write` store the bytes of the buffer where they belong. -/
structure OverloadsAgree (oob : Oob) (data : ByteString) : Prop where
  /-- `map_block` gives the range where they belong. -/
  mapBlock_eq : t.mapBlock pos.index pos.begin blockLen = [blockRange t pos data]
  /-- Written by the key, they leave the same file as written along this slice. -/
  content_eq : ∀ f : OFStream, f.fail = false → f.content.length = t.totalSize →
    (writeKey t pos oob data f).map OFStream.content =
      some (write oob data (blockRange t pos data).offset (blockRange t pos data).size f).content

variable {t pos} {oob : Oob} {data : ByteString}

/-- In a torrent of one file, a block is mapped to one slice. -/
lemma mapBlock_of_numFiles_eq_one (hsingle : t.numFiles = 1)
    (htarget : blockTarget t pos < t.totalSize) {size : ℕ} (hsize : 0 < size) :
    t.mapBlock pos.index pos.begin size =
      [⟨0, blockTarget t pos, min size (t.totalSize - blockTarget t pos)⟩] := by
  obtain ⟨file, hfiles⟩ := List.length_eq_one_iff.mp hsingle
  have hsizes : t.sizes = [t.totalSize] := by
    simp [TorrentInfo.totalSize, TorrentInfo.sizes, hfiles]
  have hmapped : t.Mapped pos.index pos.begin size :=
    (t.offsetsFit_of_numFiles_eq_one hsingle).mapped size htarget
  have hiter : t.fileIter pos.index pos.begin = 0 := by
    have hlt := (t.fileIter_spec pos.index pos.begin).1
    omega
  have hoffset : t.fileOffset pos.index pos.begin = blockTarget t pos := by
    have hfound := hmapped.found_eq
    rwa [TorrentInfo.foundPosition, hiter, start_zero, Nat.zero_add] at hfound
  have hcut := t.map_toSlice_mapBlock hmapped.endsInside
  rw [hmapped.mappedSize_eq_min, ← blockTarget, hiter, hoffset, hsizes, List.drop_zero, cut,
    if_neg (by omega), if_pos htarget, cut, Nat.min_eq_right (Nat.min_le_right _ _)] at hcut
  obtain ⟨s, hs, hslice⟩ := List.map_eq_singleton_iff.mp hcut
  obtain ⟨file, offset, size⟩ := s
  rw [hs]
  exact congrArg (fun s : Slice => [(⟨s.segment, s.offset, s.length⟩ : FileSlice)]) hslice

/-- The place of the write by the key is not behind that of the block. -/
lemma keyOffset_le : keyOffset t pos ≤ blockTarget t pos := by
  rw [keyOffset, blockTarget, Nat.mul_comm]
  exact Nat.mod_le _ _

/-- The place of the write by the key is that of the block exactly if the product does not wrap
around. -/
lemma keyOffset_eq_iff : keyOffset t pos = blockTarget t pos ↔ blockTarget t pos < 2 ^ 32 := by
  rw [keyOffset, blockTarget, Nat.mul_comm, uint32Range, Nat.mod_eq_iff_lt (by decide)]

/-- For a block of the torrent, the remainder is taken by the number of bytes behind the place of
the write. -/
lemma keyRemaining_eq (htarget : blockTarget t pos < t.totalSize) :
    keyRemaining t pos = t.totalSize - keyOffset t pos := by
  have hle : keyOffset t pos ≤ blockTarget t pos := keyOffset_le
  have htotal : t.totalSize < 2 ^ 64 := by
    have hpieces : intMax - t.pieceLength ≤ intMax := Nat.sub_le _ _
    calc t.totalSize < (intMax - t.pieceLength) * t.pieceLength := t.totalSize_lt
      _ ≤ intMax * intMax := Nat.mul_le_mul hpieces t.pieceLength_le
      _ ≤ 2 ^ 64 := by decide
  rw [keyRemaining, ← Nat.cast_sub (by omega), Int.emod_eq_of_lt (by omega) (by omega),
    Int.toNat_natCast]

/-- What the write by the key of a block of the torrent leaves of a file of the right size. -/
lemma writeKey_of_good (htarget : blockTarget t pos < t.totalSize) {f : OFStream}
    (hf : f.fail = false) :
    writeKey t pos oob data f = some ⟨overwrite 0 f.content (keyOffset t pos)
        (data.take (data.length % keyRemaining t pos)),
      keyOffset t pos + data.length % keyRemaining t pos, false⟩ := by
  have hle : keyOffset t pos ≤ blockTarget t pos := keyOffset_le
  have hpos : keyRemaining t pos ≠ 0 := by
    rw [keyRemaining_eq htarget]
    omega
  have hmod : data.length % keyRemaining t pos ≤ data.length := Nat.mod_le _ _
  rw [writeKey, if_neg hpos, OFStream.seekp_natCast hf]
  simp [OFStream.write, window_zero_eq_take oob hmod, hmod]

/-- If the overloads agree, the buffer holds as much of the block as is mapped. -/
lemma OverloadsAgree.min_length_eq (h : OverloadsAgree t pos oob data) (hsingle : t.numFiles = 1)
    (htarget : blockTarget t pos < t.totalSize) :
    min blockLen (t.totalSize - blockTarget t pos) =
      min data.length (t.totalSize - blockTarget t pos) := by
  have hslice := mapBlock_of_numFiles_eq_one hsingle htarget blockLen_pos
  rw [h.mapBlock_eq] at hslice
  exact (congrArg FileSlice.size (List.singleton_inj.mp hslice)).symm

/-- If the overloads agree, the write by the key goes to the range where the block belongs. -/
lemma OverloadsAgree.range_eq (h : OverloadsAgree t pos oob data) (hsingle : t.numFiles = 1)
    (htarget : blockTarget t pos < t.totalSize) :
    keyOffset t pos = blockTarget t pos ∧
      data.length % keyRemaining t pos = min data.length (t.totalSize - blockTarget t pos) := by
  have hpos := blockLen_pos
  have hsize := h.min_length_eq hsingle htarget
  have hle : keyOffset t pos ≤ blockTarget t pos := keyOffset_le
  have hremaining := keyRemaining_eq htarget
  set n := min data.length (t.totalSize - blockTarget t pos) with hn
  set m := data.length % keyRemaining t pos with hm
  have hmlt : m < keyRemaining t pos := Nat.mod_lt _ (by omega)
  have hmlen : (data.take m).length = m := by
    rw [List.length_take]
    exact Nat.min_eq_left (Nat.mod_le _ _)
  have hnlen : (data.take n).length = n := by
    rw [List.length_take]
    omega
  have hne : data.take n ≠ [] := List.length_pos_iff.mp (by omega)
  have hwrites : ∀ image : ByteString, image.length = t.totalSize →
      overwrite 0 image (blockTarget t pos) (data.take n) =
        overwrite 0 image (keyOffset t pos) (data.take m) := by
    intro image himage
    have hcontent := h.content_eq ⟨image, 0, false⟩ rfl himage
    rw [writeKey_of_good htarget rfl, write_of_good rfl] at hcontent
    have hwindow : window oob data 0 n = data.take n := window_zero_eq_take oob (by omega)
    rw [← hwindow]
    exact (Option.some.inj hcontent).symm
  have hbytes : Nontrivial UInt8 := ⟨0, 1, by decide⟩
  rcases overwrite_inj 0 hne (by omega) (by omega) hwrites with ⟨hoffset, htake⟩
  refine ⟨hoffset.symm, ?_⟩
  rw [← hmlen, ← htake, hnlen]

/-- If the overloads agree, the product does not wrap around. -/
lemma OverloadsAgree.target_lt (h : OverloadsAgree t pos oob data) (hsingle : t.numFiles = 1)
    (htarget : blockTarget t pos < t.totalSize) : blockTarget t pos < 2 ^ 32 :=
  keyOffset_eq_iff.mp (h.range_eq hsingle htarget).1

/-- If the overloads agree, the buffer ends before the file does. -/
lemma OverloadsAgree.length_lt (h : OverloadsAgree t pos oob data) (hsingle : t.numFiles = 1)
    (htarget : blockTarget t pos < t.totalSize) :
    blockTarget t pos + data.length < t.totalSize := by
  rcases h.range_eq hsingle htarget with ⟨hoffset, hlength⟩
  have hremaining := keyRemaining_eq htarget
  have hlt : data.length % keyRemaining t pos < keyRemaining t pos := Nat.mod_lt _ (by omega)
  omega

/-- The overloads agree on a full block that is not behind the first 4 GiB and does not end the
file. -/
lemma overloadsAgree_of_full (hsingle : t.numFiles = 1) (hwrap : blockTarget t pos < 2 ^ 32)
    (hfull : data.length = blockLen) (hend : blockTarget t pos + blockLen < t.totalSize) :
    OverloadsAgree t pos oob data := by
  have htarget : blockTarget t pos < t.totalSize := by omega
  have hoffset := keyOffset_eq_iff.mpr hwrap
  have hremaining := keyRemaining_eq htarget
  have hmod : data.length % keyRemaining t pos = data.length := Nat.mod_eq_of_lt (by omega)
  have hmin : min data.length (t.totalSize - blockTarget t pos) = data.length :=
    Nat.min_eq_left (by omega)
  constructor
  · rw [mapBlock_of_numFiles_eq_one hsingle htarget blockLen_pos, blockRange, hfull]
  · intro f hf _
    have hwindow : window oob data 0 (blockRange t pos data).size = data.take data.length := by
      change window oob data 0 (min data.length (t.totalSize - blockTarget t pos)) = _
      rw [hmin, window_zero_eq_take oob (Nat.le_refl _)]
    rw [writeKey_of_good htarget hf, write_of_good hf, hwindow, hmod, hoffset]
    rfl

/-- In a torrent of one file, for a position inside of it and whatever the buffer holds: the two
overloads store the same bytes at the same offset, where they belong, exactly if the position is
below 4 GiB, the buffer holds a full block, and the block ends before the file does. -/
theorem write_overloads_agree_iff (oob : Oob) (t : TorrentInfo Digest) (hsingle : t.numFiles = 1)
    (pos : PieceReceivedKey) (data : ByteString)
    (htarget : pos.index * t.pieceLength + pos.begin < t.totalSize) :
    OverloadsAgree t pos oob data ↔
      pos.index * t.pieceLength + pos.begin < 2 ^ 32 ∧ data.length = blockLen ∧
        pos.index * t.pieceLength + pos.begin + blockLen < t.totalSize := by
  change blockTarget t pos < t.totalSize at htarget
  constructor
  · intro h
    have hwrap := h.target_lt hsingle htarget
    have hend := h.length_lt hsingle htarget
    have hsize := h.min_length_eq hsingle htarget
    have hfull : data.length = blockLen := by omega
    exact ⟨hwrap, hfull, hfull ▸ hend⟩
  · rintro ⟨hwrap, hfull, hend⟩
    exact overloadsAgree_of_full hsingle hwrap hfull hend

/-- The overloads agree on the first block of a file that is one byte longer. -/
theorem write_overloads_agree_sample :
    OverloadsAgree PieceHandler.twoBlockEnv.torrent ⟨0, 0⟩ (fun _ _ => 0)
      (List.replicate blockLen 0) := by
  have hiff := write_overloads_agree_iff (fun _ _ => 0) PieceHandler.twoBlockEnv.torrent rfl
    ⟨0, 0⟩ (List.replicate blockLen 0) (by decide)
  exact hiff.mpr ⟨by decide, List.length_replicate, by decide⟩

/-- A torrent of one file that goes on for two blocks behind the first 4 GiB. -/
def wideTorrent : TorrentInfo ByteString where
  pieceLength := 2 ^ 20
  files := [⟨[], "a", 2 ^ 32 + 2 * blockLen⟩]
  hashForPiece := fun _ => []
  pieceLength_pos := Nat.two_pow_pos 20
  pieceLength_le := by decide
  files_ne_nil := List.cons_ne_nil _ _
  totalSize_lt := by decide

/-- The only block of a file of one byte, which it ends, and the full block that starts at 4 GiB:
neither is stored alike by the two overloads. -/
theorem write_by_key_diverges :
    ((sampleTorrent []).numFiles = 1 ∧
      ([1] : ByteString).length = min blockLen ((sampleTorrent []).pieceSize 0) ∧
      ¬ OverloadsAgree (sampleTorrent []) ⟨0, 0⟩ (fun _ _ => 0) [1]) ∧
    (wideTorrent.numFiles = 1 ∧
      (List.replicate blockLen (0 : UInt8)).length = min blockLen (wideTorrent.pieceSize 4096) ∧
      ¬ OverloadsAgree wideTorrent ⟨4096, 0⟩ (fun _ _ => 0) (List.replicate blockLen 0)) := by
  refine ⟨⟨rfl, by decide, fun h => ?_⟩, rfl, ?_, fun h => ?_⟩
  · exact absurd (h.length_lt rfl (by decide)) (by decide)
  · rw [List.length_replicate]
    decide
  · exact absurd (h.target_lt rfl (by decide)) (by decide)

end FileHandler

end Tent
