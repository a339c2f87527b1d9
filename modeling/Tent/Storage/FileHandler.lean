import Tent.Foundation.Bytes
import Tent.Storage.FileStorage

/-!
# File handlers

`file_handler` owns an output stream.  Its constructor opens the file, which truncates it, seeks to
the last byte and writes a zero there, so that the file has its final size and holds zeros.
`write` seeks and writes the next bytes of a buffer.

The stream follows `std::ofstream`: once `failbit` is set, `seekp` and `write` do nothing.  The
constructor sets it for a file of size zero, where the seek goes to offset `-1`; such a file stays
empty and `map_block` never names it.
-/

set_option autoImplicit false

namespace Tent

open Bytes

/-- An output file stream: the bytes on disk, the put position and `failbit`. -/
structure OFStream where
  /-- The contents of the file. -/
  content : ByteString
  /-- The put position. -/
  pos : ℕ
  /-- `failbit`. -/
  fail : Bool
deriving DecidableEq, Repr

namespace OFStream

/-- Opening with `std::ios::out` truncates the file. -/
def opened : OFStream := ⟨[], 0, false⟩

/-- `seekp(off)`; a negative offset fails. -/
def seekp (off : ℤ) (f : OFStream) : OFStream :=
  if f.fail then f
  else if off < 0 then { f with fail := true }
  else { f with pos := off.toNat }

/-- `write(bs, n)`. -/
def write (bs : ByteString) (f : OFStream) : OFStream :=
  if f.fail then f
  else { f with content := overwrite 0 f.content f.pos bs, pos := f.pos + bs.length }

/-- A good stream can be positioned anywhere from the start of the file on. -/
lemma seekp_natCast {f : OFStream} (hf : f.fail = false) (off : ℕ) :
    f.seekp (off : ℤ) = ⟨f.content, off, false⟩ := by
  rw [seekp, if_neg (by simp [hf]), if_neg (by omega), Int.toNat_natCast, hf]

end OFStream

namespace FileHandler

/-- The constructor `file_handler::file_handler`: open the file and give it its size. -/
def create (size : ℕ) : OFStream :=
  (OFStream.opened.seekp ((size : ℤ) - 1)).write [0]

/-- `file_handler::write(data, offset, size)`: the stream after it.  `data.read(size)` hands out
the next `size` bytes, whether or not the buffer holds as many. -/
def write (oob : Oob) (data : ByteString) (offset size : ℕ) (f : OFStream) : OFStream :=
  (f.seekp offset).write (window oob data 0 size)

/-- The constructor leaves a file of the right size that holds zeros, and the stream can be written
to unless the size is zero. -/
lemma create_spec (size : ℕ) :
    (create size).content = List.replicate size 0 ∧ (create size).fail = decide (size = 0) := by
  cases size with
  | zero => exact ⟨rfl, rfl⟩
  | succ n =>
    have hseek : OFStream.opened.seekp (((n + 1 : ℕ) : ℤ) - 1) = ⟨[], n, false⟩ := by
      rw [show ((n + 1 : ℕ) : ℤ) - 1 = (n : ℤ) by omega]
      exact OFStream.seekp_natCast rfl n
    unfold create
    rw [hseek]
    simp [OFStream.write, overwrite, List.replicate_succ']

/-- A write to a good stream replaces the bytes of its range. -/
lemma write_of_good {oob : Oob} {data : ByteString} {offset size : ℕ} {f : OFStream}
    (hf : f.fail = false) :
    write oob data offset size f =
      ⟨overwrite 0 f.content offset (window oob data 0 size), offset + size, false⟩ := by
  simp [write, OFStream.seekp_natCast hf, OFStream.write]

end FileHandler

/-! ### The files of a torrent on disk -/

/-- The streams of the files, by file index. -/
abbrev Disk := ℕ → OFStream

namespace Disk

/-- What the disk holds at an offset of a file. -/
def image (d : Disk) (f o : ℕ) : Option UInt8 :=
  (d f).content[o]?

variable {Digest : Type*}

/-- Every file of the torrent has its size, and can be written to unless it is empty. -/
structure Formatted (t : TorrentInfo Digest) (d : Disk) : Prop where
  /-- The files have their sizes. -/
  length_eq : ∀ f < t.numFiles, (d f).content.length = t.fileSize f
  /-- The streams of non-empty files are good. -/
  good : ∀ f < t.numFiles, 0 < t.fileSize f → (d f).fail = false

/-- The disk after the constructors of all file handlers. -/
def create (t : TorrentInfo Digest) : Disk := fun f => FileHandler.create (t.fileSize f)

/-- The constructors leave a formatted disk. -/
lemma formatted_create (t : TorrentInfo Digest) : Formatted t (create t) where
  length_eq f _ := by
    unfold create
    rw [(FileHandler.create_spec _).1, List.length_replicate]
  good f _ hpos := by
    unfold create
    rw [(FileHandler.create_spec _).2]
    exact decide_eq_false (Nat.pos_iff_ne_zero.mp hpos)

/-- Writing a range that lies inside a file keeps the disk formatted. -/
lemma Formatted.update {t : TorrentInfo Digest} {d : Disk} (hd : Formatted t d) (oob : Oob)
    (data : ByteString) {s : FileSlice} (hf : s.fileIndex < t.numFiles) (hpos : 0 < s.size)
    (hle : s.offset + s.size ≤ t.fileSize s.fileIndex) :
    Formatted t (Function.update d s.fileIndex
      (FileHandler.write oob data s.offset s.size (d s.fileIndex))) := by
  have hgood := hd.good s.fileIndex hf (by omega)
  have hlen := hd.length_eq s.fileIndex hf
  constructor
  · intro f hf'
    by_cases h : f = s.fileIndex
    · subst h
      rw [Function.update_self, FileHandler.write_of_good hgood, length_overwrite, hlen]
      simpa [hlen] using hle
    · rw [Function.update_of_ne h]
      exact hd.length_eq f hf'
  · intro f hf' hsize
    by_cases h : f = s.fileIndex
    · subst h
      rw [Function.update_self, FileHandler.write_of_good hgood]
    · rw [Function.update_of_ne h]
      exact hd.good f hf' hsize

/-- Writing a range of a file from the front of a buffer that holds enough bytes is dealing these
bytes out along the slice. -/
lemma Formatted.image_update {t : TorrentInfo Digest} {d : Disk} (hd : Formatted t d) (oob : Oob)
    {data : ByteString} {s : FileSlice} (hf : s.fileIndex < t.numFiles) (hpos : 0 < s.size)
    (hle : s.offset + s.size ≤ t.fileSize s.fileIndex) (hdata : s.size ≤ data.length) :
    image (Function.update d s.fileIndex
      (FileHandler.write oob data s.offset s.size (d s.fileIndex))) = fun j o =>
        if j = s.fileIndex ∧ s.offset ≤ o ∧ o < s.offset + s.size then data[o - s.offset]?
        else image d j o := by
  have hgood := hd.good s.fileIndex hf (by omega)
  have hlen := hd.length_eq s.fileIndex hf
  funext j o
  by_cases hj : j = s.fileIndex
  · subst hj
    rw [image, Function.update_self, FileHandler.write_of_good hgood,
      window_zero_eq_take oob hdata, getElem?_overwrite 0 (by simp; omega), image]
    have hmin : (data.take s.size).length = s.size := by simp; omega
    rw [hmin]
    by_cases hc : s.offset ≤ o ∧ o < s.offset + s.size
    · rw [if_pos hc, if_pos ⟨rfl, hc⟩, List.getElem?_take_of_lt (by omega)]
    · rw [if_neg hc, if_neg (by omega)]
  · rw [image, Function.update_of_ne hj, if_neg (by simp [hj]), image]

end Disk

end Tent
