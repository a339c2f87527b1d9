import Mathlib.Algebra.Order.BigOperators.Group.List
import Tent.Metainfo.InfoSection
import Tent.Storage.DirTree

/-!
# Torrents that are accepted

What `parse_info_section` accepts is a torrent as the rest of the development has it
(`parseInfoSection_torrentInfo`): with the sizes of its files, their names and paths, and the
hashes of its pieces.  The sizes are summed up in an `int64_t`, so that this needs a bound on the
number of files, and a name that is borrowed must fit into the field for its length.  The name of a
file may have a slash in it (`parseInfoSection_plain_iff`).

It also fails without an error code, which is all that `main` looks at
(`parseInfoSection_eq_error_none`).
-/

set_option autoImplicit false

namespace Tent

open Bytes SecureHash Lexical Transition

/-! ### Sizes and offsets -/

namespace FileStorage

/-- The offsets that files of the given sizes get from a total size on. -/
def offsetsFrom : List ℕ → ℕ → List ℕ
  | [], _ => []
  | size :: sizes, total => total :: offsetsFrom sizes (total + size)

/-- The sizes of the files. -/
def sizes (fs : FileStorage) : List ℕ := fs.files.map fun e => e.size.toNat

/-- The total size is the sum of the sizes, and a file begins where the files before it end, up to
the overflow of both. -/
structure Summed (fs : FileStorage) : Prop where
  /-- The total size has 64 bits. -/
  total : fs.totalSize.toNat = fs.sizes.sum % 2 ^ 64
  /-- The offsets have 48 bits. -/
  offsets : (fs.files.map fun e => e.offset.toNat) = (offsetsFrom fs.sizes 0).map (· % 2 ^ 48)

/-- The offsets with one file more. -/
lemma offsetsFrom_concat (sizes : List ℕ) (size total : ℕ) :
    offsetsFrom (sizes ++ [size]) total = offsetsFrom sizes total ++ [total + sizes.sum] := by
  induction sizes generalizing total with
  | nil => rfl
  | cons first sizes ih =>
    rw [List.cons_append, offsetsFrom, ih, offsetsFrom, List.sum_cons, List.cons_append,
      Nat.add_assoc]

/-- A storage with one file more. -/
lemma Summed.concat {fs fs' : FileStorage} {e : InternalFileEntry} (h : fs.Summed)
    (hfiles : fs'.files = fs.files ++ [e]) (hoffset : e.offset = fs.totalSize.setWidth 48)
    (htotal : fs'.totalSize = fs.totalSize + e.size.setWidth 64) : fs'.Summed := by
  have hsizes : fs'.sizes = fs.sizes ++ [e.size.toNat] := by
    rw [sizes, hfiles, List.map_append]
    rfl
  have hlt := e.size.isLt
  refine ⟨?_, ?_⟩
  · rw [htotal, hsizes, List.sum_append, List.sum_singleton, BitVec.toNat_add,
      BitVec.toNat_setWidth, h.total]
    omega
  · rw [hfiles, List.map_append, h.offsets, hsizes, offsetsFrom_concat, List.map_append,
      List.map_singleton, List.map_singleton, hoffset, BitVec.toNat_setWidth, h.total]
    congr 2
    omega

/-- Adding a file. -/
lemma Adds.summed {fit : Prop} {fs fs' : FileStorage} (h : Adds fit fs fs')
    (hsummed : fs.Summed) : fs'.Summed ∧ fs'.pieceLength = fs.pieceLength := by
  obtain ⟨names, last, filename, fileSize, fileFlags, symlinkPath, hnames, hlast, hfirst, -, -, -,
    rfl⟩ := h
  obtain ⟨e, paths, symlinks, name, heq, -, -, hsize, hoffset, -⟩ :=
    fs.addFileBorrow_spec hnames hlast hfirst filename fileSize fileFlags symlinkPath
  rw [heq]
  exact ⟨hsummed.concat (e := e) rfl hoffset (by rw [hsize]), rfl⟩

/-- Adding files. -/
lemma summed_of_adds {fit : Prop} {fs fs' : FileStorage}
    (h : Relation.ReflTransGen (Adds fit) fs fs') (hsummed : fs.Summed) :
    fs'.Summed ∧ fs'.pieceLength = fs.pieceLength := by
  induction h with
  | refl => exact ⟨hsummed, rfl⟩
  | tail _ hstep ih =>
    obtain ⟨hsummed', hlength⟩ := hstep.summed ih.1
    exact ⟨hsummed', hlength.trans ih.2⟩

/-- Few files are less than `int64_t` can hold. -/
lemma sum_sizes_lt {fs : FileStorage} (h : fs.files.length < 2 ^ 15) : fs.sizes.sum < 2 ^ 63 := by
  have hle : fs.sizes.sum ≤ fs.sizes.length * (2 ^ 48 - 1) := by
    refine List.sum_le_card_nsmul _ _ fun size hsize => ?_
    obtain ⟨e, -, rfl⟩ := List.mem_map.mp hsize
    exact Nat.le_pred_of_lt e.size.isLt
  rw [sizes, List.length_map] at hle
  have hmul : fs.files.length * (2 ^ 48 - 1) ≤ (2 ^ 15 - 1) * (2 ^ 48 - 1) :=
    Nat.mul_le_mul_right _ (Nat.le_pred_of_lt h)
  exact Nat.lt_of_le_of_lt (hle.trans hmul) (by decide)

/-- The total size of few files does not wrap around. -/
lemma Summed.total_of_few {fs : FileStorage} (h : fs.Summed) (hfew : fs.files.length < 2 ^ 15) :
    fs.totalSize.toNat = fs.sizes.sum ∧ fs.totalSize.toInt = fs.sizes.sum := by
  have hsum := sum_sizes_lt hfew
  have hnat : fs.totalSize.toNat = fs.sizes.sum := by
    rw [h.total, Nat.mod_eq_of_lt (by omega)]
  refine ⟨hnat, ?_⟩
  rw [BitVec.toInt_eq_toNat_of_lt (by rw [hnat]; omega), hnat]

/-! ### Files as the client reads them -/

/-- The text of a byte string, with a character for each byte. -/
def text (b : ByteString) : String := String.ofList (b.map fun c => Char.ofNat c.toNat)

/-- The directories of a file. -/
def directories (fs : FileStorage) (e : InternalFileEntry) : List ByteString :=
  if e.pathIndex < 0 then []
  else
    let p := fs.paths.getD e.pathIndex.toNat []
    let names := if p = [] then [] else p.splitOn separator
    if e.noRootDir then names else fs.name :: names

/-- A file of the storage as the client reads it. -/
def entry (fs : FileStorage) (e : InternalFileEntry) : FileEntry where
  branch := (fs.directories e).map text
  name := text e.name
  size := e.size.toNat

/-- The components of a path of components. -/
lemma split_joinNames {names : List ByteString} (hnames : ∀ n ∈ names, Component n) :
    (if joinNames names = [] then [] else (joinNames names).splitOn separator) = names := by
  by_cases hne : names = []
  · subst hne
    rfl
  · rw [if_neg (joinNames_ne_nil hnames hne)]
    exact List.splitOn_intercalate separator (fun n hn => (hnames n hn).ordinary.not_mem) hne

/-- The directories that a file was added below. -/
lemma Located.directories {fs : FileStorage} {e : InternalFileEntry} {names : List ByteString}
    (h : Located fs e names) (hnames : ∀ n ∈ names, Component n) : fs.directories e = names := by
  cases h with
  | bare hindex => rw [FileStorage.directories, if_pos (by omega)]
  | @rooted names i hindex hroot hpath =>
    rw [FileStorage.directories, if_neg (by omega)]
    dsimp only
    rw [hindex, Int.toNat_natCast, List.getD_eq_getElem?_getD, hpath, Option.getD_some, hroot,
      if_neg (by decide), split_joinNames fun n hn => hnames n (List.mem_cons_of_mem _ hn)]
  | @loose _ i hne hindex hroot hpath =>
    rw [FileStorage.directories, if_neg (by omega)]
    dsimp only
    rw [hindex, Int.toNat_natCast, List.getD_eq_getElem?_getD, hpath, Option.getD_some, hroot,
      if_pos rfl, split_joinNames hnames]

/-- The text of two byte strings in a row. -/
lemma text_append (a b : ByteString) : text (a ++ b) = text a ++ text b := by
  rw [text, List.map_append, String.ofList_append]
  rfl

/-- The text of a path is the path of the texts. -/
lemma text_joinNames (names : List ByteString) :
    text (joinNames names) = "/".intercalate (names.map text) := by
  induction names with
  | nil => rfl
  | cons name names ih =>
    by_cases hne : names = []
    · subst hne
      rw [joinNames, List.intercalate_singleton, List.map_singleton, String.intercalate_singleton]
    · have hmap : names.map text ≠ [] := by simpa using hne
      rw [joinNames, List.intercalate_cons_of_ne_nil hne, List.map_cons,
        String.intercalate_cons_of_ne_nil hmap, text_append, text_append, ← ih]
      rfl

/-- The path of a file that is kept is `file_path`. -/
lemma Kept.path_entry {fs : FileStorage} {e : InternalFileEntry} (h : fs.Kept e) :
    (fs.entry e).path = text (fs.filePath e []) := by
  obtain ⟨names, last, hnames, -, hlocated, hleaf, -⟩ := h
  rw [hlocated.filePath hnames hleaf, text_joinNames, FileEntry.path, entry,
    hlocated.directories hnames, List.map_append, List.map_singleton]

end FileStorage

/-- The offsets of the files of a torrent. -/
lemma fileOffsets_eq (files : List FileEntry) (total : ℕ) :
    fileOffsets files total =
      (FileStorage.offsetsFrom (files.map FileEntry.size) total).map (· % 2 ^ 48) := by
  induction files generalizing total with
  | nil => rfl
  | cons file files ih =>
    rw [fileOffsets, ih, List.map_cons, FileStorage.offsetsFrom, List.map_cons, offsetRange]

/-! ### Accepted torrents -/

/-- The number of pieces as `int` holds it. -/
lemma toInt_numPieces (t : TorrentInfo ByteString) :
    (BitVec.ofInt 32 (((t.totalSize : ℤ) + t.pieceLength - 1).tdiv t.pieceLength)).toInt =
      (t.numPieces : ℤ) := by
  have hpos := t.pieceLength_pos
  have hdiv : ((t.totalSize : ℤ) + t.pieceLength - 1).tdiv t.pieceLength = (t.numPieces : ℤ) := by
    rw [Int.tdiv_eq_ediv_of_nonneg (by omega), TorrentInfo.numPieces, Int.natCast_ediv,
      Nat.cast_sub (by omega)]
    push_cast
    rfl
  have hlow : (-2 ^ (32 - 1) : ℤ) ≤ t.numPieces := le_trans (by decide) (Int.natCast_nonneg _)
  have hhigh : (t.numPieces : ℤ) < 2 ^ (32 - 1) := by exact_mod_cast t.numPieces_lt
  rw [hdiv, BitVec.toInt_ofInt_eq_self (by decide) hlow hhigh]

/-- What is accepted is a torrent of the client, with the files as they were kept, the number of
pieces that was set and the hashes of all pieces, unless it has the root of a hash tree in their
place. -/
theorem parseInfoSection_torrentInfo {info : BNode} {dataSection : ByteString} {maxPieces : ℤ}
    {t : InfoSection} (h : parseInfoSection info dataSection maxPieces = .ok t)
    (hfit : namesFit info = true) (hfew : t.files.files.length < 2 ^ 15) :
    ∃ torrent : TorrentInfo ByteString,
      torrent.pieceLength = t.files.pieceLength ∧
      torrent.files = t.files.files.map t.files.entry ∧
      (∀ e ∈ t.files.files, (t.files.entry e).path = FileStorage.text (t.files.filePath e [])) ∧
      torrent.totalSize = t.files.totalSize.toNat ∧
      (torrent.numPieces : ℤ) = t.files.numPieces ∧
      (t.files.files.map fun e => e.offset.toNat) = fileOffsets torrent.files 0 ∧
      ∀ hashes, t.pieceHashes = some hashes → hashes.length = 20 * torrent.numPieces ∧
        ∀ i, torrent.hashForPiece i = (hashes.drop (20 * i)).take 20 := by
  obtain ⟨pieceLength, files, name, hhead, hextract, hcheck⟩ := parseInfoSection_ok h
  have hpos := hhead.pieceLength_pos
  have hle := hhead.pieceLength_le
  obtain ⟨numPieces, hfiles, hne, htotal, hnum, -, hhashes⟩ := checkPieces_ok hcheck
  have hadds := extractAll_adds hhead.component rfl (fun _ : True => hfit) hextract
  obtain ⟨hsummed, hlength⟩ := FileStorage.summed_of_adds hadds ⟨rfl, rfl⟩
  have hsound := FileStorage.sound_of_adds hadds fun e he => absurd he List.not_mem_nil
  rw [hfiles] at hfew ⊢
  obtain ⟨hnat, hint⟩ := hsummed.total_of_few hfew
  have hsizes : (files.files.map files.entry).map FileEntry.size = files.sizes := by
    rw [List.map_map]
    rfl
  have hlength' : files.pieceLength = pieceLength := hlength
  have hbound : files.sizes.sum < (intMax - files.pieceLength) * files.pieceLength := by
    have hcast : ((intMax - files.pieceLength : ℕ) : ℤ) = (intMax : ℤ) - files.pieceLength :=
      Nat.cast_sub (hlength' ▸ hle)
    rw [hint, ← hcast] at htotal
    exact_mod_cast htotal
  let torrent : TorrentInfo ByteString :=
    { pieceLength := files.pieceLength
      files := files.files.map files.entry
      hashForPiece := fun i => ((t.pieceHashes.getD []).drop (20 * i)).take 20
      pieceLength_pos := hlength' ▸ hpos
      pieceLength_le := hlength' ▸ hle
      files_ne_nil := by simpa using hne
      totalSize_lt := by rw [hsizes]; exact hbound
      size_lt := fun file hfile => by
        obtain ⟨e, -, rfl⟩ := List.mem_map.mp hfile
        exact e.size.isLt }
  have htorrent : torrent.totalSize = files.sizes.sum := congrArg List.sum hsizes
  have hpieces : (torrent.numPieces : ℤ) = numPieces := by
    rw [hnum, hint, ← htorrent]
    exact (toInt_numPieces torrent).symm
  refine ⟨torrent, rfl, rfl, fun e he => ?_, htorrent.trans hnat.symm, hpieces, ?_, ?_⟩
  · exact (hsound e he).path_entry
  · rw [hsummed.offsets, fileOffsets_eq]
    exact congrArg (fun sizes => (FileStorage.offsetsFrom sizes 0).map (· % 2 ^ 48)) hsizes.symm
  · intro hashes hsome
    refine ⟨?_, fun i => ?_⟩
    · have := hhashes hashes hsome
      omega
    · change ((t.pieceHashes.getD []).drop (20 * i)).take 20 = _
      rw [hsome, Option.getD_some]

/-- The theorem at a torrent with one file. -/
theorem parseInfoSection_torrentInfo_sample :
    ∃ t, parseInfoSection dottedInfo [100, 101] defaultPieceLimit = .ok t ∧
      ∃ torrent : TorrentInfo ByteString,
        torrent.pieceLength = t.files.pieceLength ∧
        torrent.files = t.files.files.map t.files.entry ∧
        (∀ e ∈ t.files.files,
          (t.files.entry e).path = FileStorage.text (t.files.filePath e [])) ∧
        torrent.totalSize = t.files.totalSize.toNat ∧
        (torrent.numPieces : ℤ) = t.files.numPieces ∧
        (t.files.files.map fun e => e.offset.toNat) = fileOffsets torrent.files 0 ∧
        ∀ hashes, t.pieceHashes = some hashes → hashes.length = 20 * torrent.numPieces ∧
          ∀ i, torrent.hashForPiece i = (hashes.drop (20 * i)).take 20 := by
  have hrun : ((parseInfoSection dottedInfo [100, 101] defaultPieceLimit).map fun t =>
      t.files.files.length).toOption = some 1 := by decide +kernel
  cases hparse : parseInfoSection dottedInfo [100, 101] defaultPieceLimit with
  | error e =>
    rw [hparse] at hrun
    cases hrun
  | ok t =>
    rw [hparse] at hrun
    have hfiles : t.files.files.length = 1 := Option.some.inj hrun
    exact ⟨t, rfl, parseInfoSection_torrentInfo hparse (by decide +kernel) (by omega)⟩

/-! ### Slashes in names -/

namespace FileStorage

/-- A byte stands in a byte string if its character stands in the text. -/
lemma mem_text {b : ByteString} {c : UInt8} : Char.ofNat c.toNat ∈ (text b).toList ↔ c ∈ b := by
  have hchar : ∀ n < 256, (Char.ofNat n).toNat = n := by decide +kernel
  rw [text, String.toList_ofList, List.mem_map]
  constructor
  · rintro ⟨d, hd, heq⟩
    have hnat := congrArg Char.toNat heq
    rw [hchar _ d.toNat_lt, hchar _ c.toNat_lt] at hnat
    exact UInt8.toNat_inj.mp hnat ▸ hd
  · exact fun hc => ⟨c, hc, rfl⟩

/-- The bytes of a path of components. -/
lemma mem_joinNames {names : List ByteString} {b : UInt8} (h : b ∈ joinNames names) :
    b = separator ∨ ∃ n ∈ names, b ∈ n := by
  induction names with
  | nil => cases h
  | cons name names ih =>
    by_cases hne : names = []
    · rw [hne, joinNames, List.intercalate_singleton] at h
      exact Or.inr ⟨name, List.mem_cons_self, h⟩
    · rw [joinNames, List.intercalate_cons_of_ne_nil hne, List.append_assoc,
        List.singleton_append] at h
      rcases List.mem_append.mp h with hname | hrest
      · exact Or.inr ⟨name, List.mem_cons_self, hname⟩
      · rcases List.mem_cons.mp hrest with hsep | hrest
        · exact Or.inl hsep
        · rcases ih hrest with hsep | ⟨n, hn, hb⟩
          · exact Or.inl hsep
          · exact Or.inr ⟨n, List.mem_cons_of_mem _ hn, hb⟩

/-- There is no zero in a component. -/
lemma zero_notMem_component {name : ByteString} (h : Component name) : (0 : UInt8) ∉ name :=
  fun hzero => absurd (h.text.byte hzero).1 (by decide)

/-- The directories of a file that is kept are plain, and its name is if there is no slash in
it. -/
lemma Kept.plain_iff {fs : FileStorage} {e : InternalFileEntry} (h : fs.Kept e) :
    (fs.entry e).Plain ↔ separator ∉ e.name := by
  obtain ⟨names, last, hnames, hlast, hlocated, -, hsuffix, -⟩ := h
  have hdirs := hlocated.directories hnames
  have hzero : (0 : UInt8) ∉ e.name := by
    intro hmem
    rcases mem_joinNames (hsuffix.subset hmem) with hsep | ⟨n, hn, hb⟩
    · exact absurd hsep (by decide)
    · exact zero_notMem_component
        (List.forall_mem_append.mpr ⟨hnames, List.forall_mem_singleton.mpr hlast⟩ n hn) hb
  constructor
  · intro hplain hmem
    exact (hplain (text e.name) (List.mem_append_right _ List.mem_cons_self)).1
      (mem_text.mpr hmem)
  · intro hslash component hcomponent
    rcases List.mem_append.mp hcomponent with hbranch | hname
    · have hbranch' : component ∈ names.map text := hdirs ▸ hbranch
      obtain ⟨n, hn, rfl⟩ := List.mem_map.mp hbranch'
      exact ⟨fun hmem => (hnames n hn).ordinary.not_mem (mem_text.mp hmem),
        fun hmem => zero_notMem_component (hnames n hn) (mem_text.mp hmem)⟩
    · obtain rfl := List.eq_of_mem_singleton hname
      exact ⟨fun hmem => hslash (mem_text.mp hmem), fun hmem => hzero (mem_text.mp hmem)⟩

end FileStorage

/-- The components of the paths of an accepted torrent whose names fit are those that its
directories are made for, unless a name was borrowed that has a slash in it. -/
theorem parseInfoSection_plain_iff {info : BNode} {dataSection : ByteString} {maxPieces : ℤ}
    {t : InfoSection} (h : parseInfoSection info dataSection maxPieces = .ok t)
    (hfit : namesFit info = true) :
    ∀ e ∈ t.files.files, (t.files.entry e).Plain ↔ separator ∉ e.name := by
  obtain ⟨files, numPieces, hfiles, hsound⟩ := parseInfoSection_sound h hfit
  rw [hfiles]
  intro e he
  exact (hsound e he).plain_iff

/-- A torrent with a file whose last element is cut off, so that the path ends with it. -/
def slashedInfo : BNode := .dict
  [(ascii ['f', 'i', 'l', 'e', 's'], .list [.dict
      [(ascii ['l', 'e', 'n', 'g', 't', 'h'], .int 3),
        (ascii ['p', 'a', 't', 'h'],
          .list [.string [97], .string (97 :: 47 :: List.replicate 240 97)])]]),
    (ascii ['n', 'a', 'm', 'e'], .string [116]),
    (ascii ['p', 'i', 'e', 'c', 'e', ' ', 'l', 'e', 'n', 'g', 't', 'h'], .int 16384),
    (ascii ['p', 'i', 'e', 'c', 'e', 's'], .string (List.replicate 20 7))]

/-- The theorem at that torrent, whose file has a name with a slash. -/
theorem parseInfoSection_plain_iff_sample :
    ∃ t, parseInfoSection slashedInfo [100, 101] defaultPieceLimit = .ok t ∧
      (∃ e ∈ t.files.files, separator ∈ e.name) ∧
      ∀ e ∈ t.files.files, (t.files.entry e).Plain ↔ separator ∉ e.name := by
  have hrun : ((parseInfoSection slashedInfo [100, 101] defaultPieceLimit).map fun t =>
      t.files.files.any fun e => decide (separator ∈ e.name)).toOption = some true := by
    decide +kernel
  cases hparse : parseInfoSection slashedInfo [100, 101] defaultPieceLimit with
  | error e =>
    rw [hparse] at hrun
    cases hrun
  | ok t =>
    rw [hparse] at hrun
    have hany : (t.files.files.any fun e => decide (separator ∈ e.name)) = true :=
      Option.some.inj hrun
    obtain ⟨e, he, hmem⟩ := List.any_eq_true.mp hany
    exact ⟨t, rfl, ⟨e, he, of_decide_eq_true hmem⟩,
      parseInfoSection_plain_iff hparse (by decide +kernel)⟩

/-! ### Failures without an error code -/

/-- The path of a file alone is refused with an error code. -/
lemma topLevelPath_ne_error_none (dict : BNode) (rootDir : ByteString) :
    topLevelPath dict rootDir ≠ .error none := by
  unfold topLevelPath
  intro h
  split at h
  · cases h
  · dsimp only at h
    split_ifs at h
    · cases h
    · cases h

/-- The path of a file of a list is refused with an error code. -/
lemma nestedPath_ne_error_none (dict : BNode) (rootDir : ByteString) (padFile : Bool)
    (padFileCnt : ℕ) : nestedPath dict rootDir padFile padFileCnt ≠ .error none := by
  unfold nestedPath
  intro h
  split at h
  · split at h
    · cases h
    · cases h
  · split_ifs at h
    cases h

/-- The target of a link is refused with an error code. -/
lemma symlinkTarget_ne_error_none (dict : BNode) (fileFlags : FileFlags) :
    symlinkTarget dict fileFlags ≠ .error none := by
  unfold symlinkTarget
  intro h
  split_ifs at h
  split at h
  · cases h
  · split at h
    · cases h
    · cases h

/-- The checks on the pieces fail with an error code. -/
lemma checkPieces_ne_error_none (info : BNode) (files : FileStorage) (maxPieces : ℤ) :
    checkPieces info files maxPieces ≠ .error none := by
  unfold checkPieces
  intro h
  dsimp only at h
  generalize info.findString (ascii ['p', 'i', 'e', 'c', 'e', 's']) = found at h
  cases found with
  | some found =>
    dsimp only at h
    split_ifs at h <;> cases h
  | none =>
    dsimp only at h
    split_ifs at h <;> cases h

/-- `extract_single_file` fails without an error code exactly for what is no dictionary. -/
lemma extractSingleFile_eq_error_none {dict : BNode} {files : FileStorage} {rootDir : ByteString}
    {topLevel : Bool} {padFileCnt : ℕ} :
    extractSingleFile dict files rootDir topLevel padFileCnt = .error none ↔
      dict.asDict = none := by
  constructor
  · intro h
    by_contra hdict
    unfold extractSingleFile at h
    rw [if_neg (by simpa using hdict)] at h
    dsimp only at h
    generalize (if (getFileAttributes dict).symlink = true then (0 : ℤ)
      else dict.findIntValue _ (-1)) = fileSize at h
    by_cases hsize : fileSize < 0
    · rw [if_pos hsize] at h
      cases h
    · rw [if_neg hsize] at h
      rcases bind_eq_error.mp h with hfound | ⟨⟨path, filename, cnt⟩, -, hrest⟩
      · cases topLevel with
        | true => exact topLevelPath_ne_error_none _ _ (map_eq_error.mp hfound)
        | false => exact nestedPath_ne_error_none _ _ _ _ hfound
      · exact symlinkTarget_ne_error_none _ _ (map_eq_error.mp hrest)
  · intro hdict
    rw [extractSingleFile, if_pos (by rw [hdict]; rfl)]

/-- `extract_files` fails without an error code exactly at the first item of the list that is no
dictionary. -/
lemma extractFiles_eq_error_none {list : List BNode} {files : FileStorage}
    {rootDir : ByteString} :
    extractFiles list files rootDir = .error none ↔
      ∃ before dict after files', list = before ++ dict :: after ∧
        extractFiles before files rootDir = .ok files' ∧ dict.asDict = none := by
  rw [extractFiles, map_eq_error, foldlM_eq_error_iff]
  constructor
  · rintro ⟨before, dict, after, ⟨files', cnt⟩, hlist, hbefore, hdict⟩
    exact ⟨before, dict, after, files', hlist, map_eq_ok.mpr ⟨_, hbefore, rfl⟩,
      extractSingleFile_eq_error_none.mp hdict⟩
  · rintro ⟨before, dict, after, files', hlist, hbefore, hdict⟩
    obtain ⟨⟨target, cnt⟩, hfold, -⟩ := map_eq_ok.mp hbefore
    exact ⟨before, dict, after, ⟨target, cnt⟩, hlist, hfold,
      extractSingleFile_eq_error_none.mpr hdict⟩

/-- Reading the section fails without an error code exactly if an item of the list of files is no
dictionary, and nothing before it is refused. -/
theorem parseInfoSection_eq_error_none {info : BNode} {dataSection : ByteString}
    {maxPieces : ℤ} :
    parseInfoSection info dataSection maxPieces = .error none ↔
      ∃ pieceLength name before dict after files, Headed info dataSection pieceLength name ∧
        info.findList (ascii ['f', 'i', 'l', 'e', 's']) = some (before ++ dict :: after) ∧
        extractFiles before { FileStorage.init with pieceLength := pieceLength } name =
          .ok files ∧
        dict.asDict = none := by
  constructor
  · intro h
    rcases headed_or_refused info dataSection maxPieces with
      ⟨pieceLength, name, hhead⟩ | ⟨e, hrefused⟩
    swap
    · rw [hrefused] at h
      cases h
    rw [hhead.parseInfoSection_eq] at h
    rcases bind_eq_error.mp h with hextract | ⟨⟨files, multifile⟩, -, hrest⟩
    · unfold extractAll at hextract
      split at hextract
      · have hnone := extractSingleFile_eq_error_none.mp (map_eq_error.mp hextract)
        have hdict := hhead.isDict
        rw [hnone] at hdict
        cases hdict
      · rename_i list hlist
        obtain ⟨before, dict, after, files, rfl, hbefore, hdict⟩ :=
          extractFiles_eq_error_none.mp (map_eq_error.mp hextract)
        exact ⟨pieceLength, name, before, dict, after, files, hhead, hlist, hbefore, hdict⟩
    · exact absurd (map_eq_error.mp hrest) (checkPieces_ne_error_none info files maxPieces)
  · rintro ⟨pieceLength, name, before, dict, after, files, hhead, hlist, hbefore, hdict⟩
    rw [hhead.parseInfoSection_eq]
    refine bind_eq_error.mpr (Or.inl ?_)
    rw [extractAll, hlist]
    exact map_eq_error.mpr (extractFiles_eq_error_none.mpr
      ⟨before, dict, after, files, rfl, hbefore, hdict⟩)

/-- A torrent whose list of files has a number in it. -/
def undictedInfo : BNode := .dict
  [(ascii ['f', 'i', 'l', 'e', 's'], .list [.int 3]),
    (ascii ['n', 'a', 'm', 'e'], .string [116]),
    (ascii ['p', 'i', 'e', 'c', 'e', ' ', 'l', 'e', 'n', 'g', 't', 'h'], .int 16384)]

/-- The theorem at that torrent. -/
theorem parseInfoSection_eq_error_none_sample :
    parseInfoSection undictedInfo [100, 101] defaultPieceLimit = .error none :=
  parseInfoSection_eq_error_none.mpr ⟨16384, [116], [], .int 3, [], _,
    ⟨by decide, by decide, by decide, by decide, by decide, [116], by decide,
      by decide +kernel⟩, rfl, rfl, rfl⟩

end Tent
