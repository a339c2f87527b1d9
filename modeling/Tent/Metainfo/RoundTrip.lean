import Mathlib.Data.List.Forall2
import Tent.Metainfo.Accepted

/-!
# Metainfo that is in order

The dictionary `info` that describes some files is accepted, and it is read as these files, with
the directories, names and sizes that it has for them (`parseInfoSection_infoDict`).  In order are
paths of components that `sanitize_append_path_element` has no reason to change, for which a bound
on their length is needed.
-/

set_option autoImplicit false

namespace Tent

open Bytes SecureHash Lexical Transition

/-! ### Files of the metainfo -/

/-- A file as the metainfo describes it. -/
structure MetaFile where
  /-- The directories below the one of the torrent. -/
  branch : List ByteString
  /-- The last element of the path. -/
  name : ByteString
  /-- The length. -/
  size : ℕ

/-- The elements of the path. -/
def MetaFile.path (f : MetaFile) : List ByteString := f.branch ++ [f.name]

/-- The dictionary of a file. -/
def fileDict (f : MetaFile) : BNode := .dict
  [(ascii ['l', 'e', 'n', 'g', 't', 'h'], .int f.size),
    (ascii ['p', 'a', 't', 'h'], .list (f.path.map BNode.string))]

/-- The dictionary `info` of a torrent with a list of files. -/
def infoDict (name : ByteString) (pieceLength : ℕ) (files : List MetaFile) (pieces : ByteString) :
    BNode := .dict
  [(ascii ['f', 'i', 'l', 'e', 's'], .list (files.map fileDict)),
    (ascii ['n', 'a', 'm', 'e'], .string name),
    (ascii ['p', 'i', 'e', 'c', 'e', ' ', 'l', 'e', 'n', 'g', 't', 'h'], .int pieceLength),
    (ascii ['p', 'i', 'e', 'c', 'e', 's'], .string pieces)]

/-- A name that is left as it is. -/
structure CleanName (name : ByteString) : Prop where
  /-- It is a component. -/
  component : Component name
  /-- It is not cut off. -/
  short : name.length < 240

/-- A file whose names are left as they are. -/
structure MetaFile.Clean (f : MetaFile) : Prop where
  /-- The elements of its path are left as they are. -/
  names : ∀ n ∈ f.path, CleanName n
  /-- The size has 48 bits. -/
  size_lt : f.size < 2 ^ 48

/-- The file as the client reads it. -/
def MetaFile.entry (root : ByteString) (f : MetaFile) : FileEntry where
  branch := (root :: f.branch).map FileStorage.text
  name := FileStorage.text f.name
  size := f.size

/-! ### Paths that are in order -/

/-- Such a name is appended as it is. -/
lemma CleanName.sanitize {name : ByteString} (h : CleanName name) (path : ByteString) :
    sanitizeAppendPathElement path name = appendComponent path name := by
  obtain ⟨cps, hcps, htext⟩ := h.component.text
  have hscalar : ∀ cp ∈ cps, Utf8.Scalar cp ∧ 32 ≤ cp := fun cp hcp =>
    ⟨(hcps cp hcp).scalar, (hcps cp hcp).printable⟩
  have hkeep : (cps.filter fun cp : ℕ => !filterPathCharacter cp) = cps := by
    refine List.filter_eq_self.mpr fun cp hcp => ?_
    rw [((nameChar_iff (hcps cp hcp).scalar).mp (hcps cp hcp)).1]
    rfl
  obtain ⟨-, hexact⟩ := sanitizeLoop_flatMap hscalar (Nat.le_refl (cps.flatMap Utf8.encode).length)
    (s := ⟨if path = [] then path else path ++ [separator], 0, 0, false⟩)
    (show 0 < 240 by decide) rfl
  have hshort : 0 + (cps.flatMap Utf8.encode).length < 240 := by
    rw [← htext, Nat.zero_add]
    exact h.short
  have hsanitized : sanitizedText path name = name := by
    rw [sanitizedText, htext, hexact hshort, hkeep]
    exact List.drop_left
  obtain ⟨-, -, heq⟩ := sanitizeAppendPathElement_eq path h.component.ne_nil h.component.ne_dot
  rw [heq, hsanitized, if_neg]
  rintro (hnil | hdot | hdots)
  · exact h.component.ne_nil hnil
  · exact h.component.ne_dot hdot
  · exact h.component.ne_dotdot hdots

/-- Such names are appended one after the other. -/
lemma foldl_sanitize_clean {elements names : List ByteString}
    (helements : ∀ n ∈ elements, CleanName n) (hnames : ∀ n ∈ names, Component n) :
    elements.foldl sanitizeAppendPathElement (joinNames names) = joinNames (names ++ elements) := by
  induction elements generalizing names with
  | nil => rw [List.foldl_nil, List.append_nil]
  | cons element elements ih =>
    obtain ⟨helement, hrest⟩ := List.forall_mem_cons.mp helements
    have hall : ∀ n ∈ names ++ [element], Component n :=
      List.forall_mem_append.mpr ⟨hnames, List.forall_mem_singleton.mpr helement.component⟩
    rw [List.foldl_cons, helement.sanitize, appendComponent_joinNames hnames, ih hrest hall,
      List.append_assoc, List.singleton_append]

/-- There is no separator in front of a component. -/
lemma Component.stripSeparators {name : ByteString} (h : Component name) :
    stripSeparators name = name := by
  obtain ⟨b, rest, rfl⟩ := List.exists_cons_of_ne_nil h.ne_nil
  have hb : b ≠ separator := (h.text.byte List.mem_cons_self).2.1
  rw [Tent.stripSeparators, List.dropWhile_cons_of_neg (by simpa using hb)]

/-- The elements of a path of strings. -/
lemma pathElements_map (names : List ByteString) :
    pathElements (names.map BNode.string) = some names := by
  induction names with
  | nil => rfl
  | cons name names ih =>
    rw [pathElements] at ih
    rw [pathElements, List.map_cons, List.mapM_cons, ih]
    rfl

/-! ### Reading the files -/

section Files

variable {root : ByteString} (hroot : Component root) {f : MetaFile} (hf : f.Clean)

include hf

/-- The components of the path of a file. -/
lemma MetaFile.Clean.components {n : ByteString} (hn : n ∈ f.path) : Component n :=
  (hf.names n hn).component

include hroot

/-- The components of the directories of a file. -/
lemma MetaFile.Clean.branch_components : ∀ n ∈ root :: f.branch, Component n :=
  List.forall_mem_cons.mpr
    ⟨hroot, fun _ hn => hf.components (List.mem_append_left _ hn)⟩

/-- The path of a file is read as it is. -/
lemma nestedPath_fileDict (padFile : Bool) (padFileCnt : ℕ) :
    nestedPath (fileDict f) root padFile padFileCnt =
      .ok (joinNames (root :: f.branch ++ [f.name]), f.name, padFileCnt) := by
  have hsingle : ∀ n ∈ [root], Component n := List.forall_mem_singleton.mpr hroot
  have hjoin : joinNames [root] = root := by rw [joinNames, List.intercalate_singleton]
  have hfold := foldl_sanitize_clean hf.names hsingle
  rw [hjoin] at hfold
  have hlast : Component f.name := hf.components (List.mem_append_right _ List.mem_cons_self)
  have hpath : (fileDict f).filePath = some (f.path.map BNode.string) := rfl
  have hne : f.path.map BNode.string ≠ [] := by simp [MetaFile.path]
  have hlonger : (joinNames ([root] ++ f.path)).length ≠ root.length := by
    have hne' : f.path ≠ [] := by simp [MetaFile.path]
    rw [joinNames, List.singleton_append, List.intercalate_cons_of_ne_nil hne', List.length_append,
      List.length_append, List.length_singleton]
    omega
  obtain ⟨e, rest, hcons⟩ := List.exists_cons_of_ne_nil hne
  rw [nestedPath, hpath, hcons]
  dsimp only
  rw [← hcons, pathElements_map]
  dsimp only
  rw [hfold, if_neg hlonger]
  have hend : f.path.getLastD [] = f.name := by simp [MetaFile.path]
  rw [hend, hlast.stripSeparators]
  rfl

/-- A file is added with its path and its name. -/
lemma extractSingleFile_fileDict (files : FileStorage) (padFileCnt : ℕ) :
    ∃ fileFlags, extractSingleFile (fileDict f) files root false padFileCnt =
      .ok (files.addFileBorrow f.name (joinNames (root :: f.branch ++ [f.name])) f.size fileFlags
        [], padFileCnt) := by
  obtain ⟨front, hfront, -⟩ := exists_joinNames_concat (root :: f.branch) f.name
  have hsuffix : f.name.isSuffixOf (joinNames (root :: f.branch ++ [f.name])) = true := by
    rw [hfront, List.isSuffixOf_iff_suffix]
    exact List.suffix_append _ _
  have hflags : getFileAttributes (fileDict f) = ⟨false, false, false, false⟩ := rfl
  have hsize : (fileDict f).findIntValue (ascii ['l', 'e', 'n', 'g', 't', 'h']) (-1) = f.size := rfl
  refine ⟨if (findText paddingFile (joinNames (root :: f.branch ++ [f.name]))).isSome then
    ⟨true, false, false, false⟩ else ⟨false, false, false, false⟩, ?_⟩
  have hlink : ∀ flags : FileFlags, flags.symlink = false →
      symlinkTarget (fileDict f) flags = .ok [] := by
    intro flags hflags
    rw [symlinkTarget, hflags]
    rfl
  have hdict : ¬ (fileDict f).asDict.isNone = true := Bool.false_ne_true
  rw [extractSingleFile, if_neg hdict, hflags]
  dsimp only
  simp only [hsize, Bool.false_eq_true, if_false]
  rw [if_neg (by omega), nestedPath_fileDict hroot hf]
  dsimp only [Except.bind]
  rw [hlink, if_pos hsuffix]
  · rfl
  · split_ifs <;> rfl

end Files

/-! ### The storage after some files -/

namespace FileStorage

/-- The first file gives the storage its name. -/
lemma addFileBorrow_name {fs : FileStorage} {names : List ByteString} {last : ByteString}
    (hnames : ∀ n ∈ names, Component n) (hlast : Component last) (hne : names ≠ [])
    (hempty : fs.files = []) (filename : ByteString) (fileSize : ℕ) (fileFlags : FileFlags)
    (symlinkPath : ByteString) :
    (fs.addFileBorrow filename (joinNames (names ++ [last])) fileSize fileFlags symlinkPath).name =
      names.headI := by
  have hall : ∀ n ∈ names ++ [last], Component n :=
    List.forall_mem_append.mpr ⟨hnames, List.forall_mem_singleton.mpr hlast⟩
  have hhead : (names ++ [last]).headI = names.headI := by
    obtain ⟨name, rest, rfl⟩ := List.exists_cons_of_ne_nil hne
    rfl
  obtain ⟨e, paths, hupdate, -⟩ := updatePathIndex_spec { fs with name := names.headI }
    InternalFileEntry.init hnames hlast (decide (filename = []))
  rw [addFileBorrow, hasParentPath_joinNames hnames hlast, if_neg (by simp [hne]), if_pos hempty,
    lsplitPath_joinNames hall (by simp), hhead]
  dsimp only
  rw [hupdate]
  dsimp only
  split_ifs <;> rfl

/-- The storage holds these files. -/
structure Holds (root : ByteString) (fs : FileStorage) (files : List MetaFile) : Prop where
  /-- One after the other, where the metainfo has them. -/
  entries : List.Forall₂ (fun e (f : MetaFile) =>
    Located fs e (root :: f.branch) ∧ e.name = f.name ∧ e.size.toNat = f.size) fs.files files
  /-- The storage is named after the torrent. -/
  named : fs.files ≠ [] → fs.name = root

/-- A file more. -/
lemma Holds.add {root : ByteString} {fs : FileStorage} {files : List MetaFile}
    (h : Holds root fs files) (hroot : Component root) {f : MetaFile} (hf : f.Clean)
    (fileFlags : FileFlags) :
    Holds root (fs.addFileBorrow f.name (joinNames (root :: f.branch ++ [f.name])) f.size
      fileFlags []) (files ++ [f]) := by
  have hlast : CleanName f.name := hf.names _ (List.mem_append_right _ List.mem_cons_self)
  have hnames := hf.branch_components hroot
  obtain ⟨e, paths, symlinks, name, heq, hpaths, hkeep, hsize, -, hname, hlocated⟩ :=
    fs.addFileBorrow_spec hnames hlast.component (Or.inr (List.cons_ne_nil _ _)) f.name f.size
      fileFlags []
  have hroot' : name = root := by
    by_cases hempty : fs.files = []
    · have hfirst := addFileBorrow_name hnames hlast.component (List.cons_ne_nil _ _) hempty f.name
        f.size fileFlags []
      rw [heq] at hfirst
      exact hfirst
    · exact (hkeep hempty).trans (h.named hempty)
  have hshort := hlast.short
  have hkept := (InternalFileEntry.borrowed_spec hlast.component.ne_nil
    (hshort.trans (by decide))).2.2 (hshort.trans (by decide))
  rw [if_neg hlast.component.ne_nil, hkept] at hname
  rw [heq]
  refine ⟨List.rel_append ?_ (List.Forall₂.cons ⟨?_, hname, ?_⟩ List.Forall₂.nil), fun _ => hroot'⟩
  · by_cases hempty : fs.files = []
    · have hentries := h.entries
      rw [hempty] at hentries ⊢
      cases hentries
      exact List.Forall₂.nil
    · exact h.entries.imp fun e f he => ⟨he.1.mono (hkeep hempty) hpaths, he.2⟩
  · exact hlocated.mono rfl (List.prefix_refl _)
  · rw [hsize, BitVec.toNat_ofNat, Nat.mod_eq_of_lt hf.size_lt]

/-- What the client reads of such a storage. -/
lemma Holds.entries_eq {root : ByteString} {fs : FileStorage} {files : List MetaFile}
    (h : Holds root fs files) (hroot : Component root) (hfiles : ∀ f ∈ files, f.Clean) :
    fs.files.map fs.entry = files.map (MetaFile.entry root) := by
  obtain ⟨hentries, -⟩ := h
  generalize fs.files = entries at hentries
  induction hentries with
  | nil => rfl
  | @cons e f _ _ he _ ih =>
    obtain ⟨hlocated, hname, hsize⟩ := he
    obtain ⟨hf, hrest⟩ := List.forall_mem_cons.mp hfiles
    rw [List.map_cons, List.map_cons, ih hrest, FileStorage.entry,
      hlocated.directories (hf.branch_components hroot), hname, hsize]
    rfl

end FileStorage

/-- The files of a list are extracted one after the other. -/
lemma foldlM_fileDict {root : ByteString} (hroot : Component root) {files done : List MetaFile}
    (hfiles : ∀ f ∈ files, f.Clean) {fs : FileStorage} (h : fs.Holds root done)
    (padFileCnt : ℕ) :
    ∃ fs', (files.map fileDict).foldlM (fun (target, padFileCnt) dict =>
        extractSingleFile dict target root false padFileCnt) (fs, padFileCnt) =
          .ok (fs', padFileCnt) ∧ fs'.Holds root (done ++ files) := by
  induction files generalizing fs done with
  | nil => exact ⟨fs, rfl, by rwa [List.append_nil]⟩
  | cons f files ih =>
    obtain ⟨hf, hrest⟩ := List.forall_mem_cons.mp hfiles
    obtain ⟨fileFlags, hstep⟩ := extractSingleFile_fileDict hroot hf fs padFileCnt
    obtain ⟨fs', hfold, hholds⟩ := ih hrest (h.add hroot hf fileFlags)
    refine ⟨fs', ?_, ?_⟩
    · rw [List.map_cons, List.foldlM_cons]
      dsimp only
      rw [hstep]
      exact hfold
    · rwa [List.append_assoc, List.singleton_append] at hholds

/-! ### The section -/

section Section

variable {root : ByteString} (hroot : CleanName root) {files : List MetaFile}

include hroot

/-- The list of files is extracted. -/
lemma extractAll_infoDict (hfiles : ∀ f ∈ files, f.Clean) (pieceLength : ℕ)
    (pieces : ByteString) {fs : FileStorage} (hempty : fs.files = []) :
    ∃ fs', extractAll (infoDict root pieceLength files pieces) fs root = .ok (fs', true) ∧
      fs'.Holds root files := by
  have hholds : fs.Holds root [] :=
    ⟨by rw [hempty]; exact List.Forall₂.nil, fun h => absurd hempty h⟩
  obtain ⟨fs', hfold, hholds'⟩ := foldlM_fileDict hroot.component hfiles hholds 0
  have hlist : (infoDict root pieceLength files pieces).findList
      (ascii ['f', 'i', 'l', 'e', 's']) = some (files.map fileDict) := rfl
  refine ⟨fs', ?_, hholds'⟩
  rw [extractAll, hlist]
  dsimp only
  rw [extractFiles, hfold]
  rfl

/-- The section has a head. -/
lemma headed_infoDict {dataSection : ByteString} (hsection : dataSection.length < intMax)
    {pieceLength : ℕ} (hpos : 0 < pieceLength) (hle : pieceLength ≤ intMax)
    (pieces : ByteString) :
    Headed (infoDict root pieceLength files pieces) dataSection pieceLength root := by
  refine ⟨rfl, hsection, rfl, hpos, hle, root, rfl, ?_⟩
  have hsanitize : sanitizeAppendPathElement [] root = root := hroot.sanitize []
  rw [hsanitize, if_neg hroot.component.ne_nil]

omit hroot in
/-- The pieces of a torrent pass the checks. -/
lemma checkPieces_infoDict {fs : FileStorage} {torrent : TorrentInfo ByteString}
    {pieces : ByteString} {maxPieces : ℤ} (hfs : fs.files ≠ []) (hname : fs.name ≠ [])
    (hlength : fs.pieceLength = torrent.pieceLength)
    (htotal : fs.totalSize.toInt = torrent.totalSize)
    (hpieces : pieces.length = 20 * torrent.numPieces)
    (hmany : torrent.numPieces < intMax / 20) (hmax : (torrent.numPieces : ℤ) ≤ maxPieces) :
    checkPieces (infoDict root torrent.pieceLength files pieces) fs maxPieces =
      .ok ({ fs with numPieces := torrent.numPieces }, some pieces) := by
  have hstring : (infoDict root torrent.pieceLength files pieces).findString
      (ascii ['p', 'i', 'e', 'c', 'e', 's']) = some pieces := rfl
  have hbound : ¬ ((intMax : ℤ) - torrent.pieceLength) * torrent.pieceLength ≤
      torrent.totalSize := by
    have hlt : torrent.totalSize < (intMax - torrent.pieceLength) * torrent.pieceLength :=
      torrent.totalSize_lt
    rw [not_le, ← Nat.cast_sub torrent.pieceLength_le]
    exact_mod_cast hlt
  rw [checkPieces, if_neg hfs, if_neg hname, hlength, htotal, if_neg hbound, hstring,
    toInt_numPieces]
  dsimp only
  rw [if_neg (by simp), if_neg (by omega), if_neg (by omega)]

/-- Every torrent whose names are clean is read back from its dictionary. -/
theorem parseInfoSection_infoDict (hfiles : ∀ f ∈ files, f.Clean)
    (torrent : TorrentInfo ByteString) (htorrent : torrent.files = files.map (MetaFile.entry root))
    (hfew : files.length < 2 ^ 15) {pieces dataSection : ByteString} {maxPieces : ℤ}
    (hpieces : pieces.length = 20 * torrent.numPieces) (hmany : torrent.numPieces < intMax / 20)
    (hmax : (torrent.numPieces : ℤ) ≤ maxPieces) (hsection : dataSection.length < intMax) :
    ∃ t, parseInfoSection (infoDict root torrent.pieceLength files pieces) dataSection maxPieces =
        .ok t ∧
      t.files.files.map t.files.entry = torrent.files ∧
      t.files.pieceLength = torrent.pieceLength ∧ t.files.name = root ∧
      t.files.totalSize.toNat = torrent.totalSize ∧ t.files.numPieces = torrent.numPieces ∧
      t.infoHash = sha1 dataSection ∧ t.pieceHashes = some pieces ∧ t.multifile = true := by
  have hhead : Headed (infoDict root torrent.pieceLength files pieces) dataSection
      torrent.pieceLength root :=
    headed_infoDict hroot hsection torrent.pieceLength_pos torrent.pieceLength_le pieces
  obtain ⟨fs, hextract, hholds⟩ := extractAll_infoDict hroot hfiles torrent.pieceLength pieces
    (show { FileStorage.init with pieceLength := torrent.pieceLength }.files = [] from rfl)
  obtain ⟨hsummed, hlength⟩ := FileStorage.summed_of_adds
    (extractAll_adds hroot.component rfl False.elim hextract) ⟨rfl, rfl⟩
  have hentries : fs.files.map fs.entry = torrent.files :=
    (hholds.entries_eq hroot.component hfiles).trans htorrent.symm
  have hnumber : fs.files.length = files.length := hholds.entries.length_eq
  have hsizes : fs.sizes = torrent.sizes := by
    rw [TorrentInfo.sizes, ← hentries, List.map_map]
    rfl
  obtain ⟨hnat, hint⟩ := hsummed.total_of_few (hnumber ▸ hfew)
  have hfs : fs.files ≠ [] := by
    intro hnil
    rw [hnil] at hentries
    exact torrent.files_ne_nil hentries.symm
  have hname := hholds.named hfs
  have hcheck : checkPieces (infoDict root torrent.pieceLength files pieces) fs maxPieces =
      .ok ({ fs with numPieces := torrent.numPieces }, some pieces) :=
    checkPieces_infoDict hfs (hname ▸ hroot.component.ne_nil) hlength
      (hint.trans (by rw [hsizes]; rfl)) hpieces hmany hmax
  refine ⟨⟨sha1 dataSection, { fs with numPieces := torrent.numPieces }, some pieces, true⟩, ?_,
    hentries, hlength, hname, hnat.trans (congrArg List.sum hsizes), rfl, rfl, rfl, rfl⟩
  rw [hhead.parseInfoSection_eq, hextract]
  dsimp only [Except.bind]
  rw [hcheck]
  rfl

end Section

/-- Printable ASCII is a clean name. -/
lemma cleanName_ascii {name : ByteString}
    (h : (∀ b ∈ name, 32 ≤ b.toNat ∧ b.toNat < 0x80 ∧ b.toNat ≠ 47 ∧ b.toNat ≠ 92) ∧ name ≠ [] ∧
      name ≠ [46] ∧ name ≠ [46, 46] ∧ name.length < 240) : CleanName name :=
  ⟨⟨nameText_ascii h.1, h.2.1, h.2.2.1, h.2.2.2.1⟩, h.2.2.2.2⟩

/-- The files `a/b` and `c` of a torrent. -/
def sampleMetaFiles : List MetaFile := [⟨[[97]], [98], 3⟩, ⟨[], [99], 20000⟩]

/-- The torrent with these files in the directory `t`. -/
def sampleMetaTorrent : TorrentInfo ByteString where
  pieceLength := 16384
  files := sampleMetaFiles.map (MetaFile.entry [116])
  hashForPiece _ := List.replicate 20 7
  pieceLength_pos := by decide
  pieceLength_le := by decide
  files_ne_nil := List.cons_ne_nil _ _
  totalSize_lt := by decide

/-- The theorem at this torrent. -/
theorem parseInfoSection_infoDict_sample :
    ∃ t, parseInfoSection (infoDict [116] sampleMetaTorrent.pieceLength sampleMetaFiles
        (List.replicate 40 7)) [100, 101] defaultPieceLimit = .ok t ∧
      t.files.files.map t.files.entry = sampleMetaTorrent.files ∧
      t.files.pieceLength = sampleMetaTorrent.pieceLength ∧ t.files.name = [116] ∧
      t.files.totalSize.toNat = sampleMetaTorrent.totalSize ∧
      t.files.numPieces = sampleMetaTorrent.numPieces ∧
      t.infoHash = sha1 [100, 101] ∧ t.pieceHashes = some (List.replicate 40 7) ∧
      t.multifile = true := by
  have hclean : ∀ f ∈ sampleMetaFiles, f.Clean := by
    have hnames : ∀ f ∈ sampleMetaFiles, (∀ n ∈ f.path, (∀ b ∈ n, 32 ≤ b.toNat ∧
        b.toNat < 0x80 ∧ b.toNat ≠ 47 ∧ b.toNat ≠ 92) ∧ n ≠ [] ∧ n ≠ [46] ∧ n ≠ [46, 46] ∧
        n.length < 240) ∧ f.size < 2 ^ 48 := by decide +kernel
    exact fun f hf => ⟨fun n hn => cleanName_ascii ((hnames f hf).1 n hn), (hnames f hf).2⟩
  exact parseInfoSection_infoDict (cleanName_ascii (by decide +kernel)) hclean sampleMetaTorrent
    rfl (by decide) (by decide +kernel) (by decide +kernel) (by decide +kernel) (by decide)

end Tent
