import Mathlib.Data.List.TakeWhile
import Tent.Foundation.Lexical
import Tent.Metainfo.Sanitize

/-!
# The files of the metainfo

`file_storage` as the metainfo fills it: `add_file_borrow` cuts the path of a file into the
directories above it, which are shared between the files, and its name, which may be borrowed from
the metainfo, and `file_path` puts both together again.

The name that is borrowed need not be the last name of the path, only an end of it, so what
`file_path` returns is not always the path that was added.
-/

set_option autoImplicit false

namespace Tent

open Bytes Lexical

/-! ### Paths -/

/-- `is_complete`. -/
def isComplete (f : ByteString) : Bool := f.head? == some separator

/-- `is_root_path`. -/
def isRootPath (f : ByteString) : Bool := f == [separator]

/-- A slash or a backslash. -/
def isSeparator (c : UInt8) : Bool := c == 47 || c == 92

/-- `has_parent_path`. -/
def hasParentPath (f : ByteString) : Bool :=
  if f = [] then false
  else if isRootPath f then false
  else
    -- if the last character is a separator, it is ignored
    let f := if f.getLast?.any isSeparator then f.dropLast else f
    f.any isSeparator

/-- `find_last_of`, for one character. -/
def findLastOf (p : ByteString) (c : UInt8) : Option ℕ :=
  (p.reverse.idxOf? c).map (p.length - 1 - ·)

/-- `rsplit_path`. -/
def rsplitPath (p : ByteString) : ByteString × ByteString :=
  if p = [] then ([], [])
  else
    let p := if p.getLast? = some separator then p.dropLast else p
    match findLastOf p separator with
    | none => ([], p)
    | some sep => (p.take sep, p.drop (sep + 1))

/-- `lsplit_path`. -/
def lsplitPath (p : ByteString) : ByteString × ByteString :=
  if p = [] then ([], [])
  else
    let p := if p.head? = some separator then p.tail else p
    match p.idxOf? separator with
    | none => (p, [])
    | some sep => (p.take sep, p.drop (sep + 1))

/-- `append_path`. -/
def appendPath (branch leaf : ByteString) : ByteString :=
  if branch = [] ∨ branch = [46] then leaf
  else if leaf = [] then branch
  else
    let needSep := branch.getLast? ≠ some separator
    (if needSep then branch ++ [separator] else branch) ++ leaf

/-- `combine_path`. -/
def combinePath (lhs rhs : ByteString) : ByteString :=
  if lhs = [] ∨ lhs = [46] then rhs
  else if rhs = [] ∨ rhs = [46] then lhs
  else
    let needSep := lhs.getLast? ≠ some separator
    (if needSep then lhs ++ [separator] else lhs) ++ rhs

/-! ### `file_storage` -/

/-- `file_flags_t`. -/
structure FileFlags where
  /-- `flag_pad_file`. -/
  padFile : Bool
  /-- `flag_hidden`. -/
  hidden : Bool
  /-- `flag_executable`. -/
  executable : Bool
  /-- `flag_symlink`. -/
  symlink : Bool
deriving DecidableEq

/-- `internal_file_entry`. -/
structure InternalFileEntry where
  /-- `offset`, of 48 bits. -/
  offset : BitVec 48
  /-- `symlink_index`. -/
  symlinkIndex : ℕ
  /-- `no_root_dir`. -/
  noRootDir : Bool
  /-- `size`, of 48 bits. -/
  size : BitVec 48
  /-- The attributes. -/
  flags : FileFlags
  /-- What `filename` returns for `name` and `name_len`, if that is no `name_is_owned` by chance. -/
  name : ByteString
  /-- `path_index`. -/
  pathIndex : ℤ
deriving DecidableEq

/-- `file_storage`. -/
structure FileStorage where
  /-- `m_piece_length`. -/
  pieceLength : ℕ
  /-- `m_num_pieces`. -/
  numPieces : ℤ
  /-- `m_files`. -/
  files : List InternalFileEntry
  /-- `m_symlinks`. -/
  symlinks : List ByteString
  /-- `m_paths`. -/
  paths : List ByteString
  /-- `m_name`. -/
  name : ByteString
  /-- `m_total_size`, an `int64_t`. -/
  totalSize : BitVec 64
deriving DecidableEq

/-- `name_is_owned`. -/
def nameIsOwned : ℕ := 2 ^ 12 - 1

/-- `not_a_symlink`. -/
def notASymlink : ℕ := 2 ^ 15 - 1

namespace InternalFileEntry

/-- The constructor. -/
def init : InternalFileEntry where
  offset := 0
  symlinkIndex := notASymlink
  noRootDir := false
  size := 0
  flags := ⟨false, false, false, false⟩
  name := []
  pathIndex := -1

/-- The values of `name_len`, a field of 12 bits. -/
def nameLenRange : ℕ := 2 ^ 12

/-- What is kept of a name that is borrowed: the end of a long one, with its length as far as the
field holds it.  A length that is `name_is_owned` then has `filename` read on behind the name, up to
a zero; what lies there is not modelled, and the results about names exclude names of `borrowLimit`
bytes and more. -/
def borrowed (n : ByteString) : ByteString :=
  let n := if nameIsOwned ≤ n.length then n.drop (nameIsOwned - 1) else n
  n.take (n.length % nameLenRange)

/-- `set_name`.  A name that is owned ends with a zero. -/
def setName (n : ByteString) (borrowString : Bool) (e : InternalFileEntry) : InternalFileEntry :=
  if n = [] then { e with name := [] }
  else if borrowString then { e with name := borrowed n }
  else { e with name := n.takeWhile (· ≠ 0) }

/-- The lengths that a borrowed name may have to be kept to its end: what is kept of a longer one
has a length that is no value of `name_len`, or the value `name_is_owned`. -/
def borrowLimit : ℕ := 2 * nameIsOwned - 1

/-- What is kept of a borrowed name is an end of it, and all of it if the length is below
`name_is_owned`. -/
lemma borrowed_spec {filename : ByteString} (h : filename ≠ [])
    (hlimit : filename.length < borrowLimit) :
    borrowed filename ≠ [] ∧ borrowed filename <:+ filename ∧
      (filename.length < nameIsOwned → borrowed filename = filename) := by
  have hfield : borrowed filename =
      if nameIsOwned ≤ filename.length then filename.drop (nameIsOwned - 1) else filename := by
    refine List.take_of_length_le (Nat.le_of_eq (Nat.mod_eq_of_lt ?_).symm)
    rw [borrowLimit, nameIsOwned] at hlimit
    rw [nameLenRange, nameIsOwned]
    split_ifs
    · rw [List.length_drop]
      omega
    · omega
  rw [hfield]
  split_ifs with hlong
  · refine ⟨?_, List.drop_suffix _ _, fun hshort => absurd hlong (not_le.mpr hshort)⟩
    rw [Ne, List.drop_eq_nil_iff]
    rw [nameIsOwned] at hlong ⊢
    omega
  · exact ⟨h, List.suffix_refl _, fun _ => rfl⟩

end InternalFileEntry

namespace FileStorage

/-- The constructor. -/
def init : FileStorage where
  pieceLength := 0
  numPieces := 0
  files := []
  symlinks := []
  paths := []
  name := []
  totalSize := 0

/-- `get_or_add_path`, which looks for the last of the paths. -/
def getOrAddPath (path : ByteString) (fs : FileStorage) : ℕ × FileStorage :=
  match fs.paths.reverse.idxOf? path with
  | none => (fs.paths.length, { fs with paths := fs.paths ++ [path] })
  | some p => (fs.paths.length - 1 - p, fs)

/-- `update_path_index`. -/
def updatePathIndex (e : InternalFileEntry) (path : ByteString) (setName : Bool)
    (fs : FileStorage) : InternalFileEntry × FileStorage :=
  if isComplete path then ({ e.setName path false with pathIndex := -2 }, fs)
  else
    let (branchPath, leaf) := rsplitPath path
    if branchPath = [] then
      ({ (if setName then e.setName leaf false else e) with pathIndex := -1 }, fs)
    else
      let (branchPath, noRootDir) :=
        if (lsplitPath branchPath).1 = fs.name then
          ((lsplitPath branchPath).2.dropWhile (· = separator), false)
        else (branchPath, true)
      let (pathIndex, fs) := fs.getOrAddPath branchPath
      let e := { e with noRootDir := noRootDir, pathIndex := pathIndex }
      (if setName then e.setName leaf false else e, fs)

/-- `add_file_borrow`. -/
def addFileBorrow (filename path : ByteString) (fileSize : ℕ) (fileFlags : FileFlags)
    (symlinkPath : ByteString) (fs : FileStorage) : FileStorage :=
  let fs :=
    if !hasParentPath path then { fs with name := path }
    else if fs.files = [] then { fs with name := (lsplitPath path).1 }
    else fs
  let (e, fs) := fs.updatePathIndex InternalFileEntry.init path (filename = [])
  let e := if filename ≠ [] then e.setName filename true else e
  let e := { e with
    size := BitVec.ofNat 48 fileSize
    offset := fs.totalSize.setWidth 48
    flags := fileFlags }
  let (e, fs) :=
    if symlinkPath ≠ [] ∧ fs.symlinks.length < notASymlink - 1 then
      ({ e with symlinkIndex := fs.symlinks.length },
        { fs with symlinks := fs.symlinks ++ [symlinkPath] })
    else ({ e with flags := { e.flags with symlink := false } }, fs)
  { fs with
    files := fs.files ++ [e]
    totalSize := fs.totalSize + e.size.setWidth 64 }

/-- `file_path`, of a file of the storage. -/
def filePath (fs : FileStorage) (fe : InternalFileEntry) (savePath : ByteString) : ByteString :=
  if fe.pathIndex = -2 then fe.name
  else if fe.pathIndex = -1 then appendPath savePath fe.name
  else
    let p := fs.paths.getD fe.pathIndex.toNat []
    if fe.noRootDir then appendPath (appendPath savePath p) fe.name
    else appendPath (appendPath (appendPath savePath fs.name) p) fe.name

end FileStorage

/-! ### Paths of components -/

/-- A path as its components. -/
def joinNames (names : List ByteString) : ByteString := [separator].intercalate names

/-- A component is an ordinary name. -/
lemma Component.ordinary {name : ByteString} (h : Component name) :
    Ordinary separator [46] [46, 46] name :=
  ⟨fun hmem => (h.text.byte hmem).2.1 rfl, h.ne_nil, h.ne_dot, h.ne_dotdot⟩

/-- There is no separator in a component. -/
lemma Component.not_isSeparator {name : ByteString} (h : Component name) {c : UInt8}
    (hc : c ∈ name) : isSeparator c = false := by
  obtain ⟨-, hslash, hbackslash⟩ := h.text.byte hc
  simp [isSeparator, hslash, hbackslash]

/-- The last byte of a component. -/
lemma Component.exists_getLast {name : ByteString} (h : Component name) (front : ByteString) :
    ∃ c, (front ++ name).getLast? = some c ∧ isSeparator c = false ∧ c ≠ separator := by
  refine ⟨name.getLast h.ne_nil, ?_, h.not_isSeparator (List.getLast_mem _), fun heq => ?_⟩
  · rw [List.getLast?_append_of_ne_nil _ h.ne_nil, List.getLast?_eq_some_getLast]
  · have hmem : separator ∈ name := by
      rw [← heq]
      exact List.getLast_mem _
    exact h.ordinary.not_mem hmem

/-- The first place of a byte. -/
lemma idxOf?_append_cons {front : ByteString} {c : UInt8} (h : c ∉ front) (back : ByteString) :
    (front ++ c :: back).idxOf? c = some front.length := by
  induction front with
  | nil => rw [List.nil_append, List.idxOf?_cons, if_pos (beq_self_eq_true c), List.length_nil]
  | cons b front ih =>
    rw [List.mem_cons, not_or] at h
    rw [List.cons_append, List.idxOf?_cons, if_neg (by simpa using Ne.symm h.1), ih h.2]
    rfl

/-- The last place of a byte. -/
lemma findLastOf_append_cons {back : ByteString} {c : UInt8} (h : c ∉ back) (front : ByteString) :
    findLastOf (front ++ c :: back) c = some front.length := by
  rw [findLastOf, List.reverse_append, List.reverse_cons, List.append_assoc, List.singleton_append,
    idxOf?_append_cons (by rwa [List.mem_reverse]), Option.map_some, List.length_append,
    List.length_cons, List.length_reverse]
  congr 1
  omega

/-- The end of a path of components. -/
lemma exists_joinNames_concat (names : List ByteString) (last : ByteString) :
    ∃ front, joinNames (names ++ [last]) = front ++ last ∧ (front = [] ↔ names = []) := by
  by_cases hne : names = []
  · refine ⟨[], ?_, by simp [hne]⟩
    rw [hne, List.nil_append, joinNames, List.intercalate_singleton, List.nil_append]
  · refine ⟨joinNames names ++ [separator], ?_, by simp [hne]⟩
    rw [joinNames, intercalate_concat hne, List.append_assoc, List.singleton_append]
    rfl

section Names

variable {names : List ByteString} {last : ByteString}
  (hnames : ∀ name ∈ names, Component name) (hlast : Component last)

include hnames

/-- A path of components is not empty. -/
lemma joinNames_ne_nil (hne : names ≠ []) : joinNames names ≠ [] := by
  intro h
  have hsplit := List.splitOn_intercalate separator
    (fun name hname => (hnames name hname).ordinary.not_mem) hne
  rw [show [separator].intercalate names = [] from h] at hsplit
  exact (hnames [] (by rw [← hsplit]; exact List.mem_singleton_self _)).ne_nil rfl

/-- A path of components is not absolute. -/
lemma head?_joinNames (hne : names ≠ []) : (joinNames names).head? ≠ some separator :=
  (contained_intercalate hne fun name hname => (hnames name hname).ordinary).relative

/-- There are no separators in front of a path of components. -/
lemma dropWhile_joinNames : (joinNames names).dropWhile (· = separator) = joinNames names := by
  by_cases hne : names = []
  · rw [hne]
    rfl
  · obtain ⟨a, tail, htail⟩ := List.exists_cons_of_ne_nil (joinNames_ne_nil hnames hne)
    have hhead := head?_joinNames hnames hne
    rw [htail, List.head?_cons] at hhead
    rw [htail, List.dropWhile_cons_of_neg (by simpa using hhead)]

/-- The first component. -/
lemma lsplitPath_joinNames (hne : names ≠ []) :
    lsplitPath (joinNames names) = (names.headI, joinNames names.tail) := by
  rw [lsplitPath, if_neg (joinNames_ne_nil hnames hne), if_neg (head?_joinNames hnames hne)]
  dsimp only
  obtain ⟨name, rest, rfl⟩ := List.exists_cons_of_ne_nil hne
  have hsep := (hnames name List.mem_cons_self).ordinary.not_mem
  by_cases hrest : rest = []
  · subst hrest
    rw [joinNames, List.intercalate_singleton, List.idxOf?_eq_none_iff.mpr hsep]
    rfl
  · rw [joinNames, List.intercalate_cons_of_ne_nil hrest, List.append_assoc, List.singleton_append,
      idxOf?_append_cons hsep]
    dsimp only
    rw [List.take_left, ← List.drop_drop, List.drop_left]
    rfl

include hlast

omit hnames in
/-- The last byte of a path of components is no separator. -/
lemma getLast?_joinNames :
    ∃ c, (joinNames (names ++ [last])).getLast? = some c ∧ isSeparator c = false ∧
      c ≠ separator := by
  obtain ⟨front, hfront, -⟩ := exists_joinNames_concat names last
  rw [hfront]
  exact hlast.exists_getLast front

/-- The last component. -/
lemma rsplitPath_joinNames :
    rsplitPath (joinNames (names ++ [last])) = (joinNames names, last) := by
  obtain ⟨c, hc, -, hsep⟩ := getLast?_joinNames hlast
  have hne : joinNames (names ++ [last]) ≠ [] := by
    rintro h
    rw [h] at hc
    cases hc
  rw [rsplitPath, if_neg hne, hc, if_neg (by simpa using hsep)]
  dsimp only
  by_cases hnil : names = []
  · subst hnil
    rw [List.nil_append, joinNames, List.intercalate_singleton, findLastOf,
      List.idxOf?_eq_none_iff.mpr (by rw [List.mem_reverse]; exact hlast.ordinary.not_mem)]
    rfl
  · rw [joinNames, intercalate_concat hnil, findLastOf_append_cons hlast.ordinary.not_mem]
    dsimp only
    rw [List.take_left, ← List.drop_drop, List.drop_left]
    rfl

/-- The parent of a path of components. -/
lemma hasParentPath_joinNames :
    hasParentPath (joinNames (names ++ [last])) = decide (names ≠ []) := by
  obtain ⟨c, hc, hsep, hne⟩ := getLast?_joinNames hlast
  have hnil : joinNames (names ++ [last]) ≠ [] := by
    rintro h
    rw [h] at hc
    cases hc
  have hroot : isRootPath (joinNames (names ++ [last])) ≠ true := by
    intro h
    have heq : joinNames (names ++ [last]) = [separator] := eq_of_beq h
    rw [heq] at hc
    exact hne (Option.some.inj hc).symm
  rw [hasParentPath, if_neg hnil, if_neg hroot, hc]
  dsimp only
  rw [Option.any_some, if_neg (by rw [hsep]; decide)]
  by_cases hnames' : names = []
  · subst hnames'
    rw [List.nil_append, joinNames, List.intercalate_singleton]
    simpa using fun c hc => hlast.not_isSeparator hc
  · rw [joinNames, intercalate_concat hnames', List.any_append, List.any_cons]
    simp [isSeparator, separator, hnames']

end Names

/-! ### Where a file is -/

section Where

variable {names : List ByteString} (hnames : ∀ name ∈ names, Component name) {leaf : ByteString}
  (hleaf : leaf ≠ [])

include hnames

/-- A path of components is not the directory itself. -/
lemma joinNames_ne_dot : joinNames names ≠ [46] := by
  intro h
  have hne : names ≠ [] := by
    rintro rfl
    cases h
  have hsplit := List.splitOn_intercalate separator
    (fun name hname => (hnames name hname).ordinary.not_mem) hne
  rw [show [separator].intercalate names = [46] from h] at hsplit
  exact (hnames [46] (by rw [← hsplit]; exact List.mem_singleton_self _)).ne_dot rfl

include hleaf

/-- Appending a name to a path of components. -/
lemma appendPath_joinNames (hne : names ≠ []) :
    appendPath (joinNames names) leaf = joinNames (names ++ [leaf]) := by
  have hlast : Component (names.getLast hne) := hnames _ (List.getLast_mem hne)
  have hsplit := List.dropLast_append_getLast hne
  obtain ⟨c, hc, -, hsep⟩ := @getLast?_joinNames names.dropLast _ hlast
  rw [hsplit] at hc
  rw [appendPath, if_neg (not_or.mpr ⟨joinNames_ne_nil hnames hne, joinNames_ne_dot hnames⟩),
    if_neg hleaf]
  dsimp only
  rw [hc, if_pos (by simpa using hsep), joinNames, joinNames, intercalate_concat hne,
    List.append_assoc, List.singleton_append]

end Where

/-- Appending the rest of a path to its first component. -/
lemma appendPath_joinNames_tail {name : ByteString} {names : List ByteString}
    (hnames : ∀ n ∈ name :: names, Component n) :
    appendPath name (joinNames names) = joinNames (name :: names) := by
  obtain ⟨hname, htail⟩ := List.forall_mem_cons.mp hnames
  by_cases hne : names = []
  · rw [hne, joinNames, joinNames, List.intercalate_singleton, appendPath,
      if_neg (not_or.mpr ⟨hname.ne_nil, hname.ne_dot⟩), List.intercalate_nil, if_pos rfl]
  · obtain ⟨c, hc, -, hsep⟩ := hname.exists_getLast []
    rw [List.nil_append] at hc
    rw [appendPath, if_neg (not_or.mpr ⟨hname.ne_nil, hname.ne_dot⟩),
      if_neg (joinNames_ne_nil htail hne)]
    dsimp only
    rw [hc, if_pos (by simpa using hsep), joinNames, joinNames,
      List.intercalate_cons_of_ne_nil hne]

/-- Appending to nothing. -/
lemma appendPath_nil (leaf : ByteString) : appendPath [] leaf = leaf := by
  rw [appendPath, if_pos (Or.inl rfl)]

namespace FileStorage

/-- The directories of a file as the storage keeps them. -/
inductive Located (fs : FileStorage) (e : InternalFileEntry) : List ByteString → Prop
  | bare (hindex : e.pathIndex = -1) : Located fs e []
  | rooted {names : List ByteString} {i : ℕ} (hindex : e.pathIndex = i)
      (hroot : e.noRootDir = false) (hpath : fs.paths[i]? = some (joinNames names)) :
      Located fs e (fs.name :: names)
  | loose {names : List ByteString} {i : ℕ} (hne : names ≠ []) (hindex : e.pathIndex = i)
      (hroot : e.noRootDir = true) (hpath : fs.paths[i]? = some (joinNames names)) :
      Located fs e names

variable {fs fs' : FileStorage} {e : InternalFileEntry} {names : List ByteString}

/-- The path of a file is its directories and its name. -/
lemma Located.filePath (h : Located fs e names) (hnames : ∀ name ∈ names, Component name)
    (hleaf : e.name ≠ []) : fs.filePath e [] = joinNames (names ++ [e.name]) := by
  cases h with
  | bare hindex =>
    rw [FileStorage.filePath, if_neg (by omega), if_pos hindex, appendPath_nil, List.nil_append,
      joinNames, List.intercalate_singleton]
  | @rooted names i hindex hroot hpath =>
    rw [FileStorage.filePath, if_neg (by omega), if_neg (by omega)]
    dsimp only
    rw [hindex, Int.toNat_natCast, List.getD_eq_getElem?_getD, hpath, Option.getD_some, hroot,
      if_neg (by decide), appendPath_nil, appendPath_joinNames_tail hnames,
      appendPath_joinNames hnames hleaf (by simp)]
  | @loose _ i hne hindex hroot hpath =>
    rw [FileStorage.filePath, if_neg (by omega), if_neg (by omega)]
    dsimp only
    rw [hindex, Int.toNat_natCast, List.getD_eq_getElem?_getD, hpath, Option.getD_some, hroot,
      if_pos rfl, appendPath_nil, appendPath_joinNames hnames hleaf hne]

/-- A file stays where it is when paths are added. -/
lemma Located.mono (h : Located fs e names) (hname : fs'.name = fs.name)
    (hpaths : fs.paths <+: fs'.paths) : Located fs' e names := by
  have hget : ∀ {i : ℕ} {path : ByteString}, fs.paths[i]? = some path →
      fs'.paths[i]? = some path := by
    intro i path hpath
    obtain ⟨more, hmore⟩ := hpaths
    rw [← hmore, List.getElem?_append_left (List.getElem?_eq_some_iff.mp hpath).1, hpath]
  cases h with
  | bare hindex => exact Located.bare hindex
  | rooted hindex hroot hpath => exact hname ▸ Located.rooted hindex hroot (hget hpath)
  | loose hne hindex hroot hpath => exact Located.loose hne hindex hroot (hget hpath)

/-- `get_or_add_path` returns the index of the path. -/
lemma getOrAddPath_spec (path : ByteString) (fs : FileStorage) :
    ∃ paths, (fs.getOrAddPath path).2 = { fs with paths := paths } ∧ fs.paths <+: paths ∧
      paths[(fs.getOrAddPath path).1]? = some path := by
  rw [getOrAddPath]
  cases hfind : fs.paths.reverse.idxOf? path with
  | none =>
    exact ⟨fs.paths ++ [path], rfl, List.prefix_append _ _, List.getElem?_concat_length⟩
  | some p =>
    obtain ⟨hlt, hget, -⟩ := List.idxOf?_eq_some_iff.mp hfind
    refine ⟨fs.paths, rfl, List.prefix_refl _, ?_⟩
    rw [List.length_reverse] at hlt
    rw [List.getElem_reverse] at hget
    exact List.getElem?_eq_some_iff.mpr
      ⟨show fs.paths.length - 1 - p < fs.paths.length by omega, hget⟩

/-- Where a file is depends on its index and on whether it is in the root directory. -/
lemma Located.congr {e' : InternalFileEntry} (h : Located fs e names)
    (hindex' : e'.pathIndex = e.pathIndex) (hroot' : e'.noRootDir = e.noRootDir) :
    Located fs e' names := by
  cases h with
  | bare hindex => exact Located.bare (hindex'.trans hindex)
  | rooted hindex hroot hpath =>
    exact Located.rooted (hindex'.trans hindex) (hroot'.trans hroot) hpath
  | loose hne hindex hroot hpath =>
    exact Located.loose hne (hindex'.trans hindex) (hroot'.trans hroot) hpath

/-- A component is kept as a name that is owned. -/
lemma setName_component {name : ByteString} (h : Component name) (e : InternalFileEntry) :
    e.setName name false = { e with name := name } := by
  have hzero : name.takeWhile (· ≠ 0) = name := by
    rw [List.takeWhile_eq_self_iff]
    intro b hb
    have := (h.text.byte hb).1
    simpa using fun hb : b = 0 => by subst hb; simp at this
  rw [InternalFileEntry.setName, if_neg h.ne_nil, if_neg (by decide), hzero]

/-- `update_path_index` keeps the directories of a path of components, and its last component if it
is to set the name. -/
lemma updatePathIndex_spec (fs : FileStorage) (e : InternalFileEntry) {last : ByteString}
    (hnames : ∀ name ∈ names, Component name) (hlast : Component last) (setName : Bool) :
    ∃ e' paths, fs.updatePathIndex e (joinNames (names ++ [last])) setName =
        (e', { fs with paths := paths }) ∧ fs.paths <+: paths ∧
      e'.name = (if setName = true then last else e.name) ∧
      Located { fs with paths := paths } e' names := by
  have hcomplete : isComplete (joinNames (names ++ [last])) = false := by
    have hall : ∀ name ∈ names ++ [last], Component name :=
      List.forall_mem_append.mpr ⟨hnames, List.forall_mem_singleton.mpr hlast⟩
    simpa [isComplete] using head?_joinNames hall (by simp)
  rw [updatePathIndex, hcomplete, if_neg (by decide), rsplitPath_joinNames hnames hlast]
  dsimp only
  simp only [setName_component hlast]
  by_cases hne : names = []
  · subst hne
    rw [if_pos (show joinNames [] = [] from rfl)]
    refine ⟨_, fs.paths, rfl, List.prefix_refl _, ?_, Located.bare rfl⟩
    cases setName <;> rfl
  · rw [if_neg (joinNames_ne_nil hnames hne), lsplitPath_joinNames hnames hne]
    dsimp only
    by_cases hroot : names.headI = fs.name
    · obtain ⟨name, rest, rfl⟩ := List.exists_cons_of_ne_nil hne
      obtain ⟨paths, hadd, hpaths, hget⟩ := fs.getOrAddPath_spec (joinNames rest)
      rw [if_pos hroot]
      dsimp only [List.tail_cons]
      rw [dropWhile_joinNames fun n hn => hnames n (List.mem_cons_of_mem _ hn), hadd]
      refine ⟨_, paths, rfl, hpaths, ?_, ?_⟩
      · cases setName <;> rfl
      · have hname : name = fs.name := hroot
        rw [hname]
        refine Located.rooted (i := (fs.getOrAddPath (joinNames rest)).1) ?_ ?_ hget
        · cases setName <;> rfl
        · cases setName <;> rfl
    · rw [if_neg hroot]
      dsimp only
      obtain ⟨paths, hadd, hpaths, hget⟩ := fs.getOrAddPath_spec (joinNames names)
      rw [hadd]
      refine ⟨_, paths, rfl, hpaths, ?_, ?_⟩
      · cases setName <;> rfl
      · refine Located.loose (i := (fs.getOrAddPath (joinNames names)).1) hne ?_ ?_ hget
        · cases setName <;> rfl
        · cases setName <;> rfl

/-! ### Adding files -/

/-- What `add_file_borrow` does for a path of components. -/
lemma addFileBorrow_spec (fs : FileStorage) {last : ByteString}
    (hnames : ∀ name ∈ names, Component name) (hlast : Component last)
    (hfirst : fs.files = [] ∨ names ≠ []) (filename : ByteString) (fileSize : ℕ)
    (fileFlags : FileFlags) (symlinkPath : ByteString) :
    ∃ e paths symlinks name,
      fs.addFileBorrow filename (joinNames (names ++ [last])) fileSize fileFlags symlinkPath =
        { fs with
          files := fs.files ++ [e]
          paths := paths
          symlinks := symlinks
          name := name
          totalSize := fs.totalSize + (BitVec.ofNat 48 fileSize).setWidth 64 } ∧
      fs.paths <+: paths ∧ (fs.files ≠ [] → name = fs.name) ∧
      e.size = BitVec.ofNat 48 fileSize ∧ e.offset = fs.totalSize.setWidth 48 ∧
      e.name = (if filename = [] then last else InternalFileEntry.borrowed filename) ∧
      Located { fs with paths := paths, name := name } e names := by
  obtain ⟨name, hname, hkeep⟩ : ∃ name,
      (if !hasParentPath (joinNames (names ++ [last])) then
        { fs with name := joinNames (names ++ [last]) }
      else if fs.files = [] then { fs with name := (lsplitPath (joinNames (names ++ [last]))).1 }
      else fs) = { fs with name := name } ∧ (fs.files ≠ [] → name = fs.name) := by
    rw [hasParentPath_joinNames hnames hlast]
    by_cases hne : names = []
    · rw [if_pos (by simp [hne])]
      exact ⟨_, rfl, fun h => absurd (hfirst.resolve_right (not_not_intro hne)) h⟩
    · rw [if_neg (by simp [hne])]
      by_cases hfiles : fs.files = []
      · rw [if_pos hfiles]
        exact ⟨_, rfl, fun h => absurd hfiles h⟩
      · rw [if_neg hfiles]
        exact ⟨fs.name, rfl, fun _ => rfl⟩
  obtain ⟨e, paths, hupdate, hpaths, hleaf, hlocated⟩ := updatePathIndex_spec
    { fs with name := name } InternalFileEntry.init hnames hlast (decide (filename = []))
  rw [addFileBorrow]
  dsimp only
  rw [hname, hupdate]
  dsimp only
  have hset : ∃ leaf, (if filename ≠ [] then e.setName filename true else e) =
      { e with name := leaf } ∧
        leaf = (if filename = [] then last else InternalFileEntry.borrowed filename) := by
    by_cases hfilename : filename = []
    · refine ⟨last, ?_, by rw [if_pos hfilename]⟩
      rw [if_neg (not_not_intro hfilename)]
      rw [decide_eq_true hfilename, if_pos rfl] at hleaf
      rw [← hleaf]
    · refine ⟨InternalFileEntry.borrowed filename, ?_, by rw [if_neg hfilename]⟩
      rw [if_pos hfilename, InternalFileEntry.setName, if_neg hfilename, if_pos rfl]
  obtain ⟨leaf, hset, hleaf⟩ := hset
  rw [hset]
  by_cases hsymlink : symlinkPath ≠ [] ∧ fs.symlinks.length < notASymlink - 1
  · rw [if_pos hsymlink]
    exact ⟨_, paths, _, name, rfl, hpaths, hkeep, rfl, rfl, hleaf, hlocated.congr rfl rfl⟩
  · rw [if_neg hsymlink]
    exact ⟨_, paths, _, name, rfl, hpaths, hkeep, rfl, rfl, hleaf, hlocated.congr rfl rfl⟩

/-- A file below its directories, whose name is an end of the path that it was added with. -/
def Kept (fs : FileStorage) (e : InternalFileEntry) : Prop :=
  ∃ names last, (∀ name ∈ names, Component name) ∧ Component last ∧ Located fs e names ∧
    e.name ≠ [] ∧ e.name <:+ joinNames (names ++ [last]) ∧ (names = [] → e.name = last)

/-- The path of such a file is contained. -/
lemma Kept.contained (h : Kept fs e) :
    Contained separator [46] [46, 46] (fs.filePath e []) := by
  obtain ⟨names, last, hnames, hlast, hlocated, hleaf, hsuffix, hsingle⟩ := h
  rw [hlocated.filePath hnames hleaf]
  by_cases hne : names = []
  · rw [hsingle hne, hne, List.nil_append]
    exact contained_intercalate (by simp) fun name hname =>
      List.eq_of_mem_singleton hname ▸ hlast.ordinary
  · rw [joinNames, intercalate_concat hne]
    refine contained_of_suffix hne (fun name hname => ?_) hsuffix
    rcases List.mem_append.mp hname with hname | hname
    · exact (hnames name hname).ordinary
    · exact List.eq_of_mem_singleton hname ▸ hlast.ordinary

/-- Adding a file keeps those that are there, and keeps the file. -/
lemma addFileBorrow_kept {last filename : ByteString} (hfs : ∀ e ∈ fs.files, Kept fs e)
    (hnames : ∀ name ∈ names, Component name) (hlast : Component last)
    (hfirst : fs.files = [] ∨ names ≠ []) (hfilename : filename <:+ joinNames (names ++ [last]))
    (hlimit : filename.length < InternalFileEntry.borrowLimit)
    (hsingle : names = [] → filename = [] ∨ filename = last ∧ filename.length < nameIsOwned)
    (fileSize : ℕ) (fileFlags : FileFlags) (symlinkPath : ByteString) :
    ∀ e ∈ (fs.addFileBorrow filename (joinNames (names ++ [last])) fileSize fileFlags
      symlinkPath).files, Kept (fs.addFileBorrow filename (joinNames (names ++ [last])) fileSize
        fileFlags symlinkPath) e := by
  obtain ⟨new, paths, symlinks, name, heq, hpaths, hkeep, -, -, hleaf, hlocated⟩ :=
    fs.addFileBorrow_spec hnames hlast hfirst filename fileSize fileFlags symlinkPath
  rw [heq]
  intro e he
  rcases List.mem_append.mp he with he | he
  · obtain ⟨names', last', hnames', hlast', hlocated', hrest⟩ := hfs e he
    exact ⟨names', last', hnames', hlast',
      hlocated'.mono (hkeep (List.ne_nil_of_mem he)) hpaths, hrest⟩
  · obtain rfl := List.eq_of_mem_singleton he
    refine ⟨names, last, hnames, hlast, hlocated.mono rfl (List.prefix_refl _), ?_, ?_, ?_⟩
    · rw [hleaf]
      split_ifs with hnil
      · exact hlast.ne_nil
      · exact (InternalFileEntry.borrowed_spec hnil hlimit).1
    · rw [hleaf]
      split_ifs with hnil
      · obtain ⟨front, hfront, -⟩ := exists_joinNames_concat names last
        exact ⟨front, hfront.symm⟩
      · exact (InternalFileEntry.borrowed_spec hnil hlimit).2.1.trans hfilename
    · intro hne
      rw [hleaf]
      rcases hsingle hne with hnil | ⟨hlast', hshort⟩
      · rw [if_pos hnil]
      · have hne' : filename ≠ [] := hlast' ▸ hlast.ne_nil
        rw [if_neg hne', (InternalFileEntry.borrowed_spec hne' hlimit).2.2 hshort, hlast']

end FileStorage

end Tent
