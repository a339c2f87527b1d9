import Mathlib.Data.Finset.Insert
import Mathlib.Data.List.TakeWhile
import Tent.Foundation.Collect
import Tent.Storage.FileStorage

/-!
# The directories of the files

Before its file handlers open the files of a torrent, `piece_handler` calls `build_dir_tree`, which
makes the directories above them.  `build_dirs` goes from slash to slash of a path: it cuts off what
stands in front of a slash and appends it to `current_dir`, so that the part of the path that was
consumed is always what the stream holds.  So it enters the directories above the path one after the
other, from the top (`buildDirsLoop_eq_foldl`), and `dirs` keeps a directory that an earlier file
has entered from being made again, which is `addKey` of `Tent.Foundation.Collect`.

The file system is a parameter: its states, which directories are there, and that `mkdir` makes a
directory where the one above is there and nothing stands in the way.  `dir_tree_exact` says which
directories are made and in which order, and that every file handler finds its directory.
-/

set_option autoImplicit false

namespace Tent

open Collect

/-- A path as a `std::string` holds it. -/
abbrev PathText := List Char

/-! ### `build_dir_tree` -/

/-- What `build_dir_tree` keeps: `dirs`, and the paths that `mkdir` was called with. -/
structure DirTree where
  /-- `dirs`. -/
  dirs : Finset PathText
  /-- The arguments of `mkdir` in the order of the calls. -/
  made : List PathText
deriving DecidableEq

/-- `std::string::c_str`, as `mkdir` reads it: up to the first zero. -/
def cPath (path : PathText) : PathText := path.takeWhile (· ≠ Char.ofNat 0)

/-- Make a directory that is not in `dirs`. -/
def DirTree.enter (t : DirTree) (dir : PathText) : DirTree :=
  if dir ∈ t.dirs then t else ⟨insert dir t.dirs, t.made ++ [cPath dir]⟩

/-- The loop of `build_dirs`, with what `current_dir` holds and what is left of the path. -/
def buildDirsLoop (currentDir path : PathText) (t : DirTree) : DirTree :=
  match hit : path.idxOf? '/' with
  | none => t
  | some it =>
    let currentDir := currentDir ++ path.take it
    buildDirsLoop (currentDir ++ ['/']) (path.drop (it + 1)) (t.enter currentDir)
termination_by path.length
decreasing_by
  cases path with
  | nil => cases hit
  | cons c path =>
    rw [List.length_drop, List.length_cons]
    omega

/-- `build_dirs`. -/
def buildDirs (path : PathText) (t : DirTree) : DirTree := buildDirsLoop [] path t

/-- `build_dir_tree`. -/
def buildDirTree (files : List FileEntry) : DirTree :=
  files.foldl (fun t f => buildDirs f.path.toList t) ⟨∅, []⟩

/-! ### The directories above a path -/

/-- The directories above a path from the top: what stands in front of its slashes. -/
def directoriesAbove : PathText → List PathText
  | [] => []
  | c :: path =>
    if c = '/' then [] :: (directoriesAbove path).map (c :: ·)
    else (directoriesAbove path).map (c :: ·)

/-- The directory above a path, none if there is no slash. -/
def parent (path : PathText) : Option PathText :=
  ((path.reverse.dropWhile (· ≠ '/')).tail?).map List.reverse

/-- Where no slash is, there is no directory. -/
lemma directoriesAbove_of_notMem {path : PathText} (h : '/' ∉ path) :
    directoriesAbove path = [] := by
  induction path with
  | nil => rfl
  | cons c path ih =>
    rw [List.mem_cons, not_or] at h
    rw [directoriesAbove, if_neg (Ne.symm h.1), ih h.2, List.map_nil]

/-- The first directory stands in front of the first slash, and the others begin with it. -/
lemma directoriesAbove_append_cons {dir : PathText} (h : '/' ∉ dir) (path : PathText) :
    directoriesAbove (dir ++ '/' :: path) =
      dir :: (directoriesAbove path).map ((dir ++ ['/']) ++ ·) := by
  induction dir with
  | nil => rfl
  | cons c dir ih =>
    rw [List.mem_cons, not_or] at h
    rw [List.cons_append, directoriesAbove, if_neg (Ne.symm h.1), ih h.2, List.map_cons,
      List.map_map]
    rfl

/-- A directory is above a path if a slash follows it there. -/
lemma mem_directoriesAbove {dir path : PathText} :
    dir ∈ directoriesAbove path ↔ dir ++ ['/'] <+: path := by
  induction path generalizing dir with
  | nil => simp [directoriesAbove]
  | cons c path ih =>
    rw [directoriesAbove]
    cases dir with
    | nil =>
      rw [List.nil_append, List.cons_prefix_cons]
      split_ifs with hc
      · exact iff_of_true List.mem_cons_self ⟨hc.symm, List.nil_prefix⟩
      · exact iff_of_false (by simp) fun h => hc h.1.symm
    | cons x dir =>
      have hmap : x :: dir ∈ (directoriesAbove path).map (c :: ·) ↔
          x = c ∧ dir ++ ['/'] <+: path := by
        rw [← ih, List.mem_map]
        constructor
        · rintro ⟨dir', hdir', heq⟩
          obtain ⟨rfl, rfl⟩ := List.cons.inj heq
          exact ⟨rfl, hdir'⟩
        · rintro ⟨rfl, hdir⟩
          exact ⟨dir, hdir, rfl⟩
      rw [List.cons_append, List.cons_prefix_cons, ← hmap]
      split_ifs
      · simp
      · rfl

/-- The directories above a path get longer. -/
lemma pairwise_directoriesAbove (path : PathText) :
    (directoriesAbove path).Pairwise fun dir dir' => dir.length < dir'.length := by
  induction path with
  | nil => exact List.Pairwise.nil
  | cons c path ih =>
    have hmap : ((directoriesAbove path).map (c :: ·)).Pairwise fun dir dir' =>
        dir.length < dir'.length :=
      List.pairwise_map.mpr (ih.imp fun h => Nat.succ_lt_succ h)
    rw [directoriesAbove]
    split_ifs
    · refine List.pairwise_cons.mpr ⟨fun dir hdir => ?_, hmap⟩
      obtain ⟨dir', -, rfl⟩ := List.mem_map.mp hdir
      exact Nat.succ_pos _
    · exact hmap

/-- The directory above a path is what stands in front of its last slash. -/
lemma parent_eq_some_iff {dir path : PathText} :
    parent path = some dir ↔ ∃ name, '/' ∉ name ∧ path = dir ++ '/' :: name := by
  unfold parent
  constructor
  · intro h
    obtain ⟨rest, htail, rfl⟩ := Option.map_eq_some_iff.mp h
    cases hdrop : path.reverse.dropWhile (· ≠ '/') with
    | nil =>
      rw [hdrop] at htail
      cases htail
    | cons c rest' =>
      rw [hdrop] at htail
      obtain rfl : rest' = rest := Option.some.inj htail
      have hslash : c = '/' := by
        have hnot := List.head?_dropWhile_not (fun x => decide (x ≠ '/')) path.reverse
        rw [hdrop] at hnot
        simpa using hnot
      refine ⟨(path.reverse.takeWhile (· ≠ '/')).reverse, fun hmem => ?_, ?_⟩
      · have hne := List.mem_takeWhile_imp (List.mem_reverse.mp hmem)
        exact absurd hne (by decide)
      · have hsplit := List.takeWhile_append_dropWhile (p := fun x => decide (x ≠ '/'))
          (l := path.reverse)
        rw [hdrop, hslash] at hsplit
        have hreverse := congrArg List.reverse hsplit
        rw [List.reverse_reverse, List.reverse_append, List.reverse_cons, List.append_assoc]
          at hreverse
        exact hreverse.symm
  · rintro ⟨name, hname, rfl⟩
    have hreverse : (dir ++ '/' :: name).reverse = name.reverse ++ '/' :: dir.reverse := by simp
    rw [hreverse, List.dropWhile_append_of_pos fun c hc => ?_]
    · simp
    · rw [decide_eq_true_eq]
      rintro rfl
      exact hname (List.mem_reverse.mp hc)

/-- In the list of the directories above a path, the parent of one stands in front of it. -/
lemma ordered_directoriesAbove (path : PathText) :
    Ordered (fun p dir => parent dir = some p) (directoriesAbove path) := by
  refine .of_pairwise (pairwise_directoriesAbove path) (fun dir hdir p hp => ?_)
    fun p dir hp => ?_
  · obtain ⟨name, -, rfl⟩ := parent_eq_some_iff.mp hp
    rw [mem_directoriesAbove] at hdir ⊢
    refine List.IsPrefix.trans ?_ hdir
    exact ⟨name ++ ['/'], by simp⟩
  · obtain ⟨name, -, rfl⟩ := parent_eq_some_iff.mp hp
    have hlength : p.length < (p ++ '/' :: name).length := by
      rw [List.length_append, List.length_cons]
      omega
    exact ⟨fun heq => absurd (congrArg List.length heq) hlength.ne, hlength.not_gt⟩

/-! ### The directories of a file -/

/-- The components of a path joined by slashes. -/
def joinPath (components : List String) : PathText := ("/".intercalate components).toList

/-- The directories above a file: the proper ancestors of its path, from the top. -/
def FileEntry.directories (f : FileEntry) : List PathText :=
  (List.range f.branch.length).map fun k => joinPath (f.branch.take (k + 1))

/-- In no component of the path stands a slash or a zero, as `sanitize_append_path_element` leaves
them. -/
def FileEntry.Plain (f : FileEntry) : Prop :=
  ∀ component ∈ f.branch ++ [f.name], '/' ∉ component.toList ∧ Char.ofNat 0 ∉ component.toList

instance (f : FileEntry) : Decidable f.Plain :=
  inferInstanceAs (Decidable (∀ component ∈ f.branch ++ [f.name],
    '/' ∉ component.toList ∧ Char.ofNat 0 ∉ component.toList))

/-- A slash stands between the first component and the others. -/
lemma joinPath_cons (component : String) {components : List String} (h : components ≠ []) :
    joinPath (component :: components) = component.toList ++ '/' :: joinPath components := by
  rw [joinPath, String.intercalate_cons_of_ne_nil h]
  simp [joinPath]

/-- The only component of a path. -/
lemma joinPath_singleton (component : String) : joinPath [component] = component.toList := by
  rw [joinPath, String.intercalate_singleton]

/-- The directories above a path are joined from the components in front of its last one. -/
lemma directoriesAbove_joinPath {branch : List String} {name : String}
    (h : ∀ component ∈ branch ++ [name], '/' ∉ component.toList) :
    directoriesAbove (joinPath (branch ++ [name])) =
      (List.range branch.length).map fun k => joinPath (branch.take (k + 1)) := by
  induction branch with
  | nil =>
    rw [List.nil_append, joinPath_singleton]
    exact directoriesAbove_of_notMem (h name List.mem_cons_self)
  | cons component branch ih =>
    have hne : branch ++ [name] ≠ [] := List.concat_ne_nil name branch
    rw [List.cons_append, joinPath_cons component hne,
      directoriesAbove_append_cons (h component List.mem_cons_self),
      ih fun c hc => h c (List.mem_cons_of_mem component hc), List.length_cons,
      List.range_succ_eq_map, List.map_cons, List.map_map, List.map_map]
    refine congrArg₂ List.cons (joinPath_singleton component).symm ?_
    refine List.map_congr_left fun k hk => ?_
    have htake : branch.take (k + 1) ≠ [] := by
      have hlt := List.mem_range.mp hk
      rw [Ne, List.take_eq_nil_iff]
      rintro (hzero | hnil)
      · cases hzero
      · rw [hnil] at hlt
        cases hlt
    change component.toList ++ ['/'] ++ joinPath (branch.take (k + 1)) =
      joinPath (component :: branch.take (k + 1))
    rw [joinPath_cons component htake, List.append_assoc, List.singleton_append]

/-- A joined path is a C string if its components are. -/
lemma zero_notMem_joinPath {components : List String}
    (h : ∀ component ∈ components, Char.ofNat 0 ∉ component.toList) :
    Char.ofNat 0 ∉ joinPath components := by
  induction components with
  | nil => simp [joinPath]
  | cons component components ih =>
    have hfirst := h component List.mem_cons_self
    have hrest := ih fun c hc => h c (List.mem_cons_of_mem component hc)
    by_cases hempty : components = []
    · rw [hempty, joinPath_singleton]
      exact hfirst
    · rw [joinPath_cons component hempty, List.mem_append, List.mem_cons]
      rintro (hmem | hmem | hmem)
      · exact hfirst hmem
      · exact absurd hmem (by decide)
      · exact hrest hmem

namespace FileEntry.Plain

variable {f : FileEntry}

/-- The directories of a file are those above its path. -/
lemma directoriesAbove_path (h : f.Plain) : directoriesAbove f.path.toList = f.directories :=
  directoriesAbove_joinPath fun component hcomponent => (h component hcomponent).1

/-- `mkdir` reads the whole path of a directory. -/
lemma cPath_of_mem (h : f.Plain) {dir : PathText} (hdir : dir ∈ f.directories) :
    cPath dir = dir := by
  obtain ⟨k, -, rfl⟩ := List.mem_map.mp hdir
  have hzero : Char.ofNat 0 ∉ joinPath (f.branch.take (k + 1)) :=
    zero_notMem_joinPath fun component hcomponent =>
      (h component (List.mem_append_left _ (List.mem_of_mem_take hcomponent))).2
  refine List.takeWhile_eq_self_iff.mpr fun c hc => ?_
  rw [decide_eq_true_eq]
  rintro rfl
  exact hzero hc

/-- The directory of a file is the last of its directories. -/
lemma parent_mem_directories (h : f.Plain) {dir : PathText}
    (hdir : parent f.path.toList = some dir) : dir ∈ f.directories := by
  obtain ⟨name, -, hpath⟩ := parent_eq_some_iff.mp hdir
  rw [← h.directoriesAbove_path, mem_directoriesAbove, hpath]
  exact ⟨name, by simp⟩

end FileEntry.Plain

/-! ### What is made -/

/-- The loop of `build_dirs` enters the directories above what is left of the path, each of them
behind what the stream holds. -/
lemma buildDirsLoop_eq_foldl (currentDir path : PathText) (t : DirTree) :
    buildDirsLoop currentDir path t =
      ((directoriesAbove path).map (currentDir ++ ·)).foldl DirTree.enter t := by
  fun_induction buildDirsLoop currentDir path t with
  | case1 currentDir path t hit =>
    rw [directoriesAbove_of_notMem (List.idxOf?_eq_none_iff.mp hit)]
    rfl
  | case2 currentDir path t it hit dir ih =>
    -- the path is what stands in front of the slash that was found, the slash and the rest
    obtain ⟨hlt, hslash, hfront⟩ := List.idxOf?_eq_some_iff.mp hit
    have hsplit : path = path.take it ++ '/' :: path.drop (it + 1) := by
      rw [← hslash, ← List.drop_eq_getElem_cons hlt, List.take_append_drop]
    have hnone : '/' ∉ path.take it := by
      intro hmem
      obtain ⟨j, hj, hget⟩ := List.getElem_of_mem hmem
      rw [List.length_take] at hj
      rw [List.getElem_take] at hget
      exact hfront j (by omega) hget
    have habove := directoriesAbove_append_cons hnone (path.drop (it + 1))
    rw [← hsplit] at habove
    rw [ih, habove, List.map_cons, List.foldl_cons, List.map_map]
    refine congrArg (List.foldl DirTree.enter (t.enter dir)) (List.map_congr_left fun d _ => ?_)
    simp [dir]

namespace DirTree

/-- `dirs` holds what was made. -/
def InStep (t : DirTree) : Prop := ∀ dir, dir ∈ t.dirs ↔ dir ∈ t.made

/-- Entering a directory collects it. -/
lemma InStep.enter {t : DirTree} (ht : t.InStep) {dir : PathText} (hdir : cPath dir = dir) :
    (t.enter dir).InStep ∧ (t.enter dir).made = addKey t.made dir := by
  unfold DirTree.enter addKey
  by_cases hmem : dir ∈ t.dirs
  · rw [if_pos hmem, if_pos ((ht dir).mp hmem)]
    exact ⟨ht, rfl⟩
  · rw [if_neg hmem, if_neg fun hmade => hmem ((ht dir).mpr hmade), hdir]
    refine ⟨fun d => ?_, rfl⟩
    rw [Finset.mem_insert, List.mem_append, List.mem_singleton, ht d, or_comm]

/-- Entering directories one after the other collects them. -/
lemma InStep.foldl_enter {t : DirTree} (ht : t.InStep) {dirs : List PathText}
    (hdirs : ∀ dir ∈ dirs, cPath dir = dir) :
    (dirs.foldl DirTree.enter t).made = dirs.foldl addKey t.made := by
  induction dirs generalizing t with
  | nil => rfl
  | cons dir dirs ih =>
    obtain ⟨hstep, hmade⟩ := ht.enter (hdirs dir List.mem_cons_self)
    rw [List.foldl_cons, List.foldl_cons, ← hmade]
    exact ih hstep fun d hd => hdirs d (List.mem_cons_of_mem dir hd)

end DirTree

/-- `build_dir_tree` collects the directories of the files. -/
lemma made_buildDirTree {files : List FileEntry} (h : ∀ f ∈ files, f.Plain) :
    (buildDirTree files).made = (files.flatMap FileEntry.directories).foldl addKey [] := by
  have hfold : buildDirTree files =
      (files.flatMap FileEntry.directories).foldl DirTree.enter ⟨∅, []⟩ := by
    rw [List.foldl_flatMap]
    refine List.foldl_ext _ _ _ fun t f hf => ?_
    rw [buildDirs, buildDirsLoop_eq_foldl, (h f hf).directoriesAbove_path]
    simp
  have hinit : (⟨∅, []⟩ : DirTree).InStep := fun dir => by simp
  rw [hfold, hinit.foldl_enter]
  intro dir hdir
  obtain ⟨f, hf, hmem⟩ := List.mem_flatMap.mp hdir
  exact (h f hf).cPath_of_mem hmem

/-! ### The file system -/

/-- A file system with the states `σ`, as far as the client relies on it. -/
structure FileSystem (σ : Type*) where
  /-- A directory is there. -/
  isDir : σ → PathText → Prop
  /-- Something stands in the way of a directory although the one above it is there: a file of the
  same name, or missing permissions. -/
  denied : σ → PathText → Prop
  /-- `mkdir`. -/
  mkdir : σ → PathText → σ
  /-- `std::ofstream::open`, which creates a file. -/
  openFile : σ → PathText → σ
  /-- `mkdir` makes a directory where the one above it is there. -/
  isDir_mkdir : ∀ s dir, (∀ p, parent dir = some p → isDir s p) → ¬ denied s dir →
    isDir (mkdir s dir) dir
  /-- `mkdir` leaves the directories that are there. -/
  mkdir_keeps : ∀ s dir d, isDir s d → isDir (mkdir s dir) d
  /-- `mkdir` puts nothing in the way of other directories. -/
  denied_of_mkdir : ∀ s dir d, denied (mkdir s dir) d → denied s d
  /-- `open` leaves the directories that are there. -/
  openFile_keeps : ∀ s path d, isDir s d → isDir (openFile s path) d

namespace FileSystem

variable {σ : Type*} (fs : FileSystem σ)

/-- The calls of `mkdir`. -/
def makeDirs (s : σ) (made : List PathText) : σ := made.foldl fs.mkdir s

/-- The constructors of the file handlers, in the order of `file_range`. -/
def openFiles (s : σ) (files : List FileEntry) : σ :=
  files.foldl (fun s f => fs.openFile s f.path.toList) s

variable {fs}

/-- If every directory is made after the one above it, all of them are there in the end. -/
lemma isDir_makeDirs {s : σ} {made : List PathText}
    (hordered : Ordered (fun p dir => parent dir = some p) made)
    (hdenied : ∀ dir ∈ made, ¬ fs.denied s dir) :
    ∀ dir ∈ made, fs.isDir (fs.makeDirs s made) dir := by
  have hfree : ∀ (dirs : List PathText) (d : PathText), fs.denied (fs.makeDirs s dirs) d →
      fs.denied s d := by
    intro dirs d
    induction dirs using List.reverseRecOn with
    | nil => exact id
    | append_singleton dirs dir ih =>
      rw [makeDirs, List.foldl_append, List.foldl_cons, List.foldl_nil]
      exact fun h => ih (fs.denied_of_mkdir _ dir d h)
  induction made using List.reverseRecOn with
  | nil => simp
  | append_singleton made dir ih =>
    obtain ⟨hmade, hparent⟩ := Ordered.concat_iff.mp hordered
    have hthere := ih hmade fun d hd => hdenied d (List.mem_append_left _ hd)
    have hlast : fs.makeDirs s (made ++ [dir]) = fs.mkdir (fs.makeDirs s made) dir := by
      rw [makeDirs, List.foldl_append]
      rfl
    rw [hlast]
    intro d hd
    rcases List.mem_append.mp hd with hd | hd
    · exact fs.mkdir_keeps _ dir d (hthere d hd)
    · rw [List.mem_singleton.mp hd]
      exact fs.isDir_mkdir _ dir (fun p hp => hthere p (hparent p hp)) fun h =>
        hdenied dir (by simp) (hfree made dir h)

/-- Opening files leaves the directories that are there. -/
lemma isDir_openFiles {s : σ} {d : PathText} (h : fs.isDir s d) (files : List FileEntry) :
    fs.isDir (fs.openFiles s files) d := by
  induction files generalizing s with
  | nil => exact h
  | cons f files ih => exact ih (fs.openFile_keeps s f.path.toList d h)

end FileSystem

/-! ### The directory tree -/

/-- `build_dir_tree` calls `mkdir` for the directories above the files and for no others, for each
of them once over all files, and for every directory after the one above it.  So when a file handler
opens its file, its directory is there, if nothing stood in the way of a directory before. -/
theorem dir_tree_exact {σ : Type*} (fs : FileSystem σ) (s : σ) (files : List FileEntry)
    (hfiles : ∀ f ∈ files, f.Plain) :
    (buildDirTree files).made.Nodup ∧
      (∀ dir, dir ∈ (buildDirTree files).made ↔ ∃ f ∈ files, dir ∈ f.directories) ∧
      (∀ pre dir, pre ++ [dir] <+: (buildDirTree files).made →
        ∀ p, parent dir = some p → p ∈ pre) ∧
      ((∀ f ∈ files, ∀ dir ∈ f.directories, ¬ fs.denied s dir) →
        ∀ pre f, pre ++ [f] <+: files → ∀ dir, parent f.path.toList = some dir →
          fs.isDir (fs.openFiles (fs.makeDirs s (buildDirTree files).made) pre) dir) := by
  have hmade := made_buildDirTree hfiles
  have hmem : ∀ dir, dir ∈ (buildDirTree files).made ↔ ∃ f ∈ files, dir ∈ f.directories := by
    intro dir
    rw [hmade, mem_foldl_addKey, List.mem_flatMap]
    simp
  have hordered : Ordered (fun p dir => parent dir = some p) (buildDirTree files).made := by
    rw [hmade]
    refine (Ordered.flatMap fun f hf => ?_).foldl_addKey
    rw [← (hfiles f hf).directoriesAbove_path]
    exact ordered_directoriesAbove f.path.toList
  refine ⟨?_, hmem, hordered, fun hdenied pre f hpre dir hdir => ?_⟩
  · rw [hmade]
    exact nodup_foldl_addKey List.nodup_nil
  · have hf : f ∈ files := hpre.subset (List.mem_append_right pre (List.mem_singleton_self f))
    refine FileSystem.isDir_openFiles ?_ pre
    refine FileSystem.isDir_makeDirs hordered (fun d hd => ?_) dir
      ((hmem dir).mpr ⟨f, hf, (hfiles f hf).parent_mem_directories hdir⟩)
    obtain ⟨f', hf', hd'⟩ := (hmem d).mp hd
    exact hdenied f' hf' d hd'

/-- A file system that is the list of its directories. -/
def dirTable : FileSystem (List PathText) where
  isDir s d := d ∈ s
  denied _ _ := False
  mkdir s dir := if ∀ p ∈ parent dir, p ∈ s then dir :: s else s
  openFile s _ := s
  isDir_mkdir s dir hparent _ := by
    have habove : ∀ p ∈ parent dir, p ∈ s := hparent
    rw [if_pos habove]
    exact List.mem_cons_self
  mkdir_keeps s dir d hd := by
    split_ifs
    · exact List.mem_cons_of_mem dir hd
    · exact hd
  denied_of_mkdir _ _ _ h := h
  openFile_keeps _ _ _ h := h

/-- Two files that share a directory, one of them in a directory of its own below it. -/
def nestedFiles : List FileEntry := [⟨["t", "a"], "x", 1⟩, ⟨["t"], "y", 1⟩]

/-- The directories of the two files are made once each and from the top, and both file handlers
find theirs. -/
theorem dir_tree_exact_sample :
    (buildDirTree nestedFiles).made.Nodup ∧
      (∀ dir, dir ∈ (buildDirTree nestedFiles).made ↔ ∃ f ∈ nestedFiles, dir ∈ f.directories) ∧
      (∀ pre dir, pre ++ [dir] <+: (buildDirTree nestedFiles).made →
        ∀ p, parent dir = some p → p ∈ pre) ∧
      ∀ pre f, pre ++ [f] <+: nestedFiles → ∀ dir, parent f.path.toList = some dir →
        dirTable.isDir (dirTable.openFiles
          (dirTable.makeDirs [] (buildDirTree nestedFiles).made) pre) dir := by
  obtain ⟨hnodup, hmem, hordered, hpresent⟩ :=
    dir_tree_exact dirTable [] nestedFiles (by decide)
  exact ⟨hnodup, hmem, hordered, hpresent fun _ _ _ _ hdenied => hdenied⟩

end Tent
