import Tent.Bencode.Encode
import Tent.Foundation.Hex
import Tent.Foundation.SecureHash
import Tent.Metainfo.AddFile

/-!
# The info section

`parse_info_section` reads the dictionary `info` of the metainfo: the piece length, the name, the
files with their paths, and the hashes of the pieces.  A path of a file is put together from
elements that `sanitize_append_path_element` has gone through, but the name of the file is borrowed
from the metainfo if the path ends with it.  As long as what is borrowed fits (`namesFit`), no path
leaves the working directory (`parseInfoSection_contained`).

The nodes are the trees that they stand for.  Whether an error code is set is part of the result: a
file that is no dictionary makes the function return `false` without one.
-/

set_option autoImplicit false

namespace Tent

open Bytes SecureHash Lexical Transition

/-! ### Look-ups -/

/-- The error codes that reading the info section sets. -/
inductive TorrentError where
  | metadataTooLarge
  | torrentInfoNoDict
  | torrentMissingPieceLength
  | torrentMissingName
  | torrentInvalidLength
  | torrentInvalidName
  | noFilesInTorrent
  | tooManyPiecesInTorrent
  | torrentMissingPieces
  | torrentInvalidHashes
deriving DecidableEq

/-- What a function returns that may return `false`, with the error code that is set then. -/
abbrev Parsed (α : Type) := Except (Option TorrentError) α

namespace BNode

/-- `dict_find`, of a dictionary. -/
def find (key : ByteString) (node : BNode) : Option BNode :=
  node.asDict.bind fun entries => entries.lookup key

/-- `dict_find_string`, of a dictionary. -/
def findString (key : ByteString) (node : BNode) : Option ByteString :=
  (node.find key).bind asString

/-- `dict_find_list`, of a dictionary. -/
def findList (key : ByteString) (node : BNode) : Option (List BNode) :=
  (node.find key).bind asList

/-- `dict_find_int_value`, of a dictionary. -/
def findIntValue (key : ByteString) (defaultVal : ℤ) (node : BNode) : ℤ :=
  ((node.find key).bind asInt).getD defaultVal

/-- The name of the torrent, where the one that is said to be UTF-8 is preferred. -/
def torrentName (node : BNode) : Option ByteString :=
  (node.findString (ascii ['n', 'a', 'm', 'e', '.', 'u', 't', 'f', '-', '8'])).or
    (node.findString (ascii ['n', 'a', 'm', 'e']))

/-- The path of a file, where the one that is said to be UTF-8 is preferred. -/
def filePath (node : BNode) : Option (List BNode) :=
  (node.findList (ascii ['p', 'a', 't', 'h', '.', 'u', 't', 'f', '-', '8'])).or
    (node.findList (ascii ['p', 'a', 't', 'h']))

end BNode

/-! ### Files -/

/-- `get_file_attributes`. -/
def getFileAttributes (dict : BNode) : FileFlags :=
  match dict.findString (ascii ['a', 't', 't', 'r']) with
  | none => ⟨false, false, false, false⟩
  | some attr => attr.foldl (fun fileFlags c =>
      if c = 108 then { fileFlags with symlink := true }
      else if c = 120 then { fileFlags with executable := true }
      else if c = 104 then { fileFlags with hidden := true }
      else if c = 112 then { fileFlags with padFile := true }
      else fileFlags) ⟨false, false, false, false⟩

/-- The elements of a path; none if `path_length` finds one that is no string. -/
def pathElements (p : List BNode) : Option (List ByteString) := p.mapM BNode.asString

/-- A name of the metainfo without the separators in front of it. -/
def stripSeparators (filename : ByteString) : ByteString := filename.dropWhile (· = separator)

/-- The path of the file of a torrent that has no list of files, and its name. -/
def topLevelPath (dict : BNode) (rootDir : ByteString) : Parsed (ByteString × ByteString) :=
  match dict.torrentName with
  | none => .error (some .torrentMissingName)
  | some p =>
    if p = [] then .error (some .torrentMissingName)
    else
      let path := sanitizeAppendPathElement rootDir p
      if path = [] then .error (some .torrentMissingName) else .ok (path, stripSeparators p)

/-- The path of a file of a list, its name, and the number of pad files. -/
def nestedPath (dict : BNode) (rootDir : ByteString) (padFile : Bool) (padFileCnt : ℕ) :
    Parsed (ByteString × ByteString × ℕ) :=
  match dict.filePath with
  | some (e :: rest) =>
    match pathElements (e :: rest) with
    | none => .error (some .torrentInvalidName)
    | some elements =>
      let path := elements.foldl sanitizeAppendPathElement rootDir
      let filename := stripSeparators (elements.getLastD [])
      .ok (if path.length = rootDir.length then path ++ [separator, 95] else path, filename,
        padFileCnt)
  | _ =>
    if padFile then
      .ok (combinePath (ascii ['.', 'p', 'a', 'd']) ((decimal padFileCnt).take 9), [],
        padFileCnt + 1)
    else .error (some .torrentMissingName)

/-- The name that a file of a list may borrow, the last element of its path, is short enough to be
kept to its end. -/
def namesFit (info : BNode) : Bool :=
  ((info.findList (ascii ['f', 'i', 'l', 'e', 's'])).getD []).all fun dict =>
    (dict.filePath.bind pathElements).all fun elements =>
      (stripSeparators (elements.getLastD [])).length < InternalFileEntry.borrowLimit

/-- The target of a link. -/
def symlinkTarget (dict : BNode) (fileFlags : FileFlags) : Parsed ByteString :=
  if fileFlags.symlink then
    match dict.findList (ascii ['s', 'y', 'm', 'l', 'i', 'n', 'k', ' ', 'p', 'a', 't', 'h']) with
    | none => .ok []
    | some p =>
      match pathElements p with
      | none => .error (some .torrentInvalidName)
      | some elements => .ok (elements.foldl sanitizeAppendPathElement [])
  else .ok []

/-- The name that marks the pad files of another client. -/
def paddingFile : ByteString :=
  ascii ['_', '_', '_', '_', '_', 'p', 'a', 'd', 'd', 'i', 'n', 'g', '_', 'f', 'i', 'l', 'e', '_']

/-- `extract_single_file`, with the number of pad files. -/
def extractSingleFile (dict : BNode) (files : FileStorage) (rootDir : ByteString)
    (topLevel : Bool) (padFileCnt : ℕ) : Parsed (FileStorage × ℕ) :=
  if dict.asDict.isNone then .error none
  else
    let fileFlags := getFileAttributes dict
    let fileSize :=
      if fileFlags.symlink then 0
      else dict.findIntValue (ascii ['l', 'e', 'n', 'g', 't', 'h']) (-1)
    if fileSize < 0 then .error (some .torrentInvalidLength)
    else
      let found :=
        if topLevel then (topLevelPath dict rootDir).map fun (path, filename) =>
          (path, filename, padFileCnt)
        else nestedPath dict rootDir fileFlags.padFile padFileCnt
      found.bind fun (path, filename, padFileCnt) =>
        let fileFlags :=
          if (findText paddingFile path).isSome then { fileFlags with padFile := true }
          else fileFlags
        (symlinkTarget dict fileFlags).map fun symlinkPath =>
          -- a name that was changed is taken from the path
          let filename := if filename.isSuffixOf path then filename else []
          (files.addFileBorrow filename path fileSize.toNat fileFlags symlinkPath, padFileCnt)

/-- `extract_files`. -/
def extractFiles (list : List BNode) (target : FileStorage) (rootDir : ByteString) :
    Parsed FileStorage :=
  (list.foldlM (fun (target, padFileCnt) dict =>
    extractSingleFile dict target rootDir false padFileCnt) (target, 0)).map Prod.fst

/-! ### The section -/

/-- What `parse_info_section` leaves in the `torrent_info`. -/
structure InfoSection where
  /-- `m_info_hash`. -/
  infoHash : ByteString
  /-- `m_files`. -/
  files : FileStorage
  /-- `m_piece_hashes`; none if there is the root of a hash tree in their place. -/
  pieceHashes : Option ByteString
  /-- The flag `multifile`. -/
  multifile : Bool

/-- The files, in a list or alone. -/
def extractAll (info : BNode) (files : FileStorage) (name : ByteString) :
    Parsed (FileStorage × Bool) :=
  match info.findList (ascii ['f', 'i', 'l', 'e', 's']) with
  | none => (extractSingleFile info files [] true 0).map fun (files, _) => (files, false)
  | some list => (extractFiles list files name).map fun files => (files, true)

/-- The checks on the pieces, with the number of pieces set. -/
def checkPieces (info : BNode) (files : FileStorage) (maxPieces : ℤ) :
    Parsed (FileStorage × Option ByteString) :=
  if files.files = [] then .error (some .noFilesInTorrent)
  else if files.name = [] then .error (some .torrentMissingName)
  else if (intMax - files.pieceLength : ℤ) * files.pieceLength ≤ files.totalSize.toInt then
    .error (some .tooManyPiecesInTorrent)
  else
    let numPieces := (BitVec.ofInt 32
      ((files.totalSize.toInt + files.pieceLength - 1).tdiv files.pieceLength)).toInt
    let pieces := info.findString (ascii ['p', 'i', 'e', 'c', 'e', 's'])
    let rootHash := info.findString (ascii ['r', 'o', 'o', 't', ' ', 'h', 'a', 's', 'h'])
    if pieces = none ∧ rootHash = none then .error (some .torrentMissingPieces)
    else if (intMax / 20 : ℤ) ≤ numPieces ∨ maxPieces < numPieces then
      .error (some .tooManyPiecesInTorrent)
    else
      let files := { files with numPieces := numPieces }
      match pieces with
      | some pieces =>
        if (pieces.length : ℤ) ≠ numPieces * 20 then .error (some .torrentInvalidHashes)
        else .ok (files, some pieces)
      | none =>
        if (rootHash.getD []).length ≠ 20 then .error (some .torrentInvalidHashes)
        else if numPieces ≤ 0 then .error (some .noFilesInTorrent)
        else .ok (files, none)

/-- `parse_info_section`, with the bytes of the section. -/
def parseInfoSection (info : BNode) (dataSection : ByteString) (maxPieces : ℤ) :
    Parsed InfoSection :=
  if info.asDict.isNone then .error (some .torrentInfoNoDict)
  else
    let infoHash := sha1 dataSection
    if intMax ≤ dataSection.length then .error (some .metadataTooLarge)
    else
      let pieceLength := info.findIntValue
        (ascii ['p', 'i', 'e', 'c', 'e', ' ', 'l', 'e', 'n', 'g', 't', 'h']) (-1)
      if pieceLength ≤ 0 ∨ (intMax : ℤ) < pieceLength then
        .error (some .torrentMissingPieceLength)
      else
        match info.torrentName with
        | none => .error (some .torrentMissingName)
        | some nameEnt =>
          let name := sanitizeAppendPathElement [] nameEnt
          let name := if name = [] then toHex infoHash else name
          (extractAll info { FileStorage.init with pieceLength := pieceLength.toNat } name).bind
            fun (files, multifile) =>
              (checkPieces info files maxPieces).map fun (files, pieceHashes) =>
                ⟨infoHash, files, pieceHashes, multifile⟩

/-- `default_piece_limit`. -/
def defaultPieceLimit : ℤ := 0x100000

/-! ### Components of ASCII -/

/-- Printable ASCII without separators is text. -/
lemma nameText_ascii {text : ByteString}
    (h : ∀ b ∈ text, 32 ≤ b.toNat ∧ b.toNat < 0x80 ∧ b.toNat ≠ 47 ∧ b.toNat ≠ 92) :
    NameText text := by
  refine ⟨text.map UInt8.toNat, fun cp hcp => ?_, ?_⟩
  · obtain ⟨b, hb, rfl⟩ := List.mem_map.mp hcp
    obtain ⟨hlow, hhigh, hslash, hbackslash⟩ := h b hb
    refine ⟨Or.inl (by omega), hlow, hslash, hbackslash, ?_⟩
    simp only [badCp, List.mem_cons, List.not_mem_nil, or_false]
    omega
  · induction text with
    | nil => rfl
    | cons b text ih =>
      have hb := h b List.mem_cons_self
      rw [List.map_cons, List.flatMap_cons, ← ih fun b hb => h b (List.mem_cons_of_mem _ hb),
        (encode_one hb.2.1).2, List.singleton_append]

/-- Text without dots is a component. -/
lemma component_of_no_dot {text : ByteString} (h : NameText text) (hne : text ≠ [])
    (hdot : (46 : UInt8) ∉ text) : Component text :=
  ⟨h, hne, by rintro rfl; exact hdot (by decide), by rintro rfl; exact hdot (by decide)⟩

/-- The digits of a byte string that is not empty are a component. -/
lemma component_toHex {b : ByteString} (h : b ≠ []) : Component (toHex b) := by
  have hchars : ∀ c ∈ toHex b, c ∈ hexChars := by
    intro c hc
    obtain ⟨x, -, hc⟩ := List.mem_flatMap.mp hc
    rw [hexPair, List.mem_cons, List.mem_singleton] at hc
    rcases hc with rfl | rfl
    · exact hexDigit_mem_hexChars (toNat_div_lt x)
    · exact hexDigit_mem_hexChars (toNat_mod_lt x)
  have hall : ∀ c ∈ hexChars, (32 ≤ c.toNat ∧ c.toNat < 0x80 ∧ c.toNat ≠ 47 ∧ c.toNat ≠ 92) ∧
      c ≠ 46 := by decide +kernel
  refine component_of_no_dot (nameText_ascii fun c hc => (hall c (hchars c hc)).1) ?_
    fun hdot => (hall 46 (hchars 46 hdot)).2 rfl
  obtain ⟨x, rest, rfl⟩ := List.exists_cons_of_ne_nil h
  exact List.cons_ne_nil _ _

/-- A digest is not empty. -/
lemma sha1_ne_nil (message : ByteString) : sha1 message ≠ [] := by
  rw [sha1, Chain.digest, List.flatMap_cons]
  intro h
  have hlength := congrArg List.length (List.append_eq_nil_iff.mp h).1
  rw [length_toBE] at hlength
  exact absurd hlength (by decide)

/-- The name of a pad file is a component. -/
lemma component_decimal (n : ℕ) : Component ((decimal n).take 9) := by
  have hchars : ∀ c ∈ (decimal n).take 9, numeric c = true := fun c hc =>
    numeric_of_mem_decimal (List.mem_of_mem_take hc)
  have hdigits : ∀ c ∈ (decimal n).take 9, 48 ≤ c.toNat ∧ c.toNat ≤ 57 := by
    intro c hc
    simpa [numeric] using hchars c hc
  refine component_of_no_dot (nameText_ascii fun c hc => ?_) ?_ fun hdot => ?_
  · have := hdigits c hc
    omega
  · obtain ⟨c, rest, hcons⟩ := List.exists_cons_of_ne_nil
      (digits_decimal (Nat.succ_pos n) (Nat.lt_pow_self (by decide) |>.trans_le
        (Nat.pow_le_pow_right (by decide) (Nat.le_succ n)))).ne_nil
    rw [hcons]
    exact List.cons_ne_nil _ _
  · exact absurd (hchars 46 hdot) (by decide)

/-! ### Paths of files -/

/-- A component more. -/
lemma appendComponent_joinNames {names : List ByteString} (hnames : ∀ n ∈ names, Component n)
    (name : ByteString) : appendComponent (joinNames names) name = joinNames (names ++ [name]) := by
  by_cases hne : names = []
  · subst hne
    rw [List.nil_append, joinNames, joinNames, List.intercalate_singleton]
    rfl
  · rw [appendComponent, if_neg (joinNames_ne_nil hnames hne), joinNames, joinNames,
      intercalate_concat hne]

/-- Elements that are sanitized one after the other lead down. -/
lemma foldl_sanitize (elements : List ByteString) {names : List ByteString}
    (hnames : ∀ n ∈ names, Component n) :
    ∃ more, (∀ n ∈ more, Component n) ∧
      elements.foldl sanitizeAppendPathElement (joinNames names) = joinNames (names ++ more) := by
  induction elements generalizing names with
  | nil => exact ⟨[], fun _ h => absurd h List.not_mem_nil, by rw [List.append_nil]; rfl⟩
  | cons element elements ih =>
    rw [List.foldl_cons]
    rcases sanitizeAppendPathElement_spec (joinNames names) element with heq | ⟨name, hname, -, heq⟩
    · rw [heq]
      exact ih hnames
    · rw [heq, appendComponent_joinNames hnames]
      have hall : ∀ n ∈ names ++ [name], Component n :=
        List.forall_mem_append.mpr ⟨hnames, List.forall_mem_singleton.mpr hname⟩
      obtain ⟨more, hmore, hfold⟩ := ih hall
      refine ⟨name :: more, List.forall_mem_cons.mpr ⟨hname, hmore⟩, ?_⟩
      rw [hfold, List.append_assoc, List.singleton_append]

/-- Two components that are combined. -/
lemma combinePath_component {lhs rhs : ByteString} (hlhs : Component lhs) (hrhs : Component rhs) :
    combinePath lhs rhs = joinNames [lhs, rhs] := by
  obtain ⟨c, hc, -, hsep⟩ := hlhs.exists_getLast []
  rw [List.nil_append] at hc
  rw [combinePath, if_neg (not_or.mpr ⟨hlhs.ne_nil, hlhs.ne_dot⟩),
    if_neg (not_or.mpr ⟨hrhs.ne_nil, hrhs.ne_dot⟩)]
  dsimp only
  rw [hc, if_pos (by simpa using hsep), joinNames,
    List.intercalate_cons_of_ne_nil (List.cons_ne_nil _ _), List.intercalate_singleton]

/-- Elements below a directory, with another name if nothing of them is left. -/
lemma nested_elements {rootDir : ByteString} (hroot : Component rootDir)
    (elements : List ByteString) :
    ∃ names last, names ≠ [] ∧ (∀ n ∈ names, Component n) ∧ Component last ∧
      (if (elements.foldl sanitizeAppendPathElement rootDir).length = rootDir.length then
        elements.foldl sanitizeAppendPathElement rootDir ++ [separator, 95]
      else elements.foldl sanitizeAppendPathElement rootDir) = joinNames (names ++ [last]) := by
  have hsingle : ∀ n ∈ [rootDir], Component n := List.forall_mem_singleton.mpr hroot
  have hjoin : joinNames [rootDir] = rootDir := by rw [joinNames, List.intercalate_singleton]
  obtain ⟨more, hmore, hfold⟩ := foldl_sanitize elements hsingle
  rw [hjoin] at hfold
  rw [hfold]
  by_cases hne : more = []
  · refine ⟨[rootDir], [95], by simp, hsingle,
      component_of_no_dot (NameText.encode nameChar_underscore) (by simp) (by decide), ?_⟩
    rw [hne, List.append_nil, hjoin, if_pos rfl, joinNames, intercalate_concat (by simp),
      List.intercalate_singleton]
  · have hlonger : joinNames ([rootDir] ++ more) = rootDir ++ separator :: joinNames more := by
      rw [joinNames, List.singleton_append, List.intercalate_cons_of_ne_nil hne,
        List.append_assoc, List.singleton_append]
      rfl
    refine ⟨[rootDir] ++ more.dropLast, more.getLast hne, by simp, ?_,
      hmore _ (List.getLast_mem hne), ?_⟩
    · intro n hn
      rcases List.mem_append.mp hn with hn | hn
      · exact hsingle n hn
      · exact hmore n (List.mem_of_mem_dropLast hn)
    · rw [List.append_assoc, List.dropLast_append_getLast, if_neg]
      rw [hlonger, List.length_append, List.length_cons]
      omega

/-- The path of a file of a list has directories, and its name is taken from the last element. -/
lemma nestedPath_ok {dict : BNode} {rootDir path filename : ByteString} {padFile : Bool}
    {padFileCnt cnt : ℕ} (hroot : Component rootDir)
    (h : nestedPath dict rootDir padFile padFileCnt = .ok (path, filename, cnt)) :
    (∃ names last, names ≠ [] ∧ (∀ n ∈ names, Component n) ∧ Component last ∧
      path = joinNames (names ++ [last])) ∧
      (filename = [] ∨ ∃ elements, dict.filePath.bind pathElements = some elements ∧
        filename = stripSeparators (elements.getLastD [])) := by
  unfold nestedPath at h
  split at h
  · rename_i e rest hpath
    split at h
    · cases h
    · rename_i elements helements
      obtain ⟨rfl, hrest⟩ := Prod.mk.inj (Except.ok.inj h)
      obtain ⟨rfl, -⟩ := Prod.mk.inj hrest
      refine ⟨nested_elements hroot elements, Or.inr ⟨elements, ?_, rfl⟩⟩
      rw [hpath, Option.bind_some, helements]
  · split at h
    · obtain ⟨rfl, hrest⟩ := Prod.mk.inj (Except.ok.inj h)
      obtain ⟨rfl, -⟩ := Prod.mk.inj hrest
      refine ⟨?_, Or.inl rfl⟩
      have hpad : Component (ascii ['.', 'p', 'a', 'd']) :=
        ⟨nameText_ascii (by decide +kernel), by decide, by decide, by decide⟩
      have hcount := component_decimal padFileCnt
      exact ⟨[ascii ['.', 'p', 'a', 'd']], (decimal padFileCnt).take 9, by simp,
        List.forall_mem_singleton.mpr hpad, hcount, combinePath_component hpad hcount⟩
    · cases h

/-- Separators in front of an element are left out. -/
lemma sanitizeLoop_strip (p : ByteString) (s : SanitizeState) :
    sanitizeLoop p.length p s = sanitizeLoop (stripSeparators p).length (stripSeparators p) s := by
  induction p with
  | nil => rfl
  | cons b p ih =>
    by_cases hb : b = separator
    · have hstep : sanitizeStep (b :: p) s = (s, some 1) := by
        have hparse : parseUtf8Codepoint (b :: p) = (47, 1) := by
          rw [hb]
          exact parseUtf8Codepoint_encode (show Utf8.Scalar 47 by decide) p
        rw [sanitizeStep, hparse]
        rfl
      rw [List.length_cons, sanitizeLoop, if_neg (List.cons_ne_nil _ _), hstep]
      dsimp only
      rw [List.drop_one, List.tail_cons, ih, stripSeparators, stripSeparators,
        List.dropWhile_cons_of_pos (by simpa using hb)]
    · rw [stripSeparators, List.dropWhile_cons_of_neg (by simpa using hb)]

/-- A name that ends what is left of it was kept as it is, and is short. -/
lemma stripSeparators_eq_of_suffix {p : ByteString}
    (hsuffix : stripSeparators p <:+ sanitizedText [] p) :
    stripSeparators p = sanitizedText [] p ∧ (stripSeparators p).length < nameIsOwned := by
  have hrun : sanitizedText [] p = (sanitizeLoop (stripSeparators p).length (stripSeparators p)
      ⟨[], 0, 0, false⟩).path := by
    rw [← sanitizeLoop_strip]
    rfl
  obtain ⟨text, found, -, hlength, hloop⟩ := sanitizeLoop_eq_add (stripSeparators p).length
    (stripSeparators p) ⟨[], 0, 0, false⟩
  have hsanitized : sanitizedText [] p = text := by
    rw [hrun, hloop]
    rfl
  have hsame : stripSeparators p = sanitizedText [] p :=
    hsuffix.eq_of_length_le (hsanitized ▸ hlength)
  have hshort := length_of_sanitizeLoop_verbatim (s := ⟨[], 0, 0, false⟩)
    (Nat.le_refl (stripSeparators p).length) (show 0 < 240 by decide) rfl
    (hrun.symm.trans hsame.symm)
  have hbound : 0 + (stripSeparators p).length < 250 := hshort
  refine ⟨hsame, ?_⟩
  rw [nameIsOwned]
  omega

/-- The path of a file alone is one component, and its name is that component if the path ends with
it. -/
lemma topLevelPath_ok {dict : BNode} {path filename : ByteString}
    (h : topLevelPath dict [] = .ok (path, filename)) :
    Component path ∧ (filename <:+ path → filename = [] ∨
      filename = path ∧ filename.length < nameIsOwned) := by
  unfold topLevelPath at h
  split at h
  · cases h
  · rename_i p _
    split_ifs at h with hnil
    dsimp only at h
    split_ifs at h with hempty
    obtain ⟨rfl, rfl⟩ := Prod.mk.inj (Except.ok.inj h)
    have hdot : p ≠ [46] := by
      rintro rfl
      exact hempty rfl
    obtain ⟨htext, -, heq⟩ := sanitizeAppendPathElement_eq [] hnil hdot
    have hspecial : ¬ Special (sanitizedText [] p) := by
      intro hspecial
      rw [if_pos hspecial] at heq
      exact hempty heq
    rw [if_neg hspecial] at heq
    have hpath : sanitizeAppendPathElement [] p = sanitizedText [] p := heq
    rw [hpath]
    exact ⟨htext.component hspecial, fun hsuffix => Or.inr (stripSeparators_eq_of_suffix hsuffix)⟩

/-! ### The files that are added -/

/-- `extract_single_file` adds one file, whose name is an end of its path or is taken from it. -/
lemma extractSingleFile_ok {dict : BNode} {files files' : FileStorage} {rootDir : ByteString}
    {topLevel : Bool} {padFileCnt cnt : ℕ}
    (h : extractSingleFile dict files rootDir topLevel padFileCnt = .ok (files', cnt)) :
    ∃ path filename fileSize fileFlags symlinkPath,
      (topLevel = true → topLevelPath dict rootDir = .ok (path, filename)) ∧
      (topLevel = false → nestedPath dict rootDir (getFileAttributes dict).padFile padFileCnt =
        .ok (path, filename, cnt)) ∧
      files' = files.addFileBorrow (if filename.isSuffixOf path then filename else []) path
        fileSize fileFlags symlinkPath := by
  unfold extractSingleFile at h
  by_cases hdict : dict.asDict.isNone = true
  · rw [if_pos hdict] at h
    cases h
  rw [if_neg hdict] at h
  dsimp only at h
  generalize (if (getFileAttributes dict).symlink = true then (0 : ℤ)
    else dict.findIntValue _ (-1)) = fileSize at h
  by_cases hsize : fileSize < 0
  · rw [if_pos hsize] at h
    cases h
  rw [if_neg hsize] at h
  obtain ⟨⟨path, filename, cnt'⟩, hfound, hrest⟩ := bind_eq_ok.mp h
  obtain ⟨symlinkPath, -, hadd⟩ := map_eq_ok.mp hrest
  obtain ⟨rfl, rfl⟩ := Prod.mk.inj hadd
  cases topLevel with
  | true =>
    obtain ⟨⟨path', filename'⟩, htop, hpair⟩ := map_eq_ok.mp hfound
    cases hpair
    exact ⟨_, _, _, _, _, fun _ => htop, fun hfalse => absurd hfalse (by decide), rfl⟩
  | false => exact ⟨_, _, _, _, _, fun htrue => absurd htrue (by decide), fun _ => hfound, rfl⟩

namespace FileStorage

/-- What adding a file of the metainfo is: its path consists of components, and its name is an end
of that path or taken from it, and short where names are said to fit. -/
def Adds (fit : Prop) (files files' : FileStorage) : Prop :=
  ∃ names last filename fileSize fileFlags symlinkPath,
    (∀ n ∈ names, Component n) ∧ Component last ∧ (files.files = [] ∨ names ≠ []) ∧
      filename <:+ joinNames (names ++ [last]) ∧
      (fit → filename.length < InternalFileEntry.borrowLimit) ∧
      (names = [] → filename = [] ∨ filename = last ∧ filename.length < nameIsOwned) ∧
      files' = files.addFileBorrow filename (joinNames (names ++ [last])) fileSize fileFlags
        symlinkPath

/-- The storage keeps every file that was added. -/
def Sound (fs : FileStorage) : Prop := ∀ e ∈ fs.files, fs.Kept e

variable {files files' : FileStorage}

/-- Adding a file whose name fits keeps the storage sound. -/
lemma Adds.sound (h : Adds True files files') (hsound : files.Sound) : files'.Sound := by
  obtain ⟨names, last, filename, fileSize, fileFlags, symlinkPath, hnames, hlast, hfirst, hsuffix,
    hlimit, hsingle, rfl⟩ := h
  exact addFileBorrow_kept hsound hnames hlast hfirst hsuffix (hlimit trivial) hsingle fileSize
    fileFlags symlinkPath

/-- Adding files whose names fit keeps the storage sound. -/
lemma sound_of_adds (h : Relation.ReflTransGen (Adds True) files files') (hsound : files.Sound) :
    files'.Sound := by
  induction h with
  | refl => exact hsound
  | tail _ hstep ih => exact hstep.sound ih

end FileStorage

/-- `extract_single_file` adds a file. -/
lemma extractSingleFile_adds {fit : Prop} {dict : BNode} {files files' : FileStorage}
    {rootDir : ByteString} {topLevel : Bool} {padFileCnt cnt : ℕ}
    (hplace : topLevel = true ∧ rootDir = [] ∧ files.files = [] ∨
      topLevel = false ∧ Component rootDir)
    (hfit : topLevel = false → fit → ∀ elements, dict.filePath.bind pathElements = some elements →
      (stripSeparators (elements.getLastD [])).length < InternalFileEntry.borrowLimit)
    (h : extractSingleFile dict files rootDir topLevel padFileCnt = .ok (files', cnt)) :
    FileStorage.Adds fit files files' := by
  obtain ⟨path, filename, fileSize, fileFlags, symlinkPath, htop, hnested, rfl⟩ :=
    extractSingleFile_ok h
  have hsuffix : (if filename.isSuffixOf path then filename else []) <:+ path := by
    split_ifs with hsuffix
    · exact List.isSuffixOf_iff_suffix.mp hsuffix
    · exact List.nil_suffix
  rcases hplace with ⟨rfl, rfl, hempty⟩ | ⟨rfl, hroot⟩
  · obtain ⟨hlast, hsingle⟩ := topLevelPath_ok (htop rfl)
    have hjoin : joinNames ([] ++ [path]) = path := by
      rw [List.nil_append, joinNames, List.intercalate_singleton]
    have hkept : (if filename.isSuffixOf path then filename else []) = [] ∨
        (if filename.isSuffixOf path then filename else []) = path ∧
          (if filename.isSuffixOf path then filename else []).length < nameIsOwned := by
      split_ifs with hend
      · exact hsingle (List.isSuffixOf_iff_suffix.mp hend)
      · exact Or.inl rfl
    refine ⟨[], path, (if filename.isSuffixOf path then filename else []), fileSize, fileFlags,
      symlinkPath, fun _ hn => absurd hn List.not_mem_nil, hlast, Or.inl hempty, ?_, fun _ => ?_,
      fun _ => hkept, by rw [hjoin]⟩
    · rw [hjoin]
      exact hsuffix
    · rcases hkept with hnil | ⟨-, hshort⟩
      · rw [hnil]
        decide
      · exact lt_trans hshort (by decide)
  · obtain ⟨⟨names, last, hne, hnames, hlast, rfl⟩, hborrow⟩ := nestedPath_ok hroot (hnested rfl)
    refine ⟨names, last, _, fileSize, fileFlags, symlinkPath, hnames, hlast, Or.inr hne, hsuffix,
      fun hf => ?_, fun hnil => absurd hnil hne, rfl⟩
    have hlimit : filename.length < InternalFileEntry.borrowLimit := by
      rcases hborrow with rfl | ⟨elements, helements, rfl⟩
      · decide
      · exact hfit rfl hf elements helements
    split_ifs
    · exact hlimit
    · decide

/-- `extract_files` adds files one after the other. -/
lemma extractFiles_adds {fit : Prop} {list : List BNode} {files files' : FileStorage}
    {rootDir : ByteString} (hroot : Component rootDir)
    (hfit : fit → ∀ dict ∈ list, ∀ elements, dict.filePath.bind pathElements = some elements →
      (stripSeparators (elements.getLastD [])).length < InternalFileEntry.borrowLimit)
    (h : extractFiles list files rootDir = .ok files') :
    Relation.ReflTransGen (FileStorage.Adds fit) files files' := by
  obtain ⟨⟨target, cnt⟩, hfold, rfl⟩ := map_eq_ok.mp h
  have hrun := reflTransGen_of_foldlM_ok
    (R := fun s t : FileStorage × ℕ => FileStorage.Adds fit s.1 t.1)
    (fun s dict hmem t hstep =>
      extractSingleFile_adds (Or.inr ⟨rfl, hroot⟩) (fun _ hf => hfit hf dict hmem) hstep) hfold
  exact hrun.lift Prod.fst fun _ _ hstep => hstep

/-- The names of a list of files that fit. -/
lemma lt_of_namesFit {info : BNode} (h : namesFit info = true) {list : List BNode}
    (hlist : info.findList (ascii ['f', 'i', 'l', 'e', 's']) = some list) {dict : BNode}
    (hdict : dict ∈ list) {elements : List ByteString}
    (helements : dict.filePath.bind pathElements = some elements) :
    (stripSeparators (elements.getLastD [])).length < InternalFileEntry.borrowLimit := by
  rw [namesFit, hlist, Option.getD_some, List.all_eq_true] at h
  have hfits := h dict hdict
  rw [helements, Option.all_some] at hfits
  exact of_decide_eq_true hfits

/-- The files of the section are added one after the other. -/
lemma extractAll_adds {fit : Prop} {info : BNode} {files files' : FileStorage} {name : ByteString}
    {multifile : Bool} (hname : Component name) (hempty : files.files = [])
    (hfit : fit → namesFit info = true)
    (h : extractAll info files name = .ok (files', multifile)) :
    Relation.ReflTransGen (FileStorage.Adds fit) files files' := by
  unfold extractAll at h
  split at h
  · obtain ⟨⟨target, cnt⟩, hsingle, hpair⟩ := map_eq_ok.mp h
    obtain ⟨rfl, -⟩ := Prod.mk.inj hpair
    exact Relation.ReflTransGen.single (extractSingleFile_adds (Or.inl ⟨rfl, rfl, hempty⟩)
      (fun htop => absurd htop (by decide)) hsingle)
  · rename_i list hlist
    obtain ⟨target, hextract, hpair⟩ := map_eq_ok.mp h
    obtain ⟨rfl, -⟩ := Prod.mk.inj hpair
    exact extractFiles_adds hname
      (fun hf dict hdict elements => lt_of_namesFit (hfit hf) hlist hdict) hextract

/-- What the checks on the pieces make sure of, and what they leave as it is. -/
lemma checkPieces_ok {info : BNode} {files files' : FileStorage} {maxPieces : ℤ}
    {pieces : Option ByteString} (h : checkPieces info files maxPieces = .ok (files', pieces)) :
    ∃ numPieces, files' = { files with numPieces := numPieces } ∧ files.files ≠ [] ∧
      files.totalSize.toInt < (intMax - files.pieceLength : ℤ) * files.pieceLength ∧
      numPieces = (BitVec.ofInt 32 ((files.totalSize.toInt + files.pieceLength - 1).tdiv
        files.pieceLength)).toInt ∧ numPieces ≤ maxPieces ∧
      ∀ hashes, pieces = some hashes → (hashes.length : ℤ) = numPieces * 20 := by
  unfold checkPieces at h
  dsimp only at h
  generalize info.findString (ascii ['p', 'i', 'e', 'c', 'e', 's']) = found at h
  cases found with
  | some found =>
    dsimp only at h
    split_ifs at h with hfiles hname hsize hnone hmany hhashes
    rw [not_or, not_lt] at hmany
    obtain ⟨rfl, rfl⟩ := Prod.mk.inj (Except.ok.inj h)
    refine ⟨_, rfl, hfiles, not_le.mp hsize, rfl, hmany.2, fun hashes hsome => ?_⟩
    rw [← Option.some.inj hsome]
    exact not_not.mp hhashes
  | none =>
    dsimp only at h
    split_ifs at h with hfiles hname hsize hnone hmany hroot hpos
    rw [not_or, not_lt] at hmany
    obtain ⟨rfl, rfl⟩ := Prod.mk.inj (Except.ok.inj h)
    exact ⟨_, rfl, hfiles, not_le.mp hsize, rfl, hmany.2, fun hashes hsome => by cases hsome⟩

/-- The section has what is read before its files. -/
structure Headed (info : BNode) (dataSection : ByteString) (pieceLength : ℕ)
    (name : ByteString) : Prop where
  /-- It is a dictionary. -/
  isDict : info.asDict.isSome = true
  /-- It is not too large. -/
  isShort : dataSection.length < intMax
  /-- It has the piece length. -/
  hasLength : info.findIntValue
    (ascii ['p', 'i', 'e', 'c', 'e', ' ', 'l', 'e', 'n', 'g', 't', 'h']) (-1) = pieceLength
  /-- The piece length is positive. -/
  pieceLength_pos : 0 < pieceLength
  /-- The piece length is an `int`. -/
  pieceLength_le : pieceLength ≤ intMax
  /-- It has a name, in place of which the info hash is taken if nothing of it is left. -/
  hasName : ∃ nameEnt, info.torrentName = some nameEnt ∧
    name = if sanitizeAppendPathElement [] nameEnt = [] then toHex (sha1 dataSection)
      else sanitizeAppendPathElement [] nameEnt

/-- The name of a section is a component. -/
lemma Headed.component {info : BNode} {dataSection name : ByteString} {pieceLength : ℕ}
    (h : Headed info dataSection pieceLength name) : Component name := by
  obtain ⟨nameEnt, -, rfl⟩ := h.hasName
  rcases sanitizeAppendPathElement_spec [] nameEnt with heq | ⟨name, hcomponent, -, heq⟩
  · rw [heq, if_pos rfl]
    exact component_toHex (sha1_ne_nil dataSection)
  · have hpath : sanitizeAppendPathElement [] nameEnt = name := heq
    rw [hpath, if_neg hcomponent.ne_nil]
    exact hcomponent

/-- Behind its head the section is read file by file, and then the pieces are checked. -/
lemma Headed.parseInfoSection_eq {info : BNode} {dataSection name : ByteString} {pieceLength : ℕ}
    (h : Headed info dataSection pieceLength name) (maxPieces : ℤ) :
    parseInfoSection info dataSection maxPieces =
      (extractAll info { FileStorage.init with pieceLength := pieceLength } name).bind
        fun (files, multifile) =>
          (checkPieces info files maxPieces).map fun (files, pieceHashes) =>
            ⟨sha1 dataSection, files, pieceHashes, multifile⟩ := by
  obtain ⟨nameEnt, hname, heq⟩ := h.hasName
  have hpos := h.pieceLength_pos
  have hle := h.pieceLength_le
  rw [parseInfoSection, if_neg (by simpa [Option.isSome_iff_ne_none] using h.isDict)]
  dsimp only
  rw [if_neg (by simpa using h.isShort), h.hasLength, if_neg (by omega), hname, heq]
  rfl

/-- A section has a head or is refused with an error code. -/
lemma headed_or_refused (info : BNode) (dataSection : ByteString) (maxPieces : ℤ) :
    (∃ pieceLength name, Headed info dataSection pieceLength name) ∨
      ∃ e, parseInfoSection info dataSection maxPieces = .error (some e) := by
  unfold parseInfoSection
  dsimp only
  split_ifs with hdict hlarge hlength
  · exact Or.inr ⟨_, rfl⟩
  · exact Or.inr ⟨_, rfl⟩
  · exact Or.inr ⟨_, rfl⟩
  · rw [Bool.not_eq_true, Option.isNone_eq_false_iff] at hdict
    rw [not_or, not_le, not_lt] at hlength
    obtain ⟨hpos, hle⟩ := hlength
    cases hname : info.torrentName with
    | none => exact Or.inr ⟨_, rfl⟩
    | some nameEnt =>
      exact Or.inl ⟨_, _, ⟨hdict, not_le.mp hlarge, (Int.toNat_of_nonneg hpos.le).symm, by omega,
        by omega, nameEnt, hname, rfl⟩⟩

/-- The parts of the section. -/
lemma parseInfoSection_ok {info : BNode} {dataSection : ByteString} {maxPieces : ℤ}
    {t : InfoSection} (h : parseInfoSection info dataSection maxPieces = .ok t) :
    ∃ pieceLength files name, Headed info dataSection pieceLength name ∧
      extractAll info { FileStorage.init with pieceLength := pieceLength } name =
        .ok (files, t.multifile) ∧
      checkPieces info files maxPieces = .ok (t.files, t.pieceHashes) := by
  rcases headed_or_refused info dataSection maxPieces with
    ⟨pieceLength, name, hhead⟩ | ⟨e, hrefused⟩
  · rw [hhead.parseInfoSection_eq] at h
    obtain ⟨⟨files, multifile⟩, hextract, hrest⟩ := bind_eq_ok.mp h
    obtain ⟨⟨files', pieces⟩, hcheck, rfl⟩ := map_eq_ok.mp hrest
    exact ⟨pieceLength, files, name, hhead, hextract, hcheck⟩
  · rw [hrefused] at h
    cases h

/-- What is accepted keeps every file whose name fits. -/
lemma parseInfoSection_sound {info : BNode} {dataSection : ByteString} {maxPieces : ℤ}
    {t : InfoSection} (h : parseInfoSection info dataSection maxPieces = .ok t)
    (hfit : namesFit info = true) :
    ∃ (files : FileStorage) (numPieces : ℤ),
      t.files = { files with numPieces := numPieces } ∧ files.Sound := by
  obtain ⟨pieceLength, files, name, hhead, hextract, hcheck⟩ := parseInfoSection_ok h
  obtain ⟨numPieces, hfiles, -⟩ := checkPieces_ok hcheck
  exact ⟨files, numPieces, hfiles, FileStorage.sound_of_adds
    (extractAll_adds hhead.component rfl (fun _ => hfit) hextract)
      fun e he => absurd he List.not_mem_nil⟩

/-- Whatever a torrent says, no path of its files is absolute or gets above the working directory,
if the names that it lends fit. -/
theorem parseInfoSection_contained {info : BNode} {dataSection : ByteString} {maxPieces : ℤ}
    {t : InfoSection} (h : parseInfoSection info dataSection maxPieces = .ok t)
    (hfit : namesFit info = true) :
    ∀ e ∈ t.files.files, Contained separator [46] [46, 46] (t.files.filePath e []) := by
  obtain ⟨files, numPieces, hfiles, hsound⟩ := parseInfoSection_sound h hfit
  rw [hfiles]
  intro e he
  exact (hsound e he).contained

/-- A result that is one. -/
lemma exists_of_isOk {α : Type} {x : Parsed α} (h : x.isOk = true) : ∃ a, x = .ok a := by
  cases x with
  | error e => cases h
  | ok a => exact ⟨a, rfl⟩

/-- A torrent with one file, the last element of whose path is `..`: the name is borrowed, since
the path that is left ends with it. -/
def dottedInfo : BNode := .dict
  [(ascii ['f', 'i', 'l', 'e', 's'], .list [.dict
      [(ascii ['l', 'e', 'n', 'g', 't', 'h'], .int 3),
        (ascii ['p', 'a', 't', 'h'], .list [.string [97, 46, 46], .string [46, 46]])]]),
    (ascii ['n', 'a', 'm', 'e'], .string [116]),
    (ascii ['p', 'i', 'e', 'c', 'e', ' ', 'l', 'e', 'n', 'g', 't', 'h'], .int 16384),
    (ascii ['p', 'i', 'e', 'c', 'e', 's'], .string (List.replicate 20 7))]

/-- The theorem at that torrent, whose file gets the path `t/..`. -/
theorem parseInfoSection_contained_sample :
    ∃ t, parseInfoSection dottedInfo [100, 101] defaultPieceLimit = .ok t ∧
      ∀ e ∈ t.files.files, Contained separator [46] [46, 46] (t.files.filePath e []) := by
  have hok : (parseInfoSection dottedInfo [100, 101] defaultPieceLimit).isOk = true := by
    decide +kernel
  obtain ⟨t, ht⟩ := exists_of_isOk hok
  exact ⟨t, ht, parseInfoSection_contained ht (by decide +kernel)⟩

end Tent
