import Mathlib.Data.List.Count
import Tent.Metainfo.Codepoint

/-!
# Path elements

`sanitize_append_path_element` puts an element of a path in the metainfo behind a path of the file
system.  It goes through the code points of the element: separators and marks that change the
direction of writing are left out, what is not UTF-8 or is a control character becomes an
underscore, and an element that gets too long is cut off, except for what looks like its extension.

Whatever the element is, the path stays or gets one component more, which is no separator, not empty
and neither `.` nor `..` (`sanitizeAppendPathElement_spec`).
-/

set_option autoImplicit false

namespace Tent

open Bytes Utf8

/-! ### The loop over the code points -/

/-- `TORRENT_SEPARATOR`. -/
def separator : UInt8 := 47

/-- `std::strchr`, which finds the zero at the end of the string, too. -/
def strchr (chars : List ℤ) (c : ℤ) : Bool := c = 0 || chars.contains c

/-- `valid_path_character`. -/
def validPathCharacter (c : ℤ) : Bool :=
  if c < 32 then false else if 127 < c then true else !strchr [] c

/-- `bad_cp`: the marks that change the direction of writing. -/
def badCp : List ℤ := [0x202a, 0x202b, 0x202c, 0x202d, 0x202e, 0x200e, 0x200f]

/-- `filter_path_character`. -/
def filterPathCharacter (c : ℤ) : Bool :=
  if badCp.contains c then true else if 127 < c then false else strchr [47, 92] c

/-- The variables of the loop. -/
structure SanitizeState where
  /-- `path`. -/
  path : ByteString
  /-- `added`. -/
  added : ℕ
  /-- `num_dots`, which is a `char`. -/
  numDots : BitVec 8
  /-- `found_extension`. -/
  foundExtension : Bool

/-- The loop that looks for the last dot above a bottom, with the upper end of what is left. -/
def dotLoop (rest : ByteString) (bottom : ℕ) : ℕ → Option ℕ
  | 0 => none
  | j + 1 =>
    if j ≤ bottom then none
    else if rest.getD j 0 = 46 then some j
    else dotLoop rest bottom j

/-- The body of the loop, where `rest` is what follows the position in the element.  Beside the
variables there is by how much the position goes on; none for `break`. -/
def sanitizeStep (rest : ByteString) (s : SanitizeState) : SanitizeState × Option ℕ :=
  let (codePoint, seqLen) := parseUtf8Codepoint rest
  if 0 ≤ codePoint && filterPathCharacter codePoint then (s, some seqLen)
  else if codePoint < 0 || !validPathCharacter codePoint then
    ({ s with path := s.path ++ [95], added := s.added + 1 }, some seqLen)
  else
    let s := { s with
      path := s.path ++ rest.take seqLen
      numDots := if codePoint = 46 then s.numDots + 1 else s.numDots
      added := s.added + seqLen }
    if 240 ≤ s.added && !s.foundExtension then
      -- the positions count from `rest` on, so that the lower of the two bounds is zero
      match dotLoop rest (rest.length - 10) rest.length with
      | none => (s, none)
      | some dot => ({ s with foundExtension := true }, some (dot - 1 + seqLen))
    else (s, some seqLen)

/-- The loop.  The position goes on by a byte at least, so the length of what is left is fuel enough
for it. -/
def sanitizeLoop : ℕ → ByteString → SanitizeState → SanitizeState
  | 0, _, s => s
  | fuel + 1, rest, s =>
    if rest = [] then s
    else
      match sanitizeStep rest s with
      | (s, none) => s
      | (s, some n) => sanitizeLoop fuel (rest.drop n) s

/-- `sanitize_append_path_element`. -/
def sanitizeAppendPathElement (path element : ByteString) : ByteString :=
  if element = [46] then path
  else
    let addedSeparator := if path = [] then 0 else 1
    let path := if path = [] then path else path ++ [separator]
    if element = [] then path ++ [95]
    else
      let s := sanitizeLoop element.length element ⟨path, 0, 0, false⟩
      if (s.added : ℤ) = s.numDots.toInt ∧ s.added ≤ 2 then
        s.path.take (s.path.length - s.added - addedSeparator)
      else if s.path = [] then [95]
      else s.path

/-! ### What may stand in a component -/

/-- The code points that `sanitize_append_path_element` leaves in a path. -/
structure NameChar (cp : ℕ) : Prop where
  /-- It is no surrogate. -/
  scalar : Scalar cp
  /-- It is no control character. -/
  printable : 32 ≤ cp
  /-- It is no slash. -/
  ne_slash : cp ≠ 47
  /-- It is no backslash. -/
  ne_backslash : cp ≠ 92
  /-- It does not change the direction of writing. -/
  not_bad : (cp : ℤ) ∉ badCp

/-- Text of such code points. -/
def NameText (text : ByteString) : Prop :=
  ∃ cps : List ℕ, (∀ cp ∈ cps, NameChar cp) ∧ text = cps.flatMap encode

/-- A component of a path that is not special. -/
structure Component (name : ByteString) : Prop where
  /-- It is text without separators and control characters. -/
  text : NameText name
  /-- It is not empty. -/
  ne_nil : name ≠ []
  /-- It is not the directory itself. -/
  ne_dot : name ≠ [46]
  /-- It is not the directory above. -/
  ne_dotdot : name ≠ [46, 46]

/-- The underscore. -/
lemma nameChar_underscore : NameChar 95 :=
  ⟨by decide, by decide, by decide, by decide, by decide⟩

/-- What is neither left out nor replaced. -/
lemma nameChar_iff {cp : ℕ} (hscalar : Scalar cp) :
    NameChar cp ↔ filterPathCharacter cp = false ∧ validPathCharacter cp = true := by
  have hvalid : validPathCharacter cp = true ↔ 32 ≤ cp := by
    simp only [validPathCharacter, strchr, List.contains_nil, Bool.or_false]
    split_ifs with hlow hhigh
    · exact iff_of_false not_false (by omega)
    · exact iff_of_true rfl (by omega)
    · exact iff_of_true (by rw [Bool.not_eq_true', decide_eq_false_iff_not]; omega) (by omega)
  have hfilter : filterPathCharacter cp = false ↔
      (cp : ℤ) ∉ badCp ∧ (cp ≤ 127 → cp ≠ 0 ∧ cp ≠ 47 ∧ cp ≠ 92) := by
    unfold filterPathCharacter
    split_ifs with hbad hhigh
    · exact iff_of_false (by decide) fun h => h.1 (List.contains_iff_mem.mp hbad)
    · exact iff_of_true rfl ⟨fun h => hbad (List.contains_iff_mem.mpr h), by omega⟩
    · rw [List.contains_iff_mem] at hbad
      simp only [strchr, Bool.or_eq_false_iff, decide_eq_false_iff_not, List.contains_cons,
        List.contains_nil, beq_eq_false_iff_ne]
      constructor
      · rintro ⟨hzero, hslash, hbackslash, -⟩
        exact ⟨hbad, fun _ => ⟨by omega, by omega, by omega⟩⟩
      · rintro ⟨-, h⟩
        obtain ⟨hzero, hslash, hbackslash⟩ := h (by omega)
        exact ⟨by omega, by omega, by omega, trivial⟩
  rw [hvalid, hfilter]
  constructor
  · intro h
    exact ⟨⟨h.not_bad, fun _ => ⟨by have := h.printable; omega, h.ne_slash, h.ne_backslash⟩⟩,
      h.printable⟩
  · rintro ⟨⟨hbad, hlow⟩, hprintable⟩
    exact ⟨hscalar, hprintable, fun h => (hlow (by omega)).2.1 h,
      fun h => (hlow (by omega)).2.2 h, hbad⟩

/-- No text. -/
lemma NameText.nil : NameText [] := ⟨[], fun _ h => absurd h List.not_mem_nil, rfl⟩

/-- One code point. -/
lemma NameText.encode {cp : ℕ} (h : NameChar cp) : NameText (Utf8.encode cp) :=
  ⟨[cp], fun _ hcp => List.eq_of_mem_singleton hcp ▸ h, by rw [List.flatMap_singleton]⟩

/-- One text behind another. -/
lemma NameText.append {text text' : ByteString} (h : NameText text) (h' : NameText text') :
    NameText (text ++ text') := by
  obtain ⟨cps, hcps, rfl⟩ := h
  obtain ⟨cps', hcps', rfl⟩ := h'
  refine ⟨cps ++ cps', fun cp hcp => ?_, List.flatMap_append.symm⟩
  rcases List.mem_append.mp hcp with hcp | hcp
  · exact hcps cp hcp
  · exact hcps' cp hcp

/-- There is no byte of a control character and none of a separator in it. -/
lemma NameText.byte {text : ByteString} (h : NameText text) {b : UInt8} (hb : b ∈ text) :
    32 ≤ b.toNat ∧ b ≠ 47 ∧ b ≠ 92 := by
  obtain ⟨cps, hcps, rfl⟩ := h
  obtain ⟨cp, hcp, hb⟩ := List.mem_flatMap.mp hb
  have hchar := hcps cp hcp
  have hlow : ∀ n, n < 0x80 → b.toNat = n → cp = n := by
    intro n hn hbn
    rw [← hbn]
    exact (eq_of_mem_encode hchar.scalar hb (by omega)).symm
  refine ⟨?_, ?_, ?_⟩
  · by_contra hcontrol
    have hcp := hlow b.toNat (by omega) rfl
    have := hchar.printable
    omega
  · rintro rfl
    exact hchar.ne_slash (hlow 47 (by decide) rfl)
  · rintro rfl
    exact hchar.ne_backslash (hlow 92 (by decide) rfl)

/-! ### Steps -/

/-- The variables after text was added. -/
def SanitizeState.add (s : SanitizeState) (text : ByteString) : SanitizeState :=
  { s with
    path := s.path ++ text
    added := s.added + text.length
    numDots := s.numDots + BitVec.ofNat 8 (text.count 46) }

/-- Adding an underscore. -/
lemma SanitizeState.add_underscore (s : SanitizeState) :
    s.add [95] = { s with path := s.path ++ [95], added := s.added + 1 } := by
  rw [SanitizeState.add, List.length_singleton, show List.count (46 : UInt8) [95] = 0 from rfl]
  congr 1
  exact BitVec.add_zero _

/-- Adding no text. -/
lemma SanitizeState.add_nil (s : SanitizeState) : s.add [] = s := by
  rw [SanitizeState.add, List.append_nil]
  congr 1
  exact BitVec.add_zero _

/-- Adding one text and then another. -/
lemma SanitizeState.add_append (s : SanitizeState) (text text' : ByteString) (found found' : Bool) :
    { SanitizeState.add { s.add text with foundExtension := found } text' with
      foundExtension := found' } = { s.add (text ++ text') with foundExtension := found' } := by
  simp only [SanitizeState.add, List.append_assoc, List.length_append, Nat.add_assoc,
    List.count_append, BitVec.ofNat_add, BitVec.add_assoc]

/-- What a step of the loop can do. -/
inductive SanitizeStep (rest : ByteString) (s : SanitizeState) :
    SanitizeState × Option ℕ → Prop
  | skip {c : ℤ} {n : ℕ} (hparse : parseUtf8Codepoint rest = (c, n)) (hnonneg : 0 ≤ c)
      (hfilter : filterPathCharacter c = true) : SanitizeStep rest s (s, some n)
  | replace {c : ℤ} {n : ℕ} (hparse : parseUtf8Codepoint rest = (c, n))
      (hinvalid : c < 0 ∨ validPathCharacter c = false) : SanitizeStep rest s (s.add [95], some n)
  | keep {cp : ℕ} (hparse : parseUtf8Codepoint rest = ((cp : ℤ), (encode cp).length))
      (hchar : NameChar cp) (hfront : encode cp <+: rest)
      (hshort : s.added + (encode cp).length < 240 ∨ s.foundExtension = true) :
      SanitizeStep rest s (s.add (encode cp), some (encode cp).length)
  | cut {cp : ℕ} (hparse : parseUtf8Codepoint rest = ((cp : ℤ), (encode cp).length))
      (hchar : NameChar cp) (hfront : encode cp <+: rest)
      (hlong : 240 ≤ s.added + (encode cp).length) : SanitizeStep rest s (s.add (encode cp), none)
  | jump {cp dot : ℕ} (hparse : parseUtf8Codepoint rest = ((cp : ℤ), (encode cp).length))
      (hchar : NameChar cp) (hfront : encode cp <+: rest)
      (hlong : 240 ≤ s.added + (encode cp).length) (hlow : rest.length < dot + 10)
      (hpos : 0 < dot) (hdot : dot < rest.length) :
      SanitizeStep rest s
        ({ s.add (encode cp) with foundExtension := true }, some (dot - 1 + (encode cp).length))

/-- The dots in a code point. -/
lemma count_encode {cp : ℕ} (hcp : Scalar cp) :
    (encode cp).count 46 = if cp = 46 then 1 else 0 := by
  split_ifs with hdot
  · rw [hdot]
    rfl
  · exact List.count_eq_zero.mpr fun hmem =>
      hdot (eq_of_mem_encode hcp hmem (by decide)).symm

/-- The dot that is found is above the bottom and below the top. -/
lemma dotLoop_bounds {rest : ByteString} {bottom top dot : ℕ}
    (h : dotLoop rest bottom top = some dot) : bottom < dot ∧ dot < top := by
  induction top with
  | zero => cases h
  | succ j ih =>
    rw [dotLoop] at h
    split_ifs at h with hbottom
    · obtain rfl := Option.some.inj h
      omega
    · have := ih h
      omega

/-- The underscore is a code point of its own. -/
lemma parseUtf8Codepoint_underscore {rest : ByteString} (h : rest.head? = some 95) :
    parseUtf8Codepoint rest = (95, 1) := by
  obtain ⟨tail, rfl⟩ := List.head?_eq_some_iff.mp h
  exact parseUtf8Codepoint_encode (show Scalar 95 by decide) tail

/-- A step of the loop is one of these. -/
lemma sanitizeStep_cases {rest : ByteString} (hrest : rest ≠ []) (s : SanitizeState) :
    SanitizeStep rest s (sanitizeStep rest s) := by
  obtain ⟨-, hle⟩ := parseUtf8Codepoint_length hrest
  unfold sanitizeStep
  cases hparse : parseUtf8Codepoint rest with
  | mk codePoint seqLen =>
  rw [hparse] at hle
  dsimp only at hle ⊢
  by_cases hfilter : (decide (0 ≤ codePoint) && filterPathCharacter codePoint) = true
  · rw [if_pos hfilter]
    rw [Bool.and_eq_true, decide_eq_true_eq] at hfilter
    exact SanitizeStep.skip hparse hfilter.1 hfilter.2
  rw [if_neg hfilter]
  by_cases hinvalid : (decide (codePoint < 0) || !validPathCharacter codePoint) = true
  · rw [if_pos hinvalid, ← s.add_underscore]
    rw [Bool.or_eq_true, decide_eq_true_eq, Bool.not_eq_true'] at hinvalid
    exact SanitizeStep.replace hparse hinvalid
  rw [if_neg hinvalid]
  simp only [Bool.or_eq_true, decide_eq_true_eq, Bool.not_eq_true', not_or, not_lt,
    Bool.not_eq_false] at hinvalid
  obtain ⟨hnonneg, hvalid⟩ := hinvalid
  obtain ⟨cp, rfl⟩ := Int.eq_ofNat_of_zero_le hnonneg
  obtain ⟨hscalar, hencode, -⟩ := exists_encode_of_parse hparse
  have hchar : NameChar cp := by
    refine (nameChar_iff hscalar).mpr ⟨?_, hvalid⟩
    simpa using hfilter
  have hlength : (encode cp).length = seqLen := by
    rw [hencode, List.length_take, Nat.min_eq_left hle]
  have hfront : encode cp <+: rest := hencode ▸ List.take_prefix _ _
  have hdots : (if (cp : ℤ) = 46 then s.numDots + 1 else s.numDots) =
      s.numDots + BitVec.ofNat 8 ((encode cp).count 46) := by
    rw [count_encode hscalar]
    by_cases hdot : cp = 46
    · rw [if_pos (by omega), if_pos hdot]
      rfl
    · rw [if_neg (by omega), if_neg hdot]
      exact (BitVec.add_zero _).symm
  rw [← hlength] at hparse
  rw [← hencode, ← hlength, hdots]
  change SanitizeStep rest s (if _ then _ else (s.add (encode cp), _))
  by_cases hlong : (decide (240 ≤ s.added + (encode cp).length) && !s.foundExtension) = true
  · rw [if_pos hlong]
    rw [Bool.and_eq_true, decide_eq_true_eq] at hlong
    cases hloop : dotLoop rest (rest.length - 10) rest.length with
    | none => exact SanitizeStep.cut hparse hchar hfront hlong.1
    | some dot =>
      have hbounds := dotLoop_bounds hloop
      exact SanitizeStep.jump hparse hchar hfront hlong.1 (by omega) (by omega) hbounds.2
  · rw [if_neg hlong]
    refine SanitizeStep.keep hparse hchar hfront ?_
    simp only [Bool.and_eq_true, decide_eq_true_eq, Bool.not_eq_true', not_and_or, not_le,
      Bool.not_eq_false] at hlong
    exact hlong

/-! ### Runs -/

/-- The loop adds text, which is no longer than what it was run on. -/
lemma sanitizeLoop_eq_add (fuel : ℕ) (rest : ByteString) (s : SanitizeState) :
    ∃ text found, NameText text ∧ text.length ≤ rest.length ∧
      sanitizeLoop fuel rest s = { s.add text with foundExtension := found } := by
  induction fuel generalizing rest s with
  | zero => exact ⟨[], s.foundExtension, NameText.nil, Nat.zero_le _, (by rw [s.add_nil]; rfl)⟩
  | succ fuel ih =>
    rw [sanitizeLoop]
    by_cases hrest : rest = []
    · rw [if_pos hrest]
      exact ⟨[], s.foundExtension, NameText.nil, Nat.zero_le _, by rw [s.add_nil]⟩
    rw [if_neg hrest]
    have hcases := sanitizeStep_cases hrest s
    have hpos := parseUtf8Codepoint_length hrest
    generalize sanitizeStep rest s = next at hcases
    cases hcases with
    | @skip c n hparse hnonneg hfilter =>
      obtain ⟨text, found, htext, hlength, hrun⟩ := ih (rest.drop n) s
      rw [List.length_drop] at hlength
      exact ⟨text, found, htext, by omega, hrun⟩
    | @replace c n hparse hinvalid =>
      obtain ⟨text, found, htext, hlength, hrun⟩ := ih (rest.drop n) (s.add [95])
      rw [List.length_drop] at hlength
      rw [hparse] at hpos
      refine ⟨[95] ++ text, found, (NameText.encode nameChar_underscore).append htext, ?_, ?_⟩
      · rw [List.length_append, List.length_singleton]
        omega
      · exact hrun.trans (s.add_append [95] text s.foundExtension found)
    | keep hparse hchar hfront hshort =>
      obtain ⟨text, found, htext, hlength, hrun⟩ := ih (rest.drop _) (s.add (encode _))
      have hle := hfront.length_le
      rw [List.length_drop] at hlength
      refine ⟨_, found, (NameText.encode hchar).append htext, ?_,
        hrun.trans (s.add_append _ text s.foundExtension found)⟩
      rw [List.length_append]
      omega
    | cut hparse hchar hfront hlong =>
      exact ⟨_, s.foundExtension, NameText.encode hchar, hfront.length_le, rfl⟩
    | jump hparse hchar hfront hlong hlow hpos hdot =>
      obtain ⟨text, found, htext, hlength, hrun⟩ :=
        ih (rest.drop _) { s.add (encode _) with foundExtension := true }
      have hle := hfront.length_le
      rw [List.length_drop] at hlength
      refine ⟨_, found, (NameText.encode hchar).append htext, ?_,
        hrun.trans (s.add_append _ text true found)⟩
      rw [List.length_append]
      omega

/-- Where nothing is left out and nothing is replaced, the text is short. -/
lemma length_of_sanitizeLoop_verbatim {fuel : ℕ} {rest : ByteString} {s : SanitizeState}
    (hfuel : rest.length ≤ fuel) (hadded : s.added < 240) (hfound : s.foundExtension = false)
    (h : (sanitizeLoop fuel rest s).path = s.path ++ rest) : s.added + rest.length < 250 := by
  induction fuel generalizing rest s with
  | zero => omega
  | succ fuel ih =>
    rw [sanitizeLoop] at h
    by_cases hrest : rest = []
    · rw [hrest, List.length_nil]
      omega
    rw [if_neg hrest] at h
    have hcases := sanitizeStep_cases hrest s
    generalize sanitizeStep rest s = next at hcases h
    cases hcases with
    | @skip c n hparse hnonneg hfilter =>
      dsimp only at h
      have hpos := parseUtf8Codepoint_length hrest
      rw [hparse] at hpos
      obtain ⟨text, found, -, hlength, hrun⟩ := sanitizeLoop_eq_add fuel (rest.drop n) s
      have heq : s.path ++ text = s.path ++ rest := by
        rw [← h]
        exact (congrArg SanitizeState.path hrun).symm
      rw [List.length_drop, List.append_cancel_left heq] at hlength
      have := List.length_pos_iff.mpr hrest
      omega
    | @replace c n hparse hinvalid =>
      dsimp only at h
      obtain ⟨text, found, -, -, hrun⟩ := sanitizeLoop_eq_add fuel (rest.drop n) (s.add [95])
      have heq : s.path ++ ([95] ++ text) = s.path ++ rest := by
        rw [← h, ← List.append_assoc]
        exact (congrArg SanitizeState.path hrun).symm
      have hunderscore : rest.head? = some 95 := by
        rw [← List.append_cancel_left heq]
        rfl
      rw [parseUtf8Codepoint_underscore hunderscore] at hparse
      obtain ⟨rfl, -⟩ := Prod.mk.inj hparse
      exact absurd hinvalid (by decide)
    | @keep cp hparse hchar hfront hshort =>
      dsimp only at h
      obtain ⟨tail, rfl⟩ := hfront
      have hpos := (length_encode cp).1
      rw [List.length_append] at hfuel ⊢
      rw [List.drop_left] at h
      have := @ih tail (s.add (encode cp)) (by omega)
        (hshort.resolve_right (by rw [hfound]; decide)) hfound
        (h.trans (List.append_assoc _ _ _).symm)
      have hadd : (s.add (encode cp)).added = s.added + (encode cp).length := rfl
      omega
    | @cut cp hparse hchar hfront hlong =>
      have heq : s.path ++ encode cp = s.path ++ rest := h
      have := (length_encode cp).2
      rw [← List.append_cancel_left heq]
      omega
    | @jump cp dot hparse hchar hfront hlong hlow hpos hdot =>
      dsimp only at h
      obtain ⟨text, found, -, hlength, hrun⟩ := sanitizeLoop_eq_add fuel
        (rest.drop (dot - 1 + (encode cp).length)) { s.add (encode cp) with foundExtension := true }
      have heq : s.path ++ (encode cp ++ text) = s.path ++ rest := by
        rw [← h, ← List.append_assoc]
        exact (congrArg SanitizeState.path hrun).symm
      have htotal := congrArg List.length (List.append_cancel_left heq)
      rw [List.length_append] at htotal
      rw [List.length_drop] at hlength
      have := length_encode cp
      omega

/-! ### The element as a whole -/

/-- A path with one component more. -/
def appendComponent (path name : ByteString) : ByteString :=
  if path = [] then name else path ++ separator :: name

/-- Nothing, or one or two dots. -/
def Special (text : ByteString) : Prop := text = [] ∨ text = [46] ∨ text = [46, 46]

instance (text : ByteString) : Decidable (Special text) := inferInstanceAs (Decidable (_ ∨ _))

/-- Text that is not special is a component. -/
lemma NameText.component {text : ByteString} (h : NameText text) (hspecial : ¬ Special text) :
    Component text :=
  ⟨h, fun hnil => hspecial (Or.inl hnil), fun hdot => hspecial (Or.inr (Or.inl hdot)),
    fun hdots => hspecial (Or.inr (Or.inr hdots))⟩

/-- The test after the loop, for which `num_dots` may have overflowed. -/
lemma special_iff (text : ByteString) :
    ((text.length : ℤ) = (BitVec.ofNat 8 (text.count 46)).toInt ∧ text.length ≤ 2) ↔
      Special text := by
  constructor
  · rintro ⟨hdots, hlength⟩
    have hcount : text.count 46 ≤ 2 := Nat.le_trans List.count_le_length hlength
    have hsmall : ∀ n : ℕ, n ≤ 2 → (BitVec.ofNat 8 n).toInt = n := by decide
    rw [hsmall _ hcount, Nat.cast_inj, eq_comm, List.count_eq_length] at hdots
    match text, hlength with
    | [], _ => exact Or.inl rfl
    | [a], _ => exact Or.inr (Or.inl (by rw [hdots a (by simp)]))
    | [a, b], _ => exact Or.inr (Or.inr (by rw [← hdots a (by simp), ← hdots b (by simp)]))
  · rintro (rfl | rfl | rfl) <;> decide

/-- What the loop makes of the element. -/
def sanitizedText (path element : ByteString) : ByteString :=
  (sanitizeLoop element.length element
    ⟨if path = [] then path else path ++ [separator], 0, 0, false⟩).path.drop
      (if path = [] then path else path ++ [separator]).length

/-- What the loop makes of an element becomes a component, unless it is special. -/
lemma sanitizeAppendPathElement_eq (path : ByteString) {element : ByteString} (hnil : element ≠ [])
    (hdot : element ≠ [46]) :
    NameText (sanitizedText path element) ∧ (sanitizedText path element).length ≤ element.length ∧
      sanitizeAppendPathElement path element =
        if Special (sanitizedText path element) then path
        else appendComponent path (sanitizedText path element) := by
  obtain ⟨text, found, htext, hlength, hrun⟩ := sanitizeLoop_eq_add element.length element
    ⟨if path = [] then path else path ++ [separator], 0, 0, false⟩
  have hsanitized : sanitizedText path element = text := by
    rw [sanitizedText, hrun]
    exact List.drop_left
  rw [hsanitized]
  refine ⟨htext, hlength, ?_⟩
  rw [sanitizeAppendPathElement, if_neg hdot]
  dsimp only
  rw [if_neg hnil]
  generalize sanitizeLoop element.length element _ = s at hrun
  have hpath : s.path = (if path = [] then path else path ++ [separator]) ++ text := by
    rw [hrun]
    rfl
  have hadded : s.added = text.length := by
    rw [hrun]
    exact Nat.zero_add _
  have htest : ((s.added : ℤ) = s.numDots.toInt ∧ s.added ≤ 2) ↔ Special text := by
    have hdots : s.numDots = BitVec.ofNat 8 (text.count 46) := by
      rw [hrun]
      exact BitVec.zero_add _
    rw [hadded, hdots]
    exact special_iff text
  by_cases hspecial : Special text
  · rw [if_pos (htest.mpr hspecial), if_pos hspecial, hpath, hadded, List.length_append,
      Nat.add_sub_cancel]
    by_cases hnil : path = []
    · rw [hnil]
      rfl
    · rw [if_neg hnil, if_neg hnil, List.length_append, List.length_singleton, Nat.add_sub_cancel,
        List.append_assoc, List.take_left]
  · rw [if_neg (fun h => hspecial (htest.mp h)), if_neg hspecial, if_neg, hpath, appendComponent]
    · by_cases hnil : path = []
      · rw [if_pos hnil, if_pos hnil, hnil, List.nil_append]
      · rw [if_neg hnil, if_neg hnil, List.append_assoc, List.singleton_append]
    · intro h
      rw [hpath] at h
      exact hspecial (Or.inl (List.append_eq_nil_iff.mp h).2)

/-- An empty element becomes an underscore. -/
lemma sanitizeAppendPathElement_nil (path : ByteString) :
    sanitizeAppendPathElement path [] = appendComponent path [95] := by
  rw [sanitizeAppendPathElement, if_neg (by simp)]
  dsimp only
  rw [if_pos rfl, appendComponent]
  by_cases hpath : path = []
  · rw [if_pos hpath, if_pos hpath, hpath, List.nil_append]
  · rw [if_neg hpath, if_neg hpath, List.append_assoc, List.singleton_append]

/-- Whatever the element is, the path stays or gets one component more. -/
theorem sanitizeAppendPathElement_spec (path element : ByteString) :
    sanitizeAppendPathElement path element = path ∨
      ∃ name, Component name ∧ name.length ≤ max 1 element.length ∧
        sanitizeAppendPathElement path element = appendComponent path name := by
  by_cases hdot : element = [46]
  · left
    rw [sanitizeAppendPathElement, if_pos hdot]
  by_cases hnil : element = []
  · right
    refine ⟨[95], (NameText.encode nameChar_underscore).component (by decide), ?_, ?_⟩
    · exact Nat.le_max_left _ _
    · rw [hnil]
      exact sanitizeAppendPathElement_nil path
  · obtain ⟨htext, hlength, heq⟩ := sanitizeAppendPathElement_eq path hnil hdot
    rw [heq]
    by_cases hspecial : Special (sanitizedText path element)
    · rw [if_pos hspecial]
      exact Or.inl rfl
    · rw [if_neg hspecial]
      exact Or.inr ⟨_, htext.component hspecial, Nat.le_trans hlength (Nat.le_max_right _ _), rfl⟩

/-! ### Elements that are UTF-8 -/

/-- A code point that can be printed is left out or kept. -/
lemma nameChar_of_printable {cp : ℕ} (hscalar : Scalar cp) (hprintable : 32 ≤ cp) :
    validPathCharacter cp = true ∧ (NameChar cp ↔ filterPathCharacter cp = false) := by
  have hvalid : validPathCharacter cp = true := by
    have hzero : ¬ (cp : ℤ) = 0 := by omega
    simp only [validPathCharacter, strchr, List.contains_nil, Bool.or_false]
    rw [if_neg (by omega)]
    split_ifs
    · rfl
    · rw [Bool.not_eq_true', decide_eq_false_iff_not]
      exact hzero
  exact ⟨hvalid, by rw [nameChar_iff hscalar, hvalid]; simp⟩

/-- A run over code points that can be printed. -/
lemma sanitizeLoop_flatMap {cps : List ℕ} (hcps : ∀ cp ∈ cps, Scalar cp ∧ 32 ≤ cp) {fuel : ℕ}
    {s : SanitizeState} (hfuel : (cps.flatMap encode).length ≤ fuel) (hadded : s.added < 240)
    (hfound : s.foundExtension = false) :
    (sanitizeLoop fuel (cps.flatMap encode) s).added < 250 ∧
      (s.added + (cps.flatMap encode).length < 240 →
        sanitizeLoop fuel (cps.flatMap encode) s =
          s.add ((cps.filter fun cp : ℕ => !filterPathCharacter cp).flatMap encode)) := by
  induction cps generalizing fuel s with
  | nil =>
    have hrun : sanitizeLoop fuel [] s = s := by
      cases fuel with
      | zero => rfl
      | succ fuel => rw [sanitizeLoop, if_pos rfl]
    rw [List.flatMap_nil, hrun]
    exact ⟨by omega, fun _ => s.add_nil.symm⟩
  | cons cp cps ih =>
    obtain ⟨⟨hscalar, hprintable⟩, hcps⟩ := List.forall_mem_cons.mp hcps
    obtain ⟨hvalid, hname⟩ := nameChar_of_printable hscalar hprintable
    obtain ⟨hpos, hfour⟩ := length_encode cp
    have hparsed := parseUtf8Codepoint_encode hscalar (cps.flatMap encode)
    rw [List.flatMap_cons] at hfuel ⊢
    rw [List.length_append] at hfuel
    have hne : encode cp ++ cps.flatMap encode ≠ [] := by
      intro h
      rw [(List.append_eq_nil_iff.mp h).1, List.length_nil] at hpos
      omega
    obtain ⟨fuel, rfl⟩ : ∃ n, fuel = n + 1 := ⟨fuel - 1, by omega⟩
    rw [sanitizeLoop, if_neg hne]
    have hcases := sanitizeStep_cases hne s
    generalize sanitizeStep (encode cp ++ cps.flatMap encode) s = next at hcases
    cases hcases with
    | @skip c n hparse hnonneg hfilter =>
      obtain ⟨rfl, rfl⟩ := Prod.mk.inj (hparsed.symm.trans hparse)
      dsimp only
      rw [List.drop_left, List.filter_cons_of_neg (by simp [hfilter])]
      obtain ⟨hbound, hexact⟩ := @ih hcps fuel s (by omega) hadded hfound
      exact ⟨hbound, fun hshort => hexact (by rw [List.length_append] at hshort; omega)⟩
    | @replace c n hparse hinvalid =>
      obtain ⟨rfl, -⟩ := Prod.mk.inj (hparsed.symm.trans hparse)
      rw [hvalid] at hinvalid
      exact absurd hinvalid (by simp)
    | @keep cp' hparse hchar hfront hshort =>
      obtain ⟨heq, -⟩ := Prod.mk.inj (hparsed.symm.trans hparse)
      obtain rfl := Nat.cast_inj.mp heq
      have hadd : (s.add (encode cp)).added = s.added + (encode cp).length := rfl
      dsimp only
      rw [List.drop_left, List.filter_cons_of_pos (by simp [hname.mp hchar]), List.flatMap_cons]
      obtain ⟨hbound, hexact⟩ := @ih hcps fuel (s.add (encode cp)) (by omega)
        (hshort.resolve_right (by rw [hfound]; decide)) hfound
      refine ⟨hbound, fun hshort => ?_⟩
      rw [hexact (by rw [List.length_append] at hshort; omega)]
      exact s.add_append _ _ s.foundExtension s.foundExtension
    | @cut cp' hparse hchar hfront hlong =>
      obtain ⟨heq, -⟩ := Prod.mk.inj (hparsed.symm.trans hparse)
      obtain rfl := Nat.cast_inj.mp heq
      refine ⟨show s.added + (encode cp).length < 250 by omega, fun hshort => ?_⟩
      rw [List.length_append] at hshort
      omega
    | @jump cp' dot hparse hchar hfront hlong hlow hpos hdot =>
      obtain ⟨heq, -⟩ := Prod.mk.inj (hparsed.symm.trans hparse)
      obtain rfl := Nat.cast_inj.mp heq
      obtain ⟨text, found, -, hlength, hrun⟩ := sanitizeLoop_eq_add fuel
        ((encode cp ++ cps.flatMap encode).drop (dot - 1 + (encode cp).length))
        { s.add (encode cp) with foundExtension := true }
      refine ⟨?_, fun hshort => ?_⟩
      · rw [List.length_drop] at hlength
        exact Nat.lt_of_le_of_lt (Nat.le_of_eq (congrArg SanitizeState.added hrun))
          (show s.added + (encode cp).length + text.length < 250 by omega)
      · rw [List.length_append] at hshort
        omega

/-- An element whose code points can be printed becomes a component of less than 250 bytes, unless
what is left of it is special.  If it has less than 240 bytes, just the separators and the marks
that change the direction of writing are missing.  An empty element becomes an underscore. -/
theorem sanitizeAppendPathElement_of_text (path : ByteString) {cps : List ℕ}
    (hcps : ∀ cp ∈ cps, Scalar cp ∧ 32 ≤ cp) :
    ∃ text, NameText text ∧ text.length < 250 ∧
      sanitizeAppendPathElement path (cps.flatMap encode) =
        (if Special text then path else appendComponent path text) ∧
      (cps ≠ [] → (cps.flatMap encode).length < 240 →
        text = (cps.filter fun cp : ℕ => !filterPathCharacter cp).flatMap encode) ∧
      (cps = [] → text = [95]) := by
  by_cases hne : cps = []
  · subst hne
    exact ⟨[95], NameText.encode nameChar_underscore, by decide, sanitizeAppendPathElement_nil path,
      fun h => absurd rfl h, fun _ => rfl⟩
  have hnil : cps.flatMap encode ≠ [] := by
    obtain ⟨cp, hcp⟩ := List.exists_mem_of_ne_nil cps hne
    have := (length_encode cp).1
    intro h
    rw [List.flatMap_eq_nil_iff.mp h cp hcp, List.length_nil] at this
    omega
  obtain ⟨hbound, hexact⟩ := sanitizeLoop_flatMap hcps (Nat.le_refl (cps.flatMap encode).length)
    (s := ⟨if path = [] then path else path ++ [separator], 0, 0, false⟩)
    (show 0 < 240 by decide) rfl
  obtain ⟨text, found, htext, -, hrun⟩ := sanitizeLoop_eq_add (cps.flatMap encode).length
    (cps.flatMap encode) ⟨if path = [] then path else path ++ [separator], 0, 0, false⟩
  have hsanitized : sanitizedText path (cps.flatMap encode) = text := by
    rw [sanitizedText, hrun]
    exact List.drop_left
  refine ⟨text, htext, ?_, ?_, fun _ hshort => ?_, fun h => absurd h hne⟩
  · rw [hrun] at hbound
    exact Nat.lt_of_le_of_lt (Nat.le_of_eq (Nat.zero_add _).symm) hbound
  · by_cases hdot : cps.flatMap encode = [46]
    · rw [hdot] at hsanitized ⊢
      have hone : sanitizedText path [46] = [46] := by
        rw [sanitizedText]
        exact List.drop_left
      rw [sanitizeAppendPathElement, if_pos rfl, ← hsanitized, hone]
      exact (if_pos (by decide)).symm
    · rw [← hsanitized]
      exact (sanitizeAppendPathElement_eq path hnil hdot).2.2
  · have hpath := congrArg SanitizeState.path
      (hrun.symm.trans (hexact ((Nat.zero_add _).trans_lt hshort)))
    exact List.append_cancel_left hpath

/-- A name with an extension behind a directory, without the slash in it. -/
theorem sanitizeAppendPathElement_of_text_sample :
    ∃ text, NameText text ∧ text.length < 250 ∧
      sanitizeAppendPathElement [97] ([98, 47, 0x20AC, 46, 99].flatMap encode) =
        (if Special text then [97] else appendComponent [97] text) ∧
      ([98, 47, 0x20AC, 46, 99] ≠ [] → ([98, 47, 0x20AC, 46, 99].flatMap encode).length < 240 →
        text = ([98, 47, 0x20AC, 46, 99].filter fun cp : ℕ => !filterPathCharacter cp).flatMap
          encode) ∧
      ([98, 47, 0x20AC, 46, 99] = [] → text = [95]) :=
  sanitizeAppendPathElement_of_text [97] (by decide)

/-- A run over control characters. -/
lemma sanitizeLoop_replicate {fuel n : ℕ} (hfuel : n ≤ fuel) (s : SanitizeState) :
    sanitizeLoop fuel (List.replicate n 1) s = s.add (List.replicate n 95) := by
  induction fuel generalizing n s with
  | zero =>
    obtain rfl := Nat.le_zero.mp hfuel
    exact s.add_nil.symm
  | succ fuel ih =>
    cases n with
    | zero => exact s.add_nil.symm
    | succ n =>
      have hparse : parseUtf8Codepoint (List.replicate (n + 1) 1) = (1, 1) :=
        parseUtf8Codepoint_encode (show Scalar 1 by decide) (List.replicate n 1)
      have hstep : sanitizeStep (List.replicate (n + 1) 1) s = (s.add [95], some 1) := by
        rw [sanitizeStep, hparse, s.add_underscore]
        rfl
      rw [sanitizeLoop, if_neg (by simp), hstep]
      dsimp only
      rw [List.replicate_succ, List.drop_one, List.tail_cons, ih (Nat.le_of_succ_le_succ hfuel)]
      exact s.add_append [95] _ s.foundExtension s.foundExtension

/-- The length of a component is not bounded where characters are replaced: control characters
become as many underscores. -/
lemma sanitizeAppendPathElement_replicate {n : ℕ} (hn : 0 < n) :
    sanitizeAppendPathElement [] (List.replicate n 1) = List.replicate n 95 := by
  have hne : List.replicate n (1 : UInt8) ≠ [] := by
    rw [Ne, List.replicate_eq_nil_iff]
    omega
  have hhead : ∀ b ∈ List.replicate n (1 : UInt8), b = 1 := fun b => List.eq_of_mem_replicate
  have hdot : List.replicate n (1 : UInt8) ≠ [46] := by
    intro h
    exact absurd (hhead 46 (by rw [h]; exact List.mem_singleton_self _)) (by decide)
  have htext : sanitizedText [] (List.replicate n 1) = List.replicate n 95 := by
    rw [sanitizedText, List.length_replicate, sanitizeLoop_replicate (Nat.le_refl n)]
    rfl
  have hspecial : ¬ Special (List.replicate n 95) := by
    have hnot : (46 : UInt8) ∉ List.replicate n 95 := fun h =>
      absurd (List.eq_of_mem_replicate h) (by decide)
    rintro (h | h | h)
    · rw [List.replicate_eq_nil_iff] at h
      omega
    all_goals exact hnot (by rw [h]; decide)
  rw [(sanitizeAppendPathElement_eq [] hne hdot).2.2, htext, if_neg hspecial]
  rfl

end Tent
