import Mathlib.Data.List.Infix

/-!
# Paths as text

A path is cut at its separators, and its names are followed one after the other from a directory:
a name goes one level down, the name of the directory above one level up, and an empty name or that
of the directory itself goes nowhere.  A path is contained if it is not absolute and never gets
above the directory where it starts.

A path of ordinary names is contained, and it stays so if its last name is replaced by any end of
the whole path: of the names in there only the first one need not be ordinary, and by then the path
is below the directory (`contained_of_suffix`).
-/

set_option autoImplicit false

namespace Lexical

variable {α : Type*} [DecidableEq α] (sep : α) (here up : List α)

/-- A name that leads one level down. -/
structure Ordinary (name : List α) : Prop where
  /-- There is no separator in it. -/
  not_mem : sep ∉ name
  /-- It is not empty. -/
  ne_nil : name ≠ []
  /-- It is not the directory itself. -/
  ne_here : name ≠ here
  /-- It is not the directory above. -/
  ne_up : name ≠ up

/-- The depth after one name; none above the directory where the path starts. -/
def enter (depth : ℕ) (name : List α) : Option ℕ :=
  if name = [] ∨ name = here then some depth
  else if name = up then (if depth = 0 then none else some (depth - 1))
  else some (depth + 1)

/-- The depth after some names. -/
def follow (depth : ℕ) (names : List (List α)) : Option ℕ := names.foldlM (enter here up) depth

/-- A path that is not absolute and never gets above the directory where it starts. -/
structure Contained (path : List α) : Prop where
  /-- It is not absolute. -/
  relative : path.head? ≠ some sep
  /-- It stays below. -/
  below : (follow here up 0 (path.splitOn sep)).isSome = true

variable {sep here up}

/-- The depth after one name and then others. -/
lemma follow_cons (depth : ℕ) (name : List α) (names : List (List α)) :
    follow here up depth (name :: names) =
      (enter here up depth name).bind fun depth => follow here up depth names := rfl

/-- The depth after some names and then others. -/
lemma follow_append (depth : ℕ) (names names' : List (List α)) :
    follow here up depth (names ++ names') =
      (follow here up depth names).bind fun depth => follow here up depth names' := by
  rw [follow, List.foldlM_append]
  rfl

/-- Ordinary names lead down. -/
lemma follow_ordinary {names : List (List α)} (h : ∀ name ∈ names, Ordinary sep here up name)
    (depth : ℕ) : follow here up depth names = some (depth + names.length) := by
  induction names generalizing depth with
  | nil => rfl
  | cons name names ih =>
    obtain ⟨hname, hnames⟩ := List.forall_mem_cons.mp h
    have henter : enter here up depth name = some (depth + 1) := by
      rw [enter, if_neg (not_or.mpr ⟨hname.ne_nil, hname.ne_here⟩), if_neg hname.ne_up]
    rw [follow_cons, henter, Option.bind_some, ih hnames, List.length_cons]
    congr 1
    omega

/-- Below the directory any name may follow. -/
lemma isSome_enter {depth : ℕ} (h : 0 < depth) (name : List α) :
    (enter here up depth name).isSome = true := by
  unfold enter
  split_ifs
  · rfl
  · omega
  · rfl
  · rfl

omit [DecidableEq α] in
/-- An ordinary name does not begin with a separator. -/
lemma Ordinary.head {name : List α} (h : Ordinary sep here up name) (rest : List α) :
    (name ++ rest).head? ≠ some sep := by
  obtain ⟨a, tail, rfl⟩ := List.exists_cons_of_ne_nil h.ne_nil
  rw [List.cons_append, List.head?_cons]
  intro heq
  exact h.not_mem (by rw [Option.some.inj heq]; exact List.mem_cons_self)

/-- The names of an end of a path: an end of one of its names, and those behind it. -/
lemma splitOn_of_suffix {names : List (List α)} (hsep : ∀ name ∈ names, sep ∉ name)
    (hne : names ≠ []) {leaf : List α} (hleaf : leaf <:+ [sep].intercalate names) :
    ∃ before name after first, names = before ++ name :: after ∧ first <:+ name ∧
      leaf.splitOn sep = first :: after := by
  induction names with
  | nil => contradiction
  | cons name names ih =>
    obtain ⟨hname, hnames⟩ := List.forall_mem_cons.mp hsep
    by_cases hnil : names = []
    · subst hnil
      rw [List.intercalate_singleton] at hleaf
      exact ⟨[], name, [], leaf, rfl, hleaf,
        List.splitOn_eq_singleton fun h => hname (hleaf.subset h)⟩
    · rw [List.intercalate_cons_of_ne_nil hnil, List.append_assoc, List.singleton_append] at hleaf
      obtain ⟨front, hfront⟩ := hleaf
      have hsplit : ([sep].intercalate names).splitOn sep = names :=
        List.splitOn_intercalate sep hnames hnil
      rcases List.append_eq_append_iff.mp hfront with ⟨first, hfirst, hleaf⟩ | ⟨back, -, hback⟩
      · refine ⟨[], name, names, first, rfl, ⟨front, hfirst.symm⟩, ?_⟩
        rw [hleaf, List.splitOn_append_cons_self_of_not_mem
          (fun h => hname (by rw [hfirst]; exact List.mem_append_right _ h)), hsplit]
      · cases back with
        | nil =>
          refine ⟨[], name, names, [], rfl, List.nil_suffix, ?_⟩
          rw [← hback.trans (List.nil_append _)]
          exact (List.splitOn_append_cons_self_of_not_mem List.not_mem_nil _).trans (by rw [hsplit])
        | cons b back =>
          obtain ⟨-, hrest⟩ := List.cons.inj hback
          obtain ⟨before, name', after, first, rfl, hfirst, hleaf⟩ :=
            ih hnames hnil ⟨back, hrest.symm⟩
          exact ⟨name :: before, name', after, first, rfl, hfirst, hleaf⟩

omit [DecidableEq α] in
/-- A path with one name more. -/
lemma intercalate_concat {names : List (List α)} (hne : names ≠ []) (name : List α) :
    [sep].intercalate (names ++ [name]) = [sep].intercalate names ++ sep :: name := by
  induction names with
  | nil => contradiction
  | cons first names ih =>
    by_cases hnil : names = []
    · rw [hnil, List.singleton_append, List.intercalate_cons_cons, List.intercalate_singleton,
        List.intercalate_singleton, List.append_assoc, List.singleton_append]
    · rw [List.cons_append, List.intercalate_cons_of_ne_nil (by simp), ih hnil,
        List.intercalate_cons_of_ne_nil hnil, List.append_assoc, List.append_assoc,
        List.append_assoc]

/-- Ordinary names make up a path that is contained. -/
lemma contained_intercalate {names : List (List α)} (hne : names ≠ [])
    (h : ∀ name ∈ names, Ordinary sep here up name) :
    Contained sep here up ([sep].intercalate names) := by
  obtain ⟨name, rest, rfl⟩ := List.exists_cons_of_ne_nil hne
  refine ⟨?_, ?_⟩
  · by_cases hrest : rest = []
    · rw [hrest, List.intercalate_singleton, ← List.append_nil name]
      exact (h name List.mem_cons_self).head []
    · rw [List.intercalate_cons_of_ne_nil hrest, List.append_assoc]
      exact (h name List.mem_cons_self).head _
  · rw [List.splitOn_intercalate sep (fun name hname => (h name hname).not_mem) hne,
      follow_ordinary h]
    rfl

/-- It stays so if the last name is replaced by any end of the path. -/
theorem contained_of_suffix {names : List (List α)} {last leaf : List α} (hne : names ≠ [])
    (h : ∀ name ∈ names ++ [last], Ordinary sep here up name)
    (hleaf : leaf <:+ [sep].intercalate (names ++ [last])) :
    Contained sep here up ([sep].intercalate names ++ sep :: leaf) := by
  have hnames : ∀ name ∈ names, Ordinary sep here up name := fun name hname =>
    h name (List.mem_append_left _ hname)
  obtain ⟨before, name, after, first, heq, -, hsplit⟩ := splitOn_of_suffix
    (fun name hname => (h name hname).not_mem) (by simp) hleaf
  have hafter : ∀ name ∈ after, Ordinary sep here up name := fun name hname =>
    h name (by rw [heq]; exact List.mem_append_right _ (List.mem_cons_of_mem _ hname))
  have hpos := List.length_pos_iff.mpr hne
  refine ⟨?_, ?_⟩
  · have hcontained := (contained_intercalate hne hnames).relative
    cases hpath : [sep].intercalate names with
    | nil =>
      have hempty := List.splitOn_intercalate sep
        (fun name hname => (hnames name hname).not_mem) hne
      rw [hpath] at hempty
      refine absurd rfl (hnames [] ?_).ne_nil
      rw [← hempty]
      exact List.mem_singleton_self _
    | cons a tail =>
      rw [hpath] at hcontained
      exact hcontained
  · obtain ⟨depth, hdepth⟩ := Option.isSome_iff_exists.mp
      (@isSome_enter _ _ here up _ hpos first)
    rw [List.splitOn_append_cons_self, hsplit, follow_append,
      List.splitOn_intercalate sep (fun name hname => (hnames name hname).not_mem) hne,
      follow_ordinary hnames, Option.bind_some, Nat.zero_add, follow_cons, hdepth, Option.bind_some,
      follow_ordinary hafter]
    rfl

end Lexical
