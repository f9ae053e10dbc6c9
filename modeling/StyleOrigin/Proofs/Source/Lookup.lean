import StyleOrigin.Source.FileTree

/-! # Paths that are too long to be looked up

A path is looked up part by part, and each part in a directory. A part that is too long for a name stops
the lookup with a fault, but only if the parts in front of it lead to a directory; otherwise the path
leads nowhere, like any other.

* `FileTree.Leads`: the places that parts lead to, through directories.
* `FileTree.MeetsLongName`, `FileTree.IsTooLong`: where a name that is too long is looked for.
* `FileTree.exists_file_eq_error_iff`: a lookup has a fault exactly for these paths.
-/
set_option autoImplicit false

namespace StyleOrigin.FileTree

/-- The parts of a path lead from one place to another, through directories and by names that are not too
long. -/
inductive Leads (tree : FileTree) : Place → List Text → Place → Prop
  | here (place : Place) : Leads tree place [] place
  | step {place next last : Place} {part : Text} {rest : List Text}
      (directory : place.entry? tree = some .directory)
      (short : Text.utf8Length part ≤ longestName) (steps : place.step part = some next)
      (onward : Leads tree next rest last) : Leads tree place (part :: rest) last

/-- On the way along the parts of a path, a name that is too long is looked for in a directory. -/
def MeetsLongName (tree : FileTree) (place : Place) (parts : List Text) : Prop :=
  ∃ front name back last, parts = front ++ name :: back ∧ tree.Leads place front last ∧
    last.entry? tree = some .directory ∧ longestName < Text.utf8Length name

/-- The place that a path starts from. -/
def start (path : Text) : Place :=
  if Path.isAbsolute path then .root else .inside []

/-- A path that could lead somewhere is too long as a whole, or a name on its way is. -/
structure IsTooLong (tree : FileTree) (path : Text) : Prop where
  ne_nil : path ≠ []
  null_notMem : '\x00' ∉ path
  long : longestPath < Text.utf8Length path ∨
    tree.MeetsLongName (start path) (Text.splitOn '/' path)

section Walk
variable {tree : FileTree} {path : Text} {place : Place} {part : Text} {rest : List Text}

theorem meetsLongName_of_long (hdirectory : place.entry? tree = some .directory)
    (hlong : longestName < Text.utf8Length part) : tree.MeetsLongName place (part :: rest) :=
  ⟨[], part, rest, place, rfl, .here place, hdirectory, hlong⟩

/-- A part that is not too long is in the way of nothing. -/
theorem meetsLongName_cons_iff (hshort : ¬ longestName < Text.utf8Length part) :
    tree.MeetsLongName place (part :: rest) ↔
      place.entry? tree = some .directory ∧
        ∃ next, place.step part = some next ∧ tree.MeetsLongName next rest := by
  constructor
  · rintro ⟨front, name, back, last, hparts, hleads, hlast, hlong⟩
    cases hleads with
    | here =>
      obtain ⟨rfl, -⟩ := List.cons.inj hparts
      exact absurd hlong hshort
    | step directory _ steps onward =>
      obtain ⟨rfl, rfl⟩ := List.cons.inj hparts
      exact ⟨directory, _, steps, _, name, back, last, rfl, onward, hlast, hlong⟩
  · rintro ⟨hdirectory, next, hstep, front, name, back, last, rfl, hleads, hlast, hlong⟩
    exact ⟨part :: front, name, back, last, rfl,
      .step hdirectory (Nat.le_of_not_lt hshort) hstep hleads, hlast, hlong⟩

theorem directory_of_meetsLongName (h : tree.MeetsLongName place (part :: rest)) :
    place.entry? tree = some .directory := by
  obtain ⟨front, name, back, last, hparts, hleads, hlast, -⟩ := h
  cases hleads with
  | here => exact hlast
  | step directory => exact directory

theorem not_meetsLongName_nil : ¬ tree.MeetsLongName place [] := by
  rintro ⟨front, name, back, last, hparts, -⟩
  exact absurd hparts (by simp)

theorem exists_walk_eq_error_iff (parts : List Text) :
    (∃ fault, walk tree path place parts = .error fault) ↔ tree.MeetsLongName place parts := by
  induction parts generalizing place with
  | nil => simp [walk, not_meetsLongName_nil]
  | cons part rest ih =>
    by_cases hdirectory : place.entry? tree = some .directory
    · by_cases hlong : longestName < Text.utf8Length part
      · simp [walk, hdirectory, hlong, meetsLongName_of_long hdirectory hlong]
      · rw [meetsLongName_cons_iff hlong]
        cases hstep : place.step part with
        | none => simp [walk, hdirectory, hlong, hstep]
        | some next => simp [walk, hdirectory, hlong, hstep, ih]
    · have hnone : walk tree path place (part :: rest) = .ok none := by
        rw [walk]
        split
        · exact absurd ‹_› hdirectory
        · rfl
      rw [hnone]
      exact ⟨fun h => absurd h (by simp), fun h => absurd (directory_of_meetsLongName h) hdirectory⟩

end Walk

theorem exists_find_eq_error_iff {tree : FileTree} {path : Text} :
    (∃ fault, tree.find path = .error fault) ↔ tree.IsTooLong path := by
  unfold find
  by_cases hnowhere : (path.isEmpty || path.contains '\x00') = true
  · rw [if_pos hnowhere]
    refine ⟨fun h => absurd h (by simp), fun h => ?_⟩
    rcases Bool.or_eq_true_iff.mp hnowhere with hempty | hnull
    · exact absurd (List.isEmpty_iff.mp hempty) h.ne_nil
    · exact absurd (List.contains_iff_mem.mp hnull) h.null_notMem
  · obtain ⟨hne, hnull⟩ : path ≠ [] ∧ '\x00' ∉ path := by simpa using hnowhere
    rw [if_neg hnowhere]
    by_cases hlong : longestPath < Text.utf8Length path
    · rw [if_pos hlong]
      exact ⟨fun _ => ⟨hne, hnull, .inl hlong⟩, fun _ => ⟨_, rfl⟩⟩
    · rw [if_neg hlong]
      have hwalk : (∃ fault, walk tree path (start path) (Text.splitOn '/' path) = .error fault) ↔
          tree.MeetsLongName (start path) (Text.splitOn '/' path) :=
        exists_walk_eq_error_iff (Text.splitOn '/' path)
      rw [← start, hwalk]
      exact ⟨fun h => ⟨hne, hnull, .inr h⟩, fun h => h.long.resolve_left hlong⟩

theorem exists_file_eq_error_iff {tree : FileTree} {path : Text} :
    (∃ fault, tree.file? path = .error fault) ↔ tree.IsTooLong path := by
  rw [← exists_find_eq_error_iff, file?]
  cases tree.find path <;> simp [Except.map]

end StyleOrigin.FileTree
