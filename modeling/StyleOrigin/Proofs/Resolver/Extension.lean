import StyleOrigin.Proofs.Resolver.Candidates

/-! # The extension of a file name

The extension of a path is what stands behind its last dot, but only a path with a dot in its file name
has one; so the last dot is in the file name, and nothing in front of the name counts. Dots in front of
the extension that is asked for do not count either. An extension with a dot or a slash in it is the one
of no path.

* `Path.EndsInName`, `Path.endsInName_iff`: the file name at the end of a path; there is one.
* `Path.HasExtension`, `Path.extension_eq_iff`: the extension of a path, by the end of its file name.
* `Resolver.extension_read_at_end_of_name`: which paths have the extension that a resolver asks for.
-/
set_option autoImplicit false

namespace StyleOrigin.Path

/-! ## File names -/

/-- The file name at the end of a path: what stands behind the last slash, or the path without one. -/
structure EndsInName (path name : Text) : Prop where
  slash_notMem : '/' ∉ name
  behind : path = name ∨ ∃ directory, path = directory ++ '/' :: name

/-- A file name ends in a dot and an extension without dots. It is without an extension if it has no dot
or if nothing stands behind the last one. -/
def HasExtension (name extension : Text) : Prop :=
  (extension ≠ [] ∧ '.' ∉ extension ∧ '/' ∉ extension ∧ '.' :: extension <:+ name) ∨
    (extension = [] ∧ ('.' ∉ name ∨ ['.'] <:+ name))

instance (name extension : Text) : Decidable (HasExtension name extension) :=
  inferInstanceAs (Decidable (_ ∨ _))

section Names
variable {path name : Text}

/-- Each path ends in one file name. -/
theorem endsInName_iff : EndsInName path name ↔ baseName path = name := by
  unfold baseName
  constructor
  · rintro ⟨hslash, rfl | ⟨directory, rfl⟩⟩
    · rw [Text.splitOn_eq_singleton hslash]
      rfl
    · rw [Text.getLast?_splitOn_append directory hslash]
      rfl
  · rintro rfl
    by_cases hslash : '/' ∈ path
    · obtain ⟨directory, name, rfl, hname⟩ := Text.exists_last_cut hslash
      rw [Text.getLast?_splitOn_append directory hname]
      exact ⟨hname, .inr ⟨directory, rfl⟩⟩
    · rw [Text.splitOn_eq_singleton hslash]
      exact ⟨hslash, .inl rfl⟩

theorem EndsInName.exists_append (h : EndsInName path name) : ∃ front, path = front ++ name := by
  rcases h.behind with rfl | ⟨directory, rfl⟩
  · exact ⟨[], rfl⟩
  · exact ⟨directory ++ ['/'], by simp⟩

/-- The last dot of a path is in its file name if there is one in it at all. -/
theorem extension_eq_of_dot {front ending : Text} (h : EndsInName path (front ++ '.' :: ending))
    (hending : '.' ∉ ending) : extension path = ending := by
  obtain ⟨before, hpath⟩ := h.exists_append
  unfold extension
  rw [endsInName_iff.mp h, if_pos (by simp), hpath, ← List.append_assoc,
    Text.getLast?_splitOn_append _ hending]
  rfl

theorem extension_eq_nil (h : EndsInName path name) (hdot : '.' ∉ name) : extension path = [] := by
  unfold extension
  rw [endsInName_iff.mp h, if_neg (by simpa using hdot)]

theorem extension_eq_iff (h : EndsInName path name) (ending : Text) :
    extension path = ending ↔ HasExtension name ending := by
  by_cases hdot : '.' ∈ name
  · obtain ⟨front, last, rfl, hlast⟩ := Text.exists_last_cut hdot
    rw [extension_eq_of_dot h hlast]
    constructor
    · rintro rfl
      have hsuffix : '.' :: last <:+ front ++ '.' :: last := ⟨front, rfl⟩
      by_cases hempty : last = []
      · subst hempty
        exact .inr ⟨rfl, .inr hsuffix⟩
      · have hslash : '/' ∉ last := fun hmem => h.slash_notMem (by simp [hmem])
        exact .inl ⟨hempty, hlast, hslash, hsuffix⟩
    · rintro (⟨-, hending, -, other, hother⟩ | ⟨rfl, hnone | ⟨other, hother⟩⟩)
      · exact (Text.eq_of_append_cons_eq hending hlast hother).symm
      · exact absurd hdot hnone
      · exact (Text.eq_of_append_cons_eq (by simp) hlast hother).symm
  · rw [extension_eq_nil h hdot]
    constructor
    · rintro rfl
      exact .inr ⟨rfl, .inl hdot⟩
    · rintro (⟨-, -, -, hsuffix⟩ | ⟨rfl, -⟩)
      · exact absurd (hsuffix.subset (by simp)) hdot
      · rfl

end Names
end StyleOrigin.Path

namespace StyleOrigin.Resolver

/-! ## The extension that is asked for -/

/-- A path has the extension that a resolver asks for if the name at its end has it, dots in front of the
extension left out; and a path that is not ignored may be an origin just then. Paths that end in the same
name have the same extension, whatever the directories are called, and with more dots in front of the
extension the resolver is the same. -/
theorem extension_read_at_end_of_name (workingDirectory : Text) (ignore : List Text) (extension : Text)
    (glob : Option Text) (maxInFlight : Concurrency) (matchRoot : Option Text) (resolver : Resolver)
    (hmake : make workingDirectory ignore extension glob maxInFlight matchRoot = .ok resolver) :
    (∀ path, ∃! name, Path.EndsInName path name) ∧
      (∀ path name, Path.EndsInName path name →
        (Path.extension path = resolver.extension ↔
          Path.HasExtension name (extension.dropWhile (· == '.')))) ∧
      (∀ path name form, Path.EndsInName path name → path ≠ [] →
        Path.absolute workingDirectory matchRoot path = .ok form → form ∉ resolver.ignored →
        (resolver.qualifies path = .ok true ↔
          Path.HasExtension name (extension.dropWhile (· == '.')))) ∧
      (∀ path other name, Path.EndsInName path name → Path.EndsInName other name →
        Path.extension path = Path.extension other) ∧
      ∀ dots, (∀ c ∈ dots, c = '.') →
        make workingDirectory ignore (dots ++ extension) glob maxInFlight matchRoot = .ok resolver := by
  obtain ⟨ignored, hignored, rfl⟩ := make_eq_ok_iff.mp hmake
  refine ⟨fun path => ?_, fun path name hname => Path.extension_eq_iff hname _, ?_, ?_, ?_⟩
  · exact ⟨_, Path.endsInName_iff.mpr rfl, fun _ hname => (Path.endsInName_iff.mp hname).symm⟩
  · intro path name form hname hpath hform hkept
    rw [qualifies_eq hpath hform, ← Path.extension_eq_iff hname]
    simpa using fun _ => hkept
  · intro path other name hname hother
    exact (Path.extension_eq_iff hname _).mpr ((Path.extension_eq_iff hother _).mp rfl)
  · intro dots hdots
    rw [make_eq_ok_iff, List.dropWhile_append_of_pos (by simpa using hdots)]
    exact ⟨ignored, hignored, rfl⟩

/-- Three spellings of an extension, and paths with it, without it, and with it in a directory only. -/
theorem extension_read_at_end_of_name_dotted :
    ∃ resolver, make "/work" ["./main.less"] ".less" none .usual none = .ok resolver ∧
      make "/work" ["./main.less"] "..less" none .usual none = .ok resolver ∧
      Path.EndsInName "a.b/.x.less" ".x.less" ∧ Path.EndsInName "some.less/README" "README" ∧
      Path.extension "a.b/.x.less" = resolver.extension ∧
      Path.extension "some.less/README" ≠ resolver.extension ∧
      resolver.qualifies "a.b/.x.less" = .ok true := by
  obtain ⟨resolver, hmake, hignored⟩ : ∃ resolver,
      make "/work" ["./main.less"] ".less" none .usual none = .ok resolver ∧
        resolver.ignored = ["/work/main.less".toList] := ⟨_, rfl, by decide +kernel⟩
  obtain ⟨-, hextension, hqualifies, -, hdots⟩ := extension_read_at_end_of_name "/work" ["./main.less"]
    ".less" none .usual none resolver hmake
  have hname : Path.EndsInName "a.b/.x.less" ".x.less" := ⟨by decide, .inr ⟨"a.b", by decide⟩⟩
  have hother : Path.EndsInName "some.less/README" "README" :=
    ⟨by decide, .inr ⟨"some.less", by decide⟩⟩
  have hends : Path.HasExtension ".x.less" ("less".toList) := by decide +kernel
  have hlacks : ¬Path.HasExtension "README" ("less".toList) := by decide +kernel
  refine ⟨resolver, hmake, hdots ".".toList (by decide), hname, hother,
    (hextension _ _ hname).mpr hends, fun heq => hlacks ((hextension _ _ hother).mp heq), ?_⟩
  refine (hqualifies _ _ "/work/a.b/.x.less" hname (by decide) (by decide +kernel) ?_).mpr hends
  rw [hignored]
  decide +kernel

end StyleOrigin.Resolver
