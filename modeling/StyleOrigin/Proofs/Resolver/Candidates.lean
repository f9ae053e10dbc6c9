import StyleOrigin.Proofs.Path.Normal
import StyleOrigin.Resolver

/-! # The candidates among matches

* `Resolver.make_eq_ok_iff`: the resolver that is made of a set-up.
* `Resolver.qualifies_eq`: when a path qualifies, by its absolute form and its extension.
* `Resolver.qualifying_eq_ok_iff`: the qualifying paths are filtered from the paths of the matches.
* `Resolver.mem_candidates`, `Resolver.exists_candidates_eq_ok_iff`: what is a candidate, and when
  there is an answer: no path may hold U+0000.
-/
set_option autoImplicit false

namespace StyleOrigin.Resolver

theorem make_eq_ok_iff {workingDirectory : Text} {ignore : List Text} {extension : Text}
    {glob : Option Text} {maxInFlight : Concurrency} {matchRoot : Option Text} {resolver : Resolver} :
    make workingDirectory ignore extension glob maxInFlight matchRoot = .ok resolver ↔
      ∃ ignored, ignore.mapM (Path.absolute workingDirectory none) = .ok ignored ∧
        resolver = ⟨workingDirectory, ignored, extension.dropWhile (· == '.'), glob, matchRoot,
          maxInFlight⟩ := by
  unfold make
  cases ignore.mapM (Path.absolute workingDirectory none) with
  | error fault => simp [Except.map]
  | ok ignored => simp [Except.map, eq_comm]

theorem qualifies_eq {resolver : Resolver} {path form : Text} (hpath : path ≠ [])
    (hform : Path.absolute resolver.workingDirectory resolver.matchRoot path = .ok form) :
    resolver.qualifies path =
      .ok (!resolver.ignored.contains form && Path.extension path == resolver.extension) := by
  simp [qualifies, hpath, hform, Except.map]

/-- A path qualifies if it has an absolute form, which is not ignored, and the extension. -/
theorem qualifies_eq_true_iff {resolver : Resolver} {path : Text} :
    resolver.qualifies path = .ok true ↔
      path ≠ [] ∧ Path.extension path = resolver.extension ∧
        ∃ form, Path.absolute resolver.workingDirectory resolver.matchRoot path = .ok form ∧
          form ∉ resolver.ignored := by
  by_cases hpath : path = []
  · simp [qualifies, hpath]
  · cases hform : Path.absolute resolver.workingDirectory resolver.matchRoot path with
    | error fault => simp [qualifies, hpath, hform, Except.map]
    | ok form =>
      rw [qualifies_eq hpath hform]
      simp [hpath, and_comm]

theorem qualifying_eq_ok_iff {resolver : Resolver} {paths kept : List Text} :
    resolver.qualifying paths = .ok kept ↔
      (∀ path ∈ paths, ∃ test, resolver.qualifies path = .ok test) ∧
        kept = paths.filter fun path => resolver.qualifies path = .ok true := by
  induction paths generalizing kept with
  | nil => simp [qualifying, eq_comm]
  | cons path rest ih =>
    cases hpath : resolver.qualifies path with
    | error fault => simp [qualifying, hpath, bind, Except.bind]
    | ok test =>
      cases hrest : resolver.qualifying rest with
      | error fault =>
        have hnone : ¬∀ other ∈ rest, ∃ test, resolver.qualifies other = .ok test := by
          intro hall
          have hok := ih.mpr ⟨hall, rfl⟩
          rw [hrest] at hok
          exact absurd hok (by simp)
        simp only [qualifying, hpath, hrest, bind, Except.bind, List.forall_mem_cons, reduceCtorEq,
          false_iff, not_and]
        exact fun hall => absurd hall.2 hnone
      | ok others =>
        obtain ⟨hall, rfl⟩ := ih.mp hrest
        have hboth : ∀ other ∈ path :: rest, ∃ test, resolver.qualifies other = .ok test :=
          List.forall_mem_cons.mpr ⟨⟨test, hpath⟩, hall⟩
        rw [and_iff_right hboth, List.filter_cons, hpath]
        cases test <;>
          simp [qualifying, hpath, hrest, bind, Except.bind, pure, Except.pure, eq_comm (a := kept)]

theorem candidates_eq_ok_iff {resolver : Resolver} {found candidates : List Text} :
    resolver.candidates found = .ok candidates ↔
      ∃ kept, resolver.qualifying (found.map matchPath) = .ok kept ∧ candidates = kept.eraseDups := by
  unfold Resolver.candidates
  cases resolver.qualifying (found.map matchPath) with
  | error fault => simp [Functor.map, Except.map]
  | ok kept => simp [Functor.map, Except.map, eq_comm]

theorem mem_candidates {resolver : Resolver} {found candidates : List Text}
    (h : resolver.candidates found = .ok candidates) (path : Text) :
    path ∈ candidates ↔ path ∈ found.map matchPath ∧ resolver.qualifies path = .ok true := by
  obtain ⟨kept, hkept, rfl⟩ := candidates_eq_ok_iff.mp h
  obtain ⟨-, rfl⟩ := qualifying_eq_ok_iff.mp hkept
  rw [List.mem_eraseDups, List.mem_filter, decide_eq_true_iff]

/-- There is an answer if each path that is not empty has an absolute form. -/
theorem exists_candidates_eq_ok_iff {resolver : Resolver} {found : List Text} :
    (∃ candidates, resolver.candidates found = .ok candidates) ↔
      ∀ path ∈ found.map matchPath, path ≠ [] →
        '\x00' ∉ Path.join (Path.baseOf resolver.workingDirectory resolver.matchRoot) path := by
  have htest : ∀ path, (∃ test, resolver.qualifies path = .ok test) ↔ (path ≠ [] →
      '\x00' ∉ Path.join (Path.baseOf resolver.workingDirectory resolver.matchRoot) path) := by
    intro path
    rw [← Path.exists_absolute_eq_ok_iff]
    by_cases hempty : path = []
    · simp [qualifies, hempty]
    · cases hform : Path.absolute resolver.workingDirectory resolver.matchRoot path with
      | error fault => simp [qualifies, hempty, hform, Except.map]
      | ok form => simp [qualifies_eq hempty hform]
  simp only [← htest, candidates_eq_ok_iff, qualifying_eq_ok_iff]
  constructor
  · rintro ⟨_, _, ⟨htests, -⟩, -⟩
    exact htests
  · exact fun htests => ⟨_, _, ⟨htests, rfl⟩, rfl⟩

theorem exists_candidates_eq_ok {resolver : Resolver} {found : List Text}
    (hbase : '\x00' ∉ Path.baseOf resolver.workingDirectory resolver.matchRoot)
    (hfound : ∀ path ∈ found.map matchPath, '\x00' ∉ path) :
    ∃ candidates, resolver.candidates found = .ok candidates := by
  refine ⟨_, candidates_eq_ok_iff.mpr ⟨_, qualifying_eq_ok_iff.mpr ⟨fun path hpath => ?_, rfl⟩, rfl⟩⟩
  by_cases hempty : path = []
  · exact ⟨false, by simp [qualifies, hempty]⟩
  · obtain ⟨form, hform⟩ := Path.exists_absolute_eq_ok hbase (hfound path hpath)
    exact ⟨_, qualifies_eq hempty hform⟩

end StyleOrigin.Resolver
