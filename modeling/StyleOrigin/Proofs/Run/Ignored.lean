import StyleOrigin.Proofs.Path.Absolute
import StyleOrigin.Proofs.Resolver.Candidates
import StyleOrigin.Proofs.Run.Stages
import StyleOrigin.Search.Table

/-! # Files that are never origins

The input file and the ignored files are brought to a normal form by the settings and made absolute
by the resolver, while the paths of matches are made absolute once, from the directory of the
provider. Both ways lead to the same form. Paths with one form lead to one place, and paths to one place
have one form unless two slashes in front of the working directory are kept for one of them.

* `resolverOf_eq_ok_iff`: the resolver of settings and a provider.
* `Settings.mem_ignored_iff`, `Settings.qualifies_iff`: what the resolver ignores, and what may be an
  origin, by the paths as they were given.
* `Settings.absolute_given_eq_iff`: the form of a path and that of a given one, by where they lead.
* `origin_mem_candidates`: the origin of a resolution is one of its candidates.
* `ignored_files_are_no_origins`: a match of an ignored file is dropped, however it is spelled, and no
  file of a report is one of them.
-/
set_option autoImplicit false

namespace StyleOrigin

/-- The paths that are never origins, as they were given. -/
def Settings.givenPaths (settings : Settings) : List Text :=
  settings.inputPath :: settings.ignore

section Resolver
variable {machine : Machine} {settings : Settings} {provider : Provider}

theorem resolverOf_eq_ok_iff {resolver : Resolver} :
    machine.resolverOf settings provider = .ok resolver ↔
      ∃ ignored, settings.ignoredPaths.mapM (Path.absolute machine.workingDirectory none) = .ok ignored ∧
        resolver = ⟨machine.workingDirectory, ignored, settings.extension.dropWhile (· == '.'),
          settings.rootGlob, provider.directory, settings.concurrency⟩ :=
  Resolver.make_eq_ok_iff

theorem resolverOf_eq_ok {resolver : Resolver}
    (h : machine.resolverOf settings provider = .ok resolver) :
    settings.ignoredPaths.mapM (Path.absolute machine.workingDirectory none) = .ok resolver.ignored ∧
      resolver.workingDirectory = machine.workingDirectory ∧
      resolver.matchRoot = provider.directory := by
  obtain ⟨ignored, hignored, rfl⟩ := resolverOf_eq_ok_iff.mp h
  exact ⟨hignored, rfl, rfl⟩

theorem glob_of_resolverOf {resolver : Resolver}
    (h : machine.resolverOf settings provider = .ok resolver) : resolver.glob = settings.rootGlob := by
  obtain ⟨ignored, -, rfl⟩ := resolverOf_eq_ok_iff.mp h
  rfl

theorem exists_resolverOf_eq_ok (hpaths : ∀ path ∈ settings.givenPaths, '\x00' ∉ path)
    (hdirectory : '\x00' ∉ machine.workingDirectory) :
    ∃ resolver, machine.resolverOf settings provider = .ok resolver := by
  have hforms : ∀ path ∈ settings.ignoredPaths,
      ∃ form, Path.absolute machine.workingDirectory none path = .ok form := by
    intro path hpath
    obtain ⟨given, hgiven, rfl⟩ := List.mem_map.mp (List.mem_eraseDups.mp hpath)
    rw [Path.absolute_normalize _ (hpaths given hgiven)]
    exact Path.exists_absolute_eq_ok hdirectory (hpaths given hgiven)
  obtain ⟨ignored, hignored⟩ := exists_mapM_eq_ok hforms
  exact ⟨_, by unfold Machine.resolverOf Resolver.make; rw [hignored]; rfl⟩

/-- The normal form in between does not show: a form is ignored if one of the paths as they were given
has it. -/
theorem Settings.mem_ignored_iff (hpaths : ∀ path ∈ settings.givenPaths, '\x00' ∉ path)
    {resolver : Resolver} (h : machine.resolverOf settings provider = .ok resolver) (form : Text) :
    form ∈ resolver.ignored ↔
      ∃ path ∈ settings.givenPaths, Path.absolute machine.workingDirectory none path = .ok form := by
  rw [mem_of_mapM_eq_ok (resolverOf_eq_ok h).1]
  have hnormal : ∀ path ∈ settings.givenPaths,
      Path.absolute machine.workingDirectory none (Path.normalize path) =
        Path.absolute machine.workingDirectory none path :=
    fun path hpath => Path.absolute_normalize _ (hpaths path hpath)
  constructor
  · rintro ⟨normal, hmem, hform⟩
    obtain ⟨path, hpath, rfl⟩ := List.mem_map.mp (List.mem_eraseDups.mp hmem)
    exact ⟨path, hpath, (hnormal path hpath).symm.trans hform⟩
  · rintro ⟨path, hpath, hform⟩
    exact ⟨Path.normalize path, List.mem_eraseDups.mpr (List.mem_map.mpr ⟨path, hpath, rfl⟩),
      (hnormal path hpath).trans hform⟩

/-- A path may be an origin if it has the extension and its form is that of none of the given paths. -/
theorem Settings.qualifies_iff (hpaths : ∀ path ∈ settings.givenPaths, '\x00' ∉ path)
    {resolver : Resolver} (h : machine.resolverOf settings provider = .ok resolver) (path : Text) :
    resolver.qualifies path = .ok true ↔ path ≠ [] ∧ Path.extension path = resolver.extension ∧
      ∃ form, Path.absolute machine.workingDirectory provider.directory path = .ok form ∧
        ∀ given ∈ settings.givenPaths,
          Path.absolute machine.workingDirectory none given ≠ .ok form := by
  obtain ⟨-, hdirectory, hroot⟩ := resolverOf_eq_ok h
  rw [Resolver.qualifies_eq_true_iff, hdirectory, hroot]
  simp only [Settings.mem_ignored_iff hpaths h, not_exists, not_and, ne_eq]

/-- The paths that a resolver ignores have absolute forms. -/
theorem Settings.exists_absolute_of_mem_givenPaths
    (hpaths : ∀ path ∈ settings.givenPaths, '\x00' ∉ path) {resolver : Resolver}
    (h : machine.resolverOf settings provider = .ok resolver) {given : Text}
    (hgiven : given ∈ settings.givenPaths) :
    ∃ form, Path.absolute machine.workingDirectory none given = .ok form := by
  have hnormal : Path.normalize given ∈ settings.ignoredPaths :=
    List.mem_eraseDups.mpr (List.mem_map_of_mem hgiven)
  rw [← Path.absolute_normalize _ (hpaths given hgiven)]
  exact exists_mapM_eq_ok_iff.mp ⟨_, (resolverOf_eq_ok h).1⟩ _ hnormal

/-- In an absolute working directory, a path has the form of a given one if both lead to one place, and
two slashes are not kept. -/
theorem Settings.absolute_given_eq_iff (hpaths : ∀ path ∈ settings.givenPaths, '\x00' ∉ path)
    {resolver : Resolver} (h : machine.resolverOf settings provider = .ok resolver)
    (hrooted : Path.isAbsolute machine.workingDirectory = true) {path form : Text}
    (hform : Path.absolute machine.workingDirectory provider.directory path = .ok form) {given : Text}
    (hgiven : given ∈ settings.givenPaths) :
    Path.absolute machine.workingDirectory none given = .ok form ↔
      Path.destination machine.workingDirectory none given =
          Path.destination machine.workingDirectory provider.directory path ∧
        ¬Path.KeepsTwoSlashes machine.workingDirectory provider.directory path :=
  Path.absolute_none_eq_iff hrooted hform (Settings.exists_absolute_of_mem_givenPaths hpaths h hgiven)

end Resolver

theorem origin_mem_candidates {resolver : Resolver} {provider : Provider} {unit : StyleUnit}
    {resolution : Resolution} {path : Text} (hunit : unit.origins = none)
    (h : (resolver.resolve provider unit).outcome = .ok resolution)
    (horigin : resolution.origin = some path) :
    ∃ found candidates, resolver.candidates found = .ok candidates ∧ path ∈ candidates := by
  rcases Resolver.resolve_eq_ok hunit h with ⟨fault, rfl⟩ | ⟨found, candidates, hfound, rfl⟩
  · simp [Resolution.origin] at horigin
  · rw [Resolution.origin_ofCandidates] at horigin
    refine ⟨found, candidates, hfound, ?_⟩
    split at horigin
    · simp_all
    · simp at horigin

/-- The files of a report may be origins. -/
theorem exists_qualifies_of_mem_files {machine : Machine} {settings : Settings} {provider : Provider}
    {source : Option Text} {deliver : List Resolution → List Resolution} {report : Report}
    (hdeliver : ∀ resolutions : List Resolution, deliver resolutions ⊆ resolutions)
    (hrun : (machine.run settings provider source deliver).outcome = .ok report)
    {file : Text × List Fragment} (hfile : file ∈ report.files) :
    ∃ resolver, machine.resolverOf settings provider = .ok resolver ∧
      resolver.qualifies file.1 = .ok true := by
  obtain ⟨nodes, resolver, resolutions, hstages, hcollect⟩ := exists_runStages_of_outcome_eq_ok hrun
  obtain ⟨-, hreport⟩ := collect_eq_ok_iff.mp hcollect
  obtain ⟨resolution, harrived, horigin⟩ :=
    (Ledger.mem_paths_reportFor (Ledger.records_addAll _) hreport file.1).mp
      (List.mem_map.mpr ⟨file, hfile, rfl⟩)
  obtain ⟨unit, hunit, hresolved⟩ :=
    exists_of_mem_forall₂_right hstages.resolved (hdeliver resolutions harrived)
  obtain ⟨found, candidates, hcandidates, hcandidate⟩ :=
    origin_mem_candidates (origins_of_mem_unitsOf hunit) hresolved horigin
  exact ⟨resolver, hstages.resolver_eq,
    ((Resolver.mem_candidates hcandidates file.1).mp hcandidate).2⟩

/-- The input file and the ignored files are never origins, however they and the matches are spelled: a match
is dropped exactly if its path has the form of one of them. With an absolute working directory, that is
to say that it leads to the same place, and that two slashes are not kept for it. Resolutions arrive in any
order. -/
theorem ignored_files_are_no_origins (machine : Machine) (settings : Settings) (provider : Provider)
    (hpaths : ∀ path ∈ settings.givenPaths, '\x00' ∉ path) :
    ('\x00' ∉ machine.workingDirectory →
      ∃ resolver, machine.resolverOf settings provider = .ok resolver) ∧
    (∀ resolver, machine.resolverOf settings provider = .ok resolver →
      (∀ path form, path ≠ [] →
        Path.absolute machine.workingDirectory provider.directory path = .ok form →
        (resolver.ignored.contains form = true ↔ ∃ given ∈ settings.givenPaths,
          Path.absolute machine.workingDirectory none given = .ok form) ∧
        resolver.qualifies path = .ok (!resolver.ignored.contains form &&
          Path.extension path == resolver.extension)) ∧
      (∀ found, '\x00' ∉ Path.baseOf machine.workingDirectory provider.directory →
        (∀ path ∈ found.map matchPath, '\x00' ∉ path) →
        ∃ candidates, resolver.candidates found = .ok candidates ∧
          ∀ path, path ∈ candidates ↔ path ∈ found.map matchPath ∧ path ≠ [] ∧
            Path.extension path = resolver.extension ∧
            ∃ form, Path.absolute machine.workingDirectory provider.directory path = .ok form ∧
              ∀ given ∈ settings.givenPaths,
                Path.absolute machine.workingDirectory none given ≠ .ok form)) ∧
    (∀ source deliver report, (∀ resolutions : List Resolution, deliver resolutions ⊆ resolutions) →
      (machine.run settings provider source deliver).outcome = .ok report →
      ∀ file ∈ report.files, ∃ form,
        Path.absolute machine.workingDirectory provider.directory file.1 = .ok form ∧
          ∀ given ∈ settings.givenPaths,
            Path.absolute machine.workingDirectory none given ≠ .ok form) ∧
    (Path.isAbsolute machine.workingDirectory = true →
      (∀ resolver path form, machine.resolverOf settings provider = .ok resolver →
        Path.absolute machine.workingDirectory provider.directory path = .ok form →
        (resolver.ignored.contains form = true ↔
          (∃ given ∈ settings.givenPaths, Path.destination machine.workingDirectory none given =
            Path.destination machine.workingDirectory provider.directory path) ∧
          ¬Path.KeepsTwoSlashes machine.workingDirectory provider.directory path)) ∧
      ∀ source deliver report, (∀ resolutions : List Resolution, deliver resolutions ⊆ resolutions) →
        (machine.run settings provider source deliver).outcome = .ok report →
        ∀ file ∈ report.files, ∀ given ∈ settings.givenPaths,
          Path.destination machine.workingDirectory none given =
            Path.destination machine.workingDirectory provider.directory file.1 →
          Path.KeepsTwoSlashes machine.workingDirectory provider.directory file.1) := by
  refine ⟨exists_resolverOf_eq_ok hpaths, fun resolver hresolver => ⟨?_, ?_⟩, ?_,
    fun hrooted => ⟨?_, ?_⟩⟩
  · intro path form hpath hform
    obtain ⟨-, hdirectory, hroot⟩ := resolverOf_eq_ok hresolver
    rw [List.contains_iff_mem]
    exact ⟨Settings.mem_ignored_iff hpaths hresolver form,
      Resolver.qualifies_eq hpath (by rw [hdirectory, hroot, hform])⟩
  · intro found hbase hfound
    obtain ⟨-, hdirectory, hroot⟩ := resolverOf_eq_ok hresolver
    obtain ⟨candidates, hcandidates⟩ :=
      Resolver.exists_candidates_eq_ok (by rwa [hdirectory, hroot]) hfound
    refine ⟨candidates, hcandidates, fun path => ?_⟩
    rw [Resolver.mem_candidates hcandidates, Settings.qualifies_iff hpaths hresolver]
  · intro source deliver report hdeliver hrun file hfile
    obtain ⟨resolver, hresolver, hqualifies⟩ := exists_qualifies_of_mem_files hdeliver hrun hfile
    exact ((Settings.qualifies_iff hpaths hresolver file.1).mp hqualifies).2.2
  · intro resolver path form hresolver hpath
    rw [List.contains_iff_mem, Settings.mem_ignored_iff hpaths hresolver, ← exists_and_right]
    simp only [and_assoc]
    exact exists_congr fun given =>
      and_congr_right (Settings.absolute_given_eq_iff hpaths hresolver hrooted hpath)
  · intro source deliver report hdeliver hrun file hfile given hgiven hplace
    obtain ⟨resolver, hresolver, hqualifies⟩ := exists_qualifies_of_mem_files hdeliver hrun hfile
    obtain ⟨-, -, form, hpath, hnot⟩ :=
      (Settings.qualifies_iff hpaths hresolver file.1).mp hqualifies
    by_contra hkeeps
    exact hnot given hgiven
      ((Settings.absolute_given_eq_iff hpaths hresolver hrooted hpath hgiven).mpr ⟨hplace, hkeeps⟩)

/-- The input file is ignored under the name that a provider in a directory below has for it. -/
theorem ignored_files_are_no_origins_respelled :
    (∀ path ∈ Settings.givenPaths { inputPath := "./main.less", ignore := ["a/../b.less"] },
      '\x00' ∉ path) ∧
      ∃ resolver, bareMachine.resolverOf { inputPath := "./main.less", ignore := ["a/../b.less"] }
        (Table.provider ⟨[], [], [], some "below"⟩) = .ok resolver ∧
        resolver.qualifies "..//main.less" = .ok false := by
  have hpaths : ∀ path ∈ Settings.givenPaths
      { inputPath := "./main.less", ignore := ["a/../b.less"] }, '\x00' ∉ path := by decide +kernel
  have hlaw := ignored_files_are_no_origins bareMachine _ (Table.provider ⟨[], [], [], some "below"⟩)
    hpaths
  obtain ⟨resolver, hresolver⟩ := hlaw.1 (by decide +kernel)
  have hform : Path.absolute bareMachine.workingDirectory (some "below") "..//main.less" =
      .ok "/work/main.less" := by decide +kernel
  obtain ⟨hignored, hqualifies⟩ :=
    (hlaw.2.1 resolver hresolver).1 "..//main.less" "/work/main.less" (by decide +kernel) hform
  have hgiven : ∃ given ∈ Settings.givenPaths
      { inputPath := "./main.less", ignore := ["a/../b.less"] },
      Path.absolute bareMachine.workingDirectory none given = .ok "/work/main.less" :=
    ⟨"./main.less", by decide +kernel, by decide +kernel⟩
  refine ⟨hpaths, resolver, hresolver, ?_⟩
  rw [hqualifies, hignored.mpr hgiven]
  rfl

end StyleOrigin
