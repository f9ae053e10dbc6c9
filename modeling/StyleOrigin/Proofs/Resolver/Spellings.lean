import Mathlib.Data.Set.Subsingleton
import StyleOrigin.Proofs.Resolver.FirstSeen

/-! # Files and spellings

A file is ignored however it is spelled, but candidates are told apart by their spellings. So the status
of a search counts spellings where it is meant to count files. It errs in one way only: one file that is
spelled in several ways passes for several files. Plain paths have one spelling for each file.

* `originFiles`: the files that matches come from, by their absolute forms.
* `CountsFiles`: the status that goes by the number of files.
* `OneSpelling`: a file that is the only one is spelled in one way.
* `status_counts_files_iff`: when the status of matches counts files.
* `two_spellings_of_one_file`: matches of one file that are taken to be ambiguous.
-/
set_option autoImplicit false

namespace StyleOrigin.Resolver

/-! ## Files -/

/-- The files that matches come from, by their absolute forms: those of the paths that may be origins. -/
def originFiles (workingDirectory : Text) (ignore : List Text) (extension : Text)
    (matchRoot : Option Text) (found : List Text) : Set Text :=
  {form | ∃ path ∈ found.map matchPath, MayBeOrigin workingDirectory ignore extension matchRoot path ∧
    Path.absolute workingDirectory matchRoot path = .ok form}

/-- One file is an origin, no file is no match, and several files are ambiguous. -/
structure CountsFiles (files : Set Text) (status : Status) : Prop where
  resolved_iff : status = .resolved ↔ ∃ form, files = {form}
  unmatched_iff : status = .unmatched ↔ files = ∅
  ambiguous_iff : status = .ambiguous ↔ files.Nontrivial

/-- Where matches come from one file, they have one spelling for it. -/
def OneSpelling (workingDirectory : Text) (ignore : List Text) (extension : Text)
    (matchRoot : Option Text) (found : List Text) : Prop :=
  ∀ form, originFiles workingDirectory ignore extension matchRoot found = {form} →
    ∀ path ∈ found.map matchPath, ∀ other ∈ found.map matchPath,
      MayBeOrigin workingDirectory ignore extension matchRoot path →
        MayBeOrigin workingDirectory ignore extension matchRoot other → path = other

/-! ## Counting -/

section Counting
variable {files : Set Text} {candidates : List Text} {denotes : Text → Text → Prop}

/-- There are no candidates and no files, one of each, or two candidates that differ and some file. -/
theorem candidates_cases (hnodup : candidates.Nodup)
    (hfiles : ∀ form, form ∈ files ↔ ∃ path ∈ candidates, denotes path form)
    (hdenotes : ∀ path ∈ candidates, ∃ form, ∀ form', denotes path form' ↔ form' = form) :
    (candidates = [] ∧ files = ∅) ∨ (∃ path form, candidates = [path] ∧ files = {form}) ∨
      ∃ path other rest, candidates = path :: other :: rest ∧ path ≠ other ∧ files.Nonempty := by
  match candidates with
  | [] => exact .inl ⟨rfl, Set.eq_empty_iff_forall_notMem.mpr fun form => by simp [hfiles]⟩
  | [path] =>
    obtain ⟨form, hform⟩ := hdenotes path (by simp)
    exact .inr (.inl ⟨path, form, rfl, Set.ext fun form' => by simp [hfiles, hform]⟩)
  | path :: other :: rest =>
    obtain ⟨form, hform⟩ := hdenotes path (by simp)
    have hsome : files.Nonempty := ⟨form, (hfiles form).mpr ⟨path, by simp, (hform form).mpr rfl⟩⟩
    refine .inr (.inr ⟨path, other, rest, rfl, ?_, hsome⟩)
    rintro rfl
    simp at hnodup

/-- A status that counts candidates counts the files they denote, unless there is one file for several. -/
theorem countsFiles_ofCandidates_iff (hnodup : candidates.Nodup)
    (hfiles : ∀ form, form ∈ files ↔ ∃ path ∈ candidates, denotes path form)
    (hdenotes : ∀ path ∈ candidates, ∃ form, ∀ form', denotes path form' ↔ form' = form) :
    CountsFiles files (.ofCandidates candidates) ↔
      ∀ form, files = {form} → ∀ path ∈ candidates, ∀ other ∈ candidates, path = other := by
  obtain ⟨rfl, hnone⟩ | ⟨path, form, rfl, hone⟩ | ⟨path, other, rest, rfl, hne, hsome⟩ :=
    candidates_cases hnodup hfiles hdenotes
  · refine iff_of_true ⟨?_, ?_, ?_⟩ (by simp)
    · simp [hnone, Status.ofCandidates, eq_comm (a := (∅ : Set Text))]
    · simp [hnone, Status.ofCandidates]
    · simp [hnone, Status.ofCandidates]
  · refine iff_of_true ⟨?_, ?_, ?_⟩ (by simp)
    · simp [hone, Status.ofCandidates]
    · simp [hone, Status.ofCandidates]
    · simp [hone, Status.ofCandidates]
  · constructor
    · intro hcounts form hone
      have hseveral : files.Nontrivial := hcounts.ambiguous_iff.mp rfl
      exact absurd (hone ▸ hseveral) (by simp)
    · intro halike
      have hnot : ¬∃ form, files = {form} := by
        rintro ⟨form, hone⟩
        exact hne (halike form hone path (by simp) other (by simp))
      have hseveral : files.Nontrivial :=
        hsome.exists_eq_singleton_or_nontrivial.resolve_left hnot
      exact ⟨iff_of_false (by simp [Status.ofCandidates]) hnot,
        iff_of_false (by simp [Status.ofCandidates]) hsome.ne_empty, iff_of_true rfl hseveral⟩

/-- Where files and candidates differ in number, there are fewer files, but there still is one. -/
theorem ofCandidates_of_files (hnodup : candidates.Nodup)
    (hfiles : ∀ form, form ∈ files ↔ ∃ path ∈ candidates, denotes path form)
    (hdenotes : ∀ path ∈ candidates, ∃ form, ∀ form', denotes path form' ↔ form' = form) :
    (Status.ofCandidates candidates = .unmatched ↔ files = ∅) ∧
      (Status.ofCandidates candidates = .resolved → ∃ form, files = {form}) ∧
      (files.Nontrivial → Status.ofCandidates candidates = .ambiguous) := by
  obtain ⟨rfl, hnone⟩ | ⟨path, form, rfl, hone⟩ | ⟨path, other, rest, rfl, -, hsome⟩ :=
    candidates_cases hnodup hfiles hdenotes
  · exact ⟨iff_of_true rfl hnone, by simp [Status.ofCandidates], by simp [hnone]⟩
  · exact ⟨by simp [Status.ofCandidates, hone], fun _ => ⟨form, hone⟩, by simp [hone]⟩
  · exact ⟨iff_of_false (by simp [Status.ofCandidates]) hsome.ne_empty,
      by simp [Status.ofCandidates], fun _ => rfl⟩

end Counting

section Made
variable {workingDirectory : Text} {ignore : List Text} {extension : Text} {glob : Option Text}
  {maxInFlight : Concurrency} {matchRoot : Option Text} {resolver : Resolver} {found candidates : List Text}

theorem mem_candidates_iff_mayBeOrigin
    (hmake : make workingDirectory ignore extension glob maxInFlight matchRoot = .ok resolver)
    (h : resolver.candidates found = .ok candidates) (path : Text) :
    path ∈ candidates ↔ path ∈ found.map matchPath ∧
      MayBeOrigin workingDirectory ignore extension matchRoot path := by
  rw [mem_candidates h, qualifies_make_iff hmake]

theorem mem_originFiles_iff
    (hmake : make workingDirectory ignore extension glob maxInFlight matchRoot = .ok resolver)
    (h : resolver.candidates found = .ok candidates) (form : Text) :
    form ∈ originFiles workingDirectory ignore extension matchRoot found ↔
      ∃ path ∈ candidates, Path.absolute workingDirectory matchRoot path = .ok form := by
  simp only [mem_candidates_iff_mayBeOrigin hmake h]
  exact ⟨fun ⟨path, hpath, hmay, hform⟩ => ⟨path, ⟨hpath, hmay⟩, hform⟩,
    fun ⟨path, ⟨hpath, hmay⟩, hform⟩ => ⟨path, hpath, hmay, hform⟩⟩

/-- Each candidate denotes one file. -/
theorem exists_form_of_mem_candidates
    (hmake : make workingDirectory ignore extension glob maxInFlight matchRoot = .ok resolver)
    (h : resolver.candidates found = .ok candidates) {path : Text} (hpath : path ∈ candidates) :
    ∃ form, ∀ form', Path.absolute workingDirectory matchRoot path = .ok form' ↔ form' = form := by
  obtain ⟨-, hmay⟩ := (mem_candidates_iff_mayBeOrigin hmake h path).mp hpath
  obtain ⟨form, hform, -⟩ := hmay.not_ignored
  exact ⟨form, fun form' => by rw [hform, Except.ok.injEq, eq_comm]⟩

theorem countsFiles_iff
    (hmake : make workingDirectory ignore extension glob maxInFlight matchRoot = .ok resolver)
    (h : resolver.candidates found = .ok candidates) :
    CountsFiles (originFiles workingDirectory ignore extension matchRoot found)
        (.ofCandidates candidates) ↔
      OneSpelling workingDirectory ignore extension matchRoot found := by
  rw [countsFiles_ofCandidates_iff (firstSeen_of_candidates h).nodup (mem_originFiles_iff hmake h)
    fun path hpath => exists_form_of_mem_candidates hmake h hpath]
  simp only [OneSpelling, mem_candidates_iff_mayBeOrigin hmake h]
  exact ⟨fun halike form hone path hpath other hother hmay hmay' =>
      halike form hone path ⟨hpath, hmay⟩ other ⟨hother, hmay'⟩,
    fun halike form hone path hpath other hother =>
      halike form hone path hpath.1 other hother.1 hpath.2 hother.2⟩

end Made

theorem oneSpelling_of_isPlain {workingDirectory : Text} {ignore : List Text} {extension : Text}
    {matchRoot : Option Text} {found : List Text}
    (hplain : ∀ path ∈ found.map matchPath, path ≠ [] → Path.IsPlain path) :
    OneSpelling workingDirectory ignore extension matchRoot found := by
  intro form hone path hpath other hother hmay hmay'
  have hform {path : Text} (hpath : path ∈ found.map matchPath)
      (hmay : MayBeOrigin workingDirectory ignore extension matchRoot path) :
      Path.absolute workingDirectory matchRoot path = .ok form := by
    obtain ⟨form', hform', -⟩ := hmay.not_ignored
    have hmem : form' ∈ originFiles workingDirectory ignore extension matchRoot found :=
      ⟨path, hpath, hmay, hform'⟩
    rw [hone] at hmem
    rw [hform', Set.mem_singleton_iff.mp hmem]
  exact Path.eq_of_absolute_eq (hplain path hpath hmay.ne_nil) (hplain other hother hmay'.ne_nil)
    (hform hpath hmay) (hform hother hmay')

/-! ## The law -/

/-- The status that the search for a unit comes to with matches counts the files that they come from if
and only if a file that is the only one is spelled in one way; plain paths are. In every case a unit is
unmatched where there is no file, there is one file where the unit is resolved, and it is ambiguous where
there are several. -/
theorem status_counts_files_iff (workingDirectory : Text) (ignore : List Text) (extension : Text)
    (glob : Option Text) (maxInFlight : Concurrency) (matchRoot : Option Text) (resolver : Resolver)
    (hmake : make workingDirectory ignore extension glob maxInFlight matchRoot = .ok resolver)
    (found : List Text) (hfound : NullFree workingDirectory matchRoot found) :
    ∃ status,
      (∃ candidates, resolver.candidates found = .ok candidates ∧
        status = Status.ofCandidates candidates) ∧
      (∀ (unit : StyleUnit) (provider : Provider), unit.origins = none →
        provider.answer ⟨unit.token, glob⟩ = .ok found → ∃ resolution,
          (resolver.resolve provider unit).outcome = .ok resolution ∧ resolution.status = status) ∧
      (CountsFiles (originFiles workingDirectory ignore extension matchRoot found) status ↔
        OneSpelling workingDirectory ignore extension matchRoot found) ∧
      ((∀ path ∈ found.map matchPath, path ≠ [] → Path.IsPlain path) →
        CountsFiles (originFiles workingDirectory ignore extension matchRoot found) status) ∧
      (status = .unmatched ↔ originFiles workingDirectory ignore extension matchRoot found = ∅) ∧
      (status = .resolved →
        ∃ form, originFiles workingDirectory ignore extension matchRoot found = {form}) ∧
      ((originFiles workingDirectory ignore extension matchRoot found).Nontrivial →
        status = .ambiguous) := by
  obtain ⟨candidates, hcandidates⟩ : ∃ candidates, resolver.candidates found = .ok candidates := by
    obtain ⟨ignored, -, rfl⟩ := make_eq_ok_iff.mp hmake
    exact exists_candidates_eq_ok_iff.mpr hfound
  have hglob : resolver.glob = glob := by
    obtain ⟨ignored, -, rfl⟩ := make_eq_ok_iff.mp hmake
    rfl
  have hcounts := countsFiles_iff hmake hcandidates
  refine ⟨Status.ofCandidates candidates, ⟨candidates, hcandidates, rfl⟩, ?_, hcounts,
    fun hplain => hcounts.mpr (oneSpelling_of_isPlain hplain), ?_⟩
  · intro unit provider hunit hanswer
    rw [← hglob] at hanswer
    exact ⟨_, resolve_eq_of_candidates hunit hanswer hcandidates, rfl⟩
  · exact ofCandidates_of_files (firstSeen_of_candidates hcandidates).nodup
      (mem_originFiles_iff hmake hcandidates)
      fun path hpath => exists_form_of_mem_candidates hmake hcandidates hpath

/-- Matches of one file, which is named in plain paths, among others. -/
def plainMatches : List Text :=
  ["a.less:1:.a", "main.less:3:.a", "styles/b.css", "a.less"]

/-- The file is counted once, and a unit is resolved by its matches. -/
theorem status_counts_files_iff_plain :
    ∃ resolver, make "/work" ["./main.less"] "less" none .usual none = .ok resolver ∧
      NullFree "/work" none plainMatches ∧
      (∀ path ∈ plainMatches.map matchPath, path ≠ [] → Path.IsPlain path) ∧
      resolver.candidates plainMatches = .ok ["a.less"] ∧
      CountsFiles (originFiles "/work" ["./main.less"] "less" none plainMatches) .resolved ∧
      ∃ form, originFiles "/work" ["./main.less"] "less" none plainMatches = {form} := by
  have hnull : NullFree "/work" none plainMatches := by decide +kernel
  have hplain : ∀ path ∈ plainMatches.map matchPath, path ≠ [] → Path.IsPlain path := by
    decide +kernel
  obtain ⟨resolver, hmake, hfound⟩ : ∃ resolver,
      make "/work" ["./main.less"] "less" none .usual none = .ok resolver ∧
        resolver.candidates plainMatches = .ok ["a.less"] := ⟨_, rfl, by decide +kernel⟩
  obtain ⟨status, ⟨candidates, hcandidates, rfl⟩, -, -, hcounts, -⟩ := status_counts_files_iff "/work"
    ["./main.less"] "less" none .usual none resolver hmake plainMatches hnull
  obtain rfl : candidates = ["a.less"] := Except.ok.inj (hcandidates.symm.trans hfound)
  have hcounted := hcounts hplain
  exact ⟨resolver, hmake, hnull, hplain, hfound, hcounted, hcounted.resolved_iff.mp rfl⟩

/-- Matches of one file in two spellings. -/
def respelledMatches : List Text :=
  ["a.less:1:.a", "./a.less:2:.a"]

/-- One file is taken for two. -/
theorem two_spellings_of_one_file :
    ∃ resolver, make "/work" [] "less" none .usual none = .ok resolver ∧
      NullFree "/work" none respelledMatches ∧
      resolver.candidates respelledMatches = .ok ["a.less", "./a.less"] ∧
      originFiles "/work" [] "less" none respelledMatches = {"/work/a.less".toList} ∧
      ¬CountsFiles (originFiles "/work" [] "less" none respelledMatches)
        (Status.ofCandidates ["a.less", "./a.less"]) := by
  obtain ⟨resolver, hmake, hfound⟩ : ∃ resolver,
      make "/work" [] "less" none .usual none = .ok resolver ∧
        resolver.candidates respelledMatches = .ok ["a.less", "./a.less"] := ⟨_, rfl, by decide +kernel⟩
  have hforms : ∀ path ∈ ["a.less".toList, "./a.less"],
      Path.absolute "/work" none path = .ok "/work/a.less" := by decide +kernel
  have hone : originFiles "/work" [] "less" none respelledMatches = {"/work/a.less".toList} := by
    ext form
    rw [mem_originFiles_iff hmake hfound, Set.mem_singleton_iff]
    constructor
    · rintro ⟨path, hpath, hform⟩
      exact Except.ok.inj (hform.symm.trans (hforms path hpath))
    · rintro rfl
      exact ⟨"a.less", by simp, hforms _ (by simp)⟩
  refine ⟨resolver, hmake, by decide +kernel, hfound, hone, fun hcounts => ?_⟩
  have hresolved := hcounts.resolved_iff.mpr ⟨_, hone⟩
  exact absurd hresolved (by decide)

end StyleOrigin.Resolver
