import StyleOrigin.Proofs.Run.Completion
import StyleOrigin.Proofs.Run.SourceOrder

/-! # Units do not disturb each other

Two runs on one stylesheet, whose searches differ for one token only. A changed answer moves units
between files, makes files and fragments come and go, and moves them about in the report. The units
with other tokens stay what they are: in the same files and under the same queries, in the same order,
or among the entries.

Matches are paths, and a path stands for a file only together with a directory. Answers are alike if
they are the same texts and stand for the same files.

* `AnswersAlike`: two providers that answer alike, for every token but one.
* `Resolver.outcome_resolve_eq_of_alike`: the search for a unit with another token comes to the same.
* `other_units_undisturbed`: neither is its place in the report another one.
* `other_directory_disturbs`: the same texts alone are not enough.
-/
set_option autoImplicit false

namespace StyleOrigin

open Css

/-! ## One search -/

/-- Two providers answer alike for every token but one: they find the same, and it stands for the same
files. -/
structure AnswersAlike (workingDirectory : Text) (glob : Option Text) (token : Text)
    (provider provider' : Provider) : Prop where
  answer_eq : ∀ other ≠ token, provider.answer ⟨other, glob⟩ = provider'.answer ⟨other, glob⟩
  absolute_eq : ∀ other ≠ token, ∀ found, provider.answer ⟨other, glob⟩ = .ok found →
    ∀ path ∈ found.map matchPath, path ≠ [] →
      Path.absolute workingDirectory provider.directory path =
        Path.absolute workingDirectory provider'.directory path

namespace Resolver

theorem qualifying_congr {resolver resolver' : Resolver} {paths : List Text}
    (h : ∀ path ∈ paths, resolver.qualifies path = resolver'.qualifies path) :
    resolver.qualifying paths = resolver'.qualifying paths := by
  induction paths with
  | nil => rfl
  | cons path rest ih =>
    obtain ⟨hpath, hrest⟩ := List.forall_mem_cons.mp h
    rw [qualifying, qualifying, hpath, ih hrest]

section Alike
variable {machine : Machine} {settings : Settings} {provider provider' : Provider}
  {resolver resolver' : Resolver} {token : Text}

/-- The resolvers of two providers differ in the directory only. -/
theorem candidates_eq_of_alike (hresolver : machine.resolverOf settings provider = .ok resolver)
    (hresolver' : machine.resolverOf settings provider' = .ok resolver') {found : List Text}
    (hfound : ∀ path ∈ found.map matchPath, path ≠ [] →
      Path.absolute machine.workingDirectory provider.directory path =
        Path.absolute machine.workingDirectory provider'.directory path) :
    resolver.candidates found = resolver'.candidates found := by
  obtain ⟨ignored, hignored, rfl⟩ := resolverOf_eq_ok_iff.mp hresolver
  obtain ⟨ignored', hignored', rfl⟩ := resolverOf_eq_ok_iff.mp hresolver'
  obtain rfl : ignored = ignored' := Except.ok.inj (hignored.symm.trans hignored')
  unfold candidates
  rw [qualifying_congr]
  intro path hpath
  unfold qualifies
  split
  · rfl
  · rename_i hempty
    simp only [hfound path hpath (by simpa using hempty)]

theorem outcome_resolve_eq_of_alike
    (halike : AnswersAlike machine.workingDirectory settings.rootGlob token provider provider')
    (hresolver : machine.resolverOf settings provider = .ok resolver)
    (hresolver' : machine.resolverOf settings provider' = .ok resolver') {unit : StyleUnit}
    (hunit : unit.token ≠ token) :
    (resolver.resolve provider unit).outcome = (resolver'.resolve provider' unit).outcome := by
  rw [outcome_resolve, outcome_resolve, searchFor, searchFor, glob_of_resolverOf hresolver,
    glob_of_resolverOf hresolver', ← halike.answer_eq unit.token hunit, outcome_settle, outcome_settle]
  cases hanswer : provider.answer ⟨unit.token, settings.rootGlob⟩ with
  | error fault => cases fault <;> rfl
  | ok found =>
    have hfound := halike.absolute_eq unit.token hunit found hanswer
    simp only [candidates_eq_of_alike hresolver hresolver' hfound]

end Alike

end Resolver

/-! ## Two runs -/

section Runs
variable {machine : Machine} {settings : Settings} {provider provider' : Provider}
  {source : Option Text} {nodes : List Node} {resolver resolver' : Resolver} {token : Text}
  {resolutions resolutions' : List Resolution}

/-- Two runs come to the same resolutions for units with another token. -/
theorem RunStages.alike
    (halike : AnswersAlike machine.workingDirectory settings.rootGlob token provider provider')
    (h : RunStages machine settings provider source nodes resolver resolutions)
    (h' : RunStages machine settings provider' source nodes resolver' resolutions') :
    List.Forall₂ (fun resolution resolution' =>
      resolution.unit.token = resolution'.unit.token ∧
        (resolution.unit.token ≠ token → resolution = resolution')) resolutions resolutions' := by
  refine forall₂_of_forall₂ h.resolved h'.resolved fun unit hmem _ _ hfirst hsecond => ?_
  have horigins := origins_of_mem_unitsOf hmem
  obtain ⟨candidates, hunit⟩ := Resolver.unit_of_settle_eq_ok horigins hfirst
  obtain ⟨candidates', hunit'⟩ := Resolver.unit_of_settle_eq_ok horigins hsecond
  rw [hunit, hunit']
  refine ⟨rfl, fun hother => ?_⟩
  have hother : unit.token ≠ token := hother
  rw [Resolver.outcome_resolve_eq_of_alike halike h.resolver_eq h'.resolver_eq hother] at hfirst
  exact Except.ok.inj (hfirst.symm.trans hsecond)

/-- A search that fails for a token is all that units with that token come to. -/
theorem RunStages.failed (h : RunStages machine settings provider source nodes resolver resolutions)
    {fault : SearchFault} (hanswer : provider.answer ⟨token, settings.rootGlob⟩ = .error fault)
    {unit : StyleUnit} (hunit : unit ∈ unitsOf nodes) (htoken : unit.token = token) :
    ⟨{ unit with origins := some [] }, .failed, token, fault.message⟩ ∈ resolutions := by
  rw [← glob_of_resolverOf h.resolver_eq, ← htoken] at hanswer
  obtain ⟨resolution, hresolution, hresolved⟩ := exists_of_mem_forall₂_left h.resolved hunit
  rcases (Resolver.resolve_eq_ok_iff (origins_of_mem_unitsOf hunit)).mp hresolved with
    ⟨fault', hanswer', -, rfl⟩ | ⟨found, candidates, hanswer', -, -⟩
  · obtain rfl : fault = fault' := Except.error.inj (hanswer.symm.trans hanswer')
    rwa [← htoken]
  · exact absurd (hanswer.symm.trans hanswer') (by simp)

end Runs

section Failure
variable {machine : Machine} {settings : Settings} {provider provider' : Provider}
  {source : Option Text} {nodes : List Node} {resolver : Resolver} {token : Text}
  {resolutions : List Resolution} {deliver deliver' : List Resolution → List Resolution}
  {fault : SearchFault} {report : Report}

/-- A run whose searches all came to an end has stages also when the search for a token fails. -/
theorem RunStages.exists_of_failure
    (halike : AnswersAlike machine.workingDirectory settings.rootGlob token provider provider')
    (h : RunStages machine settings provider source nodes resolver resolutions)
    (hfault : provider'.answer ⟨token, settings.rootGlob⟩ = .error fault)
    (hhandled : fault.isHandled = true) :
    ∃ resolver' resolutions',
      RunStages machine settings provider' source nodes resolver' resolutions' := by
  obtain ⟨text, htext, hnodes⟩ := h.parsed
  obtain ⟨ignored, hignored, -⟩ := resolverOf_eq_ok_iff.mp h.resolver_eq
  obtain ⟨resolver', hresolver'⟩ : ∃ resolver', machine.resolverOf settings provider' = .ok resolver' :=
    ⟨_, resolverOf_eq_ok_iff.mpr ⟨ignored, hignored, rfl⟩⟩
  refine ⟨resolver', (exists_runStages_iff htext hnodes hresolver').mpr fun unit hunit => ?_⟩
  by_cases htoken : unit.token = token
  · refine ⟨_, (Resolver.resolve_eq_ok_iff (origins_of_mem_unitsOf hunit)).mpr
      (.inl ⟨fault, ?_, hhandled, rfl⟩)⟩
    rw [glob_of_resolverOf hresolver', htoken]
    exact hfault
  · rw [← Resolver.outcome_resolve_eq_of_alike halike h.resolver_eq hresolver' htoken]
    obtain ⟨resolution, -, hresolved⟩ := exists_of_mem_forall₂_left h.resolved hunit
    exact ⟨resolution, hresolved⟩

/-- A failed search brings no unit into a file, so no further query has to be read. -/
theorem exists_report_of_failure
    (halike : AnswersAlike machine.workingDirectory settings.rootGlob token provider provider')
    (h : RunStages machine settings provider source nodes resolver resolutions)
    (hdeliver : (deliver resolutions).Perm resolutions)
    (hrun : (machine.run settings provider source deliver).outcome = .ok report)
    (hfault : provider'.answer ⟨token, settings.rootGlob⟩ = .error fault) {resolver' : Resolver}
    {resolutions' : List Resolution}
    (h' : RunStages machine settings provider' source nodes resolver' resolutions')
    (hdeliver' : (deliver' resolutions').Perm resolutions') :
    ∃ report', (machine.run settings provider' source deliver').outcome = .ok report' := by
  have hread := (h.exists_report_iff hdeliver).mp ⟨report, hrun⟩
  refine (h'.exists_report_iff hdeliver').mpr ?_
  intro unit hunit found hanswer path hone
  rw [glob_of_resolverOf h'.resolver_eq] at hanswer
  have htoken : unit.token ≠ token := by
    intro heq
    rw [heq, hfault] at hanswer
    exact absurd hanswer (by simp)
  rw [← halike.answer_eq unit.token htoken] at hanswer
  have hfound := halike.absolute_eq unit.token htoken found hanswer
  rw [← Resolver.candidates_eq_of_alike h.resolver_eq h'.resolver_eq hfound] at hone
  rw [← glob_of_resolverOf h.resolver_eq] at hanswer
  exact hread unit hunit found hanswer path hone

end Failure

/-! ## The law -/

theorem filter_unitsUnder (key : Text × Text) (resolutions : List Resolution) (token : Text) :
    (unitsUnder key resolutions).filter (fun unit => unit.token ≠ token) =
      unitsUnder key (resolutions.filter fun resolution => resolution.unit.token ≠ token) := by
  unfold unitsUnder
  rw [List.filter_map, List.filter_filter, List.filter_filter]
  congr 2
  funext resolution
  exact Bool.and_comm _ _

/-- When the answer for one token changes, units with other tokens stay what they are: they have the
same resolutions, which the reports show at the same places and in the same order. When the search for
the token fails, there still is a report, and units with the token are entries that say so. All
resolutions arrive, in any order. -/
theorem other_units_undisturbed (machine : Machine) (settings : Settings) (source : Option Text)
    (token : Text) (provider provider' : Provider) (deliver deliver' : List Resolution → List Resolution)
    (hdeliver : ∀ resolutions, (deliver resolutions).Perm resolutions)
    (hdeliver' : ∀ resolutions, (deliver' resolutions).Perm resolutions)
    (halike : AnswersAlike machine.workingDirectory settings.rootGlob token provider provider')
    (report : Report) (hrun : (machine.run settings provider source deliver).outcome = .ok report) :
    (∀ report', (machine.run settings provider' source deliver').outcome = .ok report' →
      ∃ nodes resolver resolver' resolutions resolutions',
        RunStages machine settings provider source nodes resolver resolutions ∧
        RunStages machine settings provider' source nodes resolver' resolutions' ∧
        report.Mirrors resolutions ∧ report'.Mirrors resolutions' ∧
        List.Forall₂ (fun resolution resolution' =>
          resolution.unit.token = resolution'.unit.token ∧
            (resolution.unit.token ≠ token → resolution = resolution')) resolutions resolutions' ∧
        (∀ path query,
          report.rulesUnder path query = (unitsUnder (path, query) resolutions).map (·.rule) ∧
          report'.rulesUnder path query = (unitsUnder (path, query) resolutions').map (·.rule) ∧
          (unitsUnder (path, query) resolutions).filter (fun unit => unit.token ≠ token) =
            (unitsUnder (path, query) resolutions').filter fun unit => unit.token ≠ token) ∧
        report.unresolved.filter (fun entry => entry.unit.token ≠ token) =
          report'.unresolved.filter fun entry => entry.unit.token ≠ token) ∧
    (∀ fault, provider'.answer ⟨token, settings.rootGlob⟩ = .error fault → fault.isHandled = true →
      ∃ nodes resolver' resolutions' report',
        RunStages machine settings provider' source nodes resolver' resolutions' ∧
        (machine.run settings provider' source deliver').outcome = .ok report' ∧
        ∀ unit ∈ unitsOf nodes, unit.token = token →
          ⟨{ unit with origins := some [] }, .failed, token, fault.message⟩ ∈ report'.unresolved) := by
  obtain ⟨nodes, resolver, resolutions, hstages, hcollect⟩ := exists_runStages_of_outcome_eq_ok hrun
  obtain ⟨text, htext, hnodes⟩ := hstages.parsed
  have hmirrors := hstages.mirrors (hdeliver resolutions) hcollect
  have hsorted := hstages.inSourceOrder
  constructor
  · intro report' hrun'
    obtain ⟨nodes', resolver', resolutions', hstages', hcollect'⟩ :=
      exists_runStages_of_outcome_eq_ok hrun'
    obtain ⟨rfl, -⟩ := hstages'.eq_of_stages htext hnodes hstages'.resolver_eq
    have hmirrors' := hstages'.mirrors (hdeliver' resolutions') hcollect'
    have hsorted' := hstages'.inSourceOrder
    have halike := hstages.alike halike hstages'
    have hothers : (resolutions.filter fun resolution => resolution.unit.token ≠ token) =
        resolutions'.filter fun resolution => resolution.unit.token ≠ token := by
      refine filter_eq_of_forall₂ (halike.imp fun resolution resolution' h => ?_)
      exact ⟨by rw [h.1], fun hother => h.2 (by simpa using hother)⟩
    refine ⟨nodes, resolver, resolver', resolutions, resolutions', hstages, hstages', hmirrors,
      hmirrors', halike, fun path query => ⟨?_, ?_, ?_⟩, ?_⟩
    · exact hmirrors.rulesUnder_eq hsorted path query
    · exact hmirrors'.rulesUnder_eq hsorted' path query
    · rw [filter_unitsUnder, filter_unitsUnder, hothers]
    · rw [hmirrors.unresolved_eq hsorted, hmirrors'.unresolved_eq hsorted', List.filter_comm, hothers,
        List.filter_comm]
  · intro fault hfault hhandled
    obtain ⟨resolver', resolutions', hstages'⟩ := hstages.exists_of_failure halike hfault hhandled
    obtain ⟨report', hrun'⟩ := exists_report_of_failure halike hstages (hdeliver resolutions) hrun
      hfault hstages' (hdeliver' resolutions')
    refine ⟨nodes, resolver', resolutions', report', hstages', hrun', fun unit hunit htoken => ?_⟩
    have hmirrors' := hstages'.mirrors (hdeliver' resolutions') (hstages'.outcome_eq.symm.trans hrun')
    rw [hmirrors'.unresolved_eq hstages'.inSourceOrder]
    exact List.mem_filter.mpr ⟨hstages'.failed hfault hunit htoken, rfl⟩

/-- One of three units is ambiguous at first; then its search fails. -/
theorem other_units_undisturbed_failing :
    let failing : Table := { sampleTable with failures := [".b"] }
    AnswersAlike bareMachine.workingDirectory none ".b" sampleTable.provider failing.provider ∧
      ∃ report report',
        (bareMachine.run { inputPath := "main.css" } sampleTable.provider (some sampleSource)
          id).outcome = .ok report ∧
        (bareMachine.run { inputPath := "main.css" } failing.provider (some sampleSource)
          List.reverse).outcome = .ok report' ∧
        report.unresolved.filter (fun entry => entry.unit.token ≠ ".b".toList) =
          report'.unresolved.filter fun entry => entry.unit.token ≠ ".b".toList := by
  intro failing
  have halike : AnswersAlike bareMachine.workingDirectory none ".b" sampleTable.provider
      failing.provider := by
    refine ⟨fun other hother => ?_, fun other hother found hfound path hpath hempty => rfl⟩
    have hcontains : [".b".toList].contains other = false := by simpa using hother
    show sampleTable.answer ⟨other, none⟩ = failing.answer ⟨other, none⟩
    simp only [Table.answer, failing, hcontains]
    rfl
  have hfailed : failing.provider.answer ⟨".b", none⟩ =
      .error (.search ("Search failed for " ++ Text.quoted ".b") []) := by
    show failing.answer ⟨".b", none⟩ = _
    have hcontains : [".b".toList].contains ".b".toList = true := by simp
    simp only [Table.answer, failing, hcontains]
    rfl
  have hsome : (bareMachine.run { inputPath := "main.css" } sampleTable.provider (some sampleSource)
      id).outcome.isOk = true := by decide +kernel
  obtain ⟨report, hrun⟩ := isOk_iff_exists.mp hsome
  have hlaw := other_units_undisturbed bareMachine { inputPath := "main.css" } (some sampleSource) ".b"
    sampleTable.provider failing.provider id List.reverse (fun _ => List.Perm.refl _)
    List.reverse_perm halike report hrun
  obtain ⟨-, -, -, report', -, hrun', -⟩ := hlaw.2 _ hfailed rfl
  obtain ⟨-, -, -, -, -, -, -, -, -, -, -, hunresolved⟩ := hlaw.1 report' hrun'
  exact ⟨halike, report, report', hrun, hrun', hunresolved⟩

/-- A match that is named like the input file. -/
def namesakeTable (directory : Option Text) : Table :=
  ⟨[(".a", ["main.less"])], [], [], directory⟩

/-- The files and the tokens of the entries that a run with the match comes to. -/
def namesakeView (directory : Option Text) : Except RunFault (List Text × List Text) :=
  (bareMachine.run { inputPath := "main.less" } (namesakeTable directory).provider (some singleSource)
    id).outcome.map fun report =>
      (report.files.map Prod.fst, report.unresolved.map fun entry => entry.unit.token)

/-- Two providers answer every search with the same texts. Where the match is the input file it is no
origin; in another directory it is one. -/
theorem other_directory_disturbs :
    (∀ search, (namesakeTable none).provider.answer search =
      (namesakeTable (some "/work/sub")).provider.answer search) ∧
    namesakeView none = .ok ([], [".a"]) ∧
    namesakeView (some "/work/sub") = .ok (["main.less"], []) := by
  refine ⟨fun search => ?_, by decide +kernel, by decide +kernel⟩
  show (namesakeTable none).answer search = (namesakeTable _).answer search
  unfold Table.answer namesakeTable
  rfl

end StyleOrigin
