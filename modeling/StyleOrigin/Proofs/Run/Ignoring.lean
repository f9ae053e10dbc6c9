import StyleOrigin.Proofs.Resolver.Routing
import StyleOrigin.Proofs.Run.Completion
import StyleOrigin.Proofs.Run.SourceOrder

/-! # Ignoring more files

Two runs, of which the second one ignores further paths. It searches for the same words and finds the same
matches, so a unit can only lose candidates. It never has a file that it did not have as a candidate: what
was attributed stays where it is or has no match any more, and what was ambiguous may be settled.

* `Settings.ignoring`, `IsNewlyIgnored`: settings with further ignored paths, and the paths that they name.
* `Resolver.candidates_ignoring`: the candidates that are left.
* `Resolution.Narrows`: what becomes of a resolution that loses candidates.
* `ignoring_more_reattributes_nothing`: the reports of both runs, unit by unit.
-/
set_option autoImplicit false

namespace StyleOrigin

open Css

/-! ## Further ignored paths -/

/-- Settings under which further paths are never origins. -/
def Settings.ignoring (settings : Settings) (more : List Text) : Settings :=
  { settings with ignore := settings.ignore ++ more }

/-- A path stands for the same file as one of the further ignored paths. -/
def IsNewlyIgnored (workingDirectory : Text) (directory : Option Text) (more : List Text) (path : Text) :
    Prop :=
  ∃ form, Path.absolute workingDirectory directory path = .ok form ∧
    ∃ given ∈ more, Path.absolute workingDirectory none given = .ok form

theorem Settings.mem_ignoredPaths_ignoring {settings : Settings} {more : List Text} {path : Text} :
    path ∈ (settings.ignoring more).ignoredPaths ↔
      path ∈ settings.ignoredPaths ∨ ∃ given ∈ more, Path.normalize given = path := by
  simp only [ignoredPaths, ignoring, List.mem_eraseDups, List.map_cons, List.map_append, List.mem_cons,
    List.mem_append, List.mem_map, or_assoc]

theorem Machine.input_ignoring (machine : Machine) (settings : Settings) (more : List Text)
    (source : Option Text) : machine.input (settings.ignoring more) source = machine.input settings source :=
  rfl

section Resolver
variable {machine : Machine} {settings : Settings} {provider : Provider} {more : List Text}
  {resolver resolver' : Resolver}

theorem exists_resolverOf_ignoring (hmore : ∀ given ∈ more, '\x00' ∉ given)
    (hdirectory : '\x00' ∉ machine.workingDirectory)
    (h : machine.resolverOf settings provider = .ok resolver) :
    ∃ resolver', machine.resolverOf (settings.ignoring more) provider = .ok resolver' := by
  have hforms : ∀ path ∈ (settings.ignoring more).ignoredPaths,
      ∃ form, Path.absolute machine.workingDirectory none path = .ok form := by
    intro path hpath
    obtain hold | ⟨given, hgiven, rfl⟩ := Settings.mem_ignoredPaths_ignoring.mp hpath
    · exact exists_mapM_eq_ok_iff.mp ⟨_, (resolverOf_eq_ok h).1⟩ path hold
    · rw [Path.absolute_normalize _ (hmore given hgiven)]
      exact Path.exists_absolute_eq_ok hdirectory (hmore given hgiven)
  obtain ⟨ignored, hignored⟩ := exists_mapM_eq_ok hforms
  exact ⟨_, resolverOf_eq_ok_iff.mpr ⟨ignored, hignored, rfl⟩⟩

/-- What is ignored now was ignored before, or is named by one of the further paths. -/
theorem mem_ignored_ignoring (hmore : ∀ given ∈ more, '\x00' ∉ given)
    (h : machine.resolverOf settings provider = .ok resolver)
    (h' : machine.resolverOf (settings.ignoring more) provider = .ok resolver') (form : Text) :
    form ∈ resolver'.ignored ↔ form ∈ resolver.ignored ∨
      ∃ given ∈ more, Path.absolute machine.workingDirectory none given = .ok form := by
  rw [mem_of_mapM_eq_ok (resolverOf_eq_ok h').1, mem_of_mapM_eq_ok (resolverOf_eq_ok h).1]
  simp only [Settings.mem_ignoredPaths_ignoring, or_and_right, exists_or]
  refine or_congr_right ⟨?_, ?_⟩
  · rintro ⟨_, ⟨given, hgiven, rfl⟩, hform⟩
    exact ⟨given, hgiven, (Path.absolute_normalize _ (hmore given hgiven)).symm.trans hform⟩
  · rintro ⟨given, hgiven, hform⟩
    exact ⟨_, ⟨given, hgiven, rfl⟩, (Path.absolute_normalize _ (hmore given hgiven)).trans hform⟩

theorem qualifies_ignoring (hmore : ∀ given ∈ more, '\x00' ∉ given)
    (h : machine.resolverOf settings provider = .ok resolver)
    (h' : machine.resolverOf (settings.ignoring more) provider = .ok resolver') (path : Text) :
    resolver'.qualifies path = .ok true ↔ resolver.qualifies path = .ok true ∧
      ¬IsNewlyIgnored machine.workingDirectory provider.directory more path := by
  have hignored := mem_ignored_ignoring hmore h h'
  obtain ⟨ignored, -, rfl⟩ := resolverOf_eq_ok_iff.mp h
  obtain ⟨ignored', -, rfl⟩ := resolverOf_eq_ok_iff.mp h'
  simp only [Resolver.qualifies_eq_true_iff, hignored, not_or, IsNewlyIgnored]
  constructor
  · rintro ⟨hpath, hextension, form, hform, hold, hnew⟩
    refine ⟨⟨hpath, hextension, form, hform, hold⟩, ?_⟩
    rintro ⟨form', hform', hgiven⟩
    obtain rfl : form = form' := Except.ok.inj (hform.symm.trans hform')
    exact hnew hgiven
  · rintro ⟨⟨hpath, hextension, form, hform, hold⟩, hnew⟩
    exact ⟨hpath, hextension, form, hform, hold, fun hgiven => hnew ⟨form, hform, hgiven⟩⟩

theorem glob_ignoring (h : machine.resolverOf settings provider = .ok resolver)
    (h' : machine.resolverOf (settings.ignoring more) provider = .ok resolver') :
    resolver'.glob = resolver.glob := by
  rw [glob_of_resolverOf h, glob_of_resolverOf h']
  rfl

/-- The candidates that are left when further paths are ignored. -/
theorem Resolver.candidates_ignoring (hmore : ∀ given ∈ more, '\x00' ∉ given)
    (h : machine.resolverOf settings provider = .ok resolver)
    (h' : machine.resolverOf (settings.ignoring more) provider = .ok resolver')
    {found candidates : List Text} (hfound : resolver.candidates found = .ok candidates) :
    resolver'.candidates found =
      .ok (candidates.filter fun path => resolver'.qualifies path = .ok true) := by
  have hnull : ∃ candidates', resolver'.candidates found = .ok candidates' := by
    have hsome := exists_candidates_eq_ok_iff.mp ⟨candidates, hfound⟩
    obtain ⟨ignored, -, rfl⟩ := resolverOf_eq_ok_iff.mp h
    obtain ⟨ignored', -, rfl⟩ := resolverOf_eq_ok_iff.mp h'
    exact exists_candidates_eq_ok_iff.mpr hsome
  obtain ⟨candidates', hfound'⟩ := hnull
  obtain ⟨-, rfl⟩ := candidates_eq_ok_iff_eraseDups.mp hfound
  obtain ⟨-, rfl⟩ := candidates_eq_ok_iff_eraseDups.mp hfound'
  rw [hfound', List.filter_filter]
  refine congrArg Except.ok (List.filter_congr fun path _ => ?_)
  by_cases hkept : resolver'.qualifies path = .ok true
  · have hbefore : resolver.qualifies path = .ok true :=
      ((qualifies_ignoring hmore h h' path).mp hkept).1
    rw [decide_eq_true hkept, decide_eq_true hbefore, Bool.and_true]
  · rw [decide_eq_false hkept, Bool.false_and]

end Resolver

/-! ## One search -/

/-- A resolution after another one of the same unit, with those candidates that are not lost. A resolved
unit stays as it is or has no match any more, and a unit without candidates stays as it is. An origin was
a candidate before, and nothing changes unless a candidate is lost. -/
structure Resolution.Narrows (isLost : Text → Prop) (before after : Resolution) : Prop where
  unit_eq : after.unit = { before.unit with origins := after.unit.origins }
  token_eq : after.token = before.token
  of_resolved : before.status = .resolved → ∃ path, before.origin = some path ∧
    ((after.status = .resolved ∧ after.origin = some path) ∨ after.status = .unmatched)
  of_unmatched : before.status = .unmatched → after.status = .unmatched
  failed_iff : after.status = .failed ↔ before.status = .failed
  sublist : after.candidates.Sublist before.candidates
  mem_candidates : ∀ path, path ∈ after.candidates ↔ path ∈ before.candidates ∧ ¬isLost path
  origin_mem : ∀ path, after.origin = some path → path ∈ before.candidates
  exists_lost : after ≠ before → ∃ path ∈ before.candidates, isLost path

namespace Resolution
variable {isLost : Text → Prop} {unit : StyleUnit} {candidates : List Text} {token error : Text}

theorem narrows_filter {keeps : Text → Bool}
    (hkeeps : ∀ path ∈ candidates, keeps path = true ↔ ¬isLost path) :
    Narrows isLost ⟨{ unit with origins := some candidates }, .ofCandidates candidates, token, error⟩
      ⟨{ unit with origins := some (candidates.filter keeps) }, .ofCandidates (candidates.filter keeps),
        token, error⟩ where
  unit_eq := rfl
  token_eq := rfl
  of_resolved := by
    intro hresolved
    obtain ⟨path, rfl⟩ := List.length_eq_one_iff.mp (Status.ofCandidates_eq_resolved_iff.mp hresolved)
    refine ⟨path, rfl, ?_⟩
    cases hpath : keeps path with
    | true =>
      rw [List.filter_cons_of_pos hpath, List.filter_nil]
      exact .inl ⟨rfl, rfl⟩
    | false =>
      rw [List.filter_cons_of_neg (by simp [hpath]), List.filter_nil]
      exact .inr rfl
  of_unmatched := by
    intro hunmatched
    obtain rfl := List.length_eq_zero_iff.mp (Status.ofCandidates_eq_unmatched_iff.mp hunmatched)
    rfl
  failed_iff := by simp [Status.ofCandidates_ne_failed]
  sublist := List.filter_sublist
  mem_candidates := by
    intro path
    show path ∈ candidates.filter keeps ↔ path ∈ candidates ∧ _
    rw [List.mem_filter]
    exact and_congr_right (hkeeps path)
  origin_mem := by
    intro path horigin
    have hone := origin_ofCandidates_eq_some_iff.mp horigin
    have hmem : path ∈ candidates.filter keeps := by rw [hone]; exact List.mem_singleton_self path
    exact List.mem_of_mem_filter hmem
  exists_lost := by
    intro hchanged
    by_contra hnone
    have hall : candidates.filter keeps = candidates :=
      List.filter_eq_self.mpr fun path hpath =>
        (hkeeps path hpath).mpr fun hlost => hnone ⟨path, hpath, hlost⟩
    rw [hall] at hchanged
    exact hchanged rfl

theorem narrows_failed (isLost : Text → Prop) :
    Narrows isLost ⟨{ unit with origins := some [] }, .failed, token, error⟩
      ⟨{ unit with origins := some [] }, .failed, token, error⟩ where
  unit_eq := rfl
  token_eq := rfl
  of_resolved := by simp
  of_unmatched := by simp
  failed_iff := Iff.rfl
  sublist := List.Sublist.refl _
  mem_candidates := by simp [Resolution.candidates]
  origin_mem := by simp [origin]
  exists_lost := fun hchanged => absurd rfl hchanged

end Resolution

section Runs
variable {machine : Machine} {settings : Settings} {provider : Provider} {more : List Text}
  {source : Option Text} {resolver resolver' : Resolver} {nodes : List Node}
  {resolutions resolutions' : List Resolution}

theorem Resolver.narrows_of_resolve_eq_ok (hmore : ∀ given ∈ more, '\x00' ∉ given)
    (h : machine.resolverOf settings provider = .ok resolver)
    (h' : machine.resolverOf (settings.ignoring more) provider = .ok resolver') {unit : StyleUnit}
    (hunit : unit.origins = none) {before after : Resolution}
    (hbefore : (resolver.resolve provider unit).outcome = .ok before)
    (hafter : (resolver'.resolve provider unit).outcome = .ok after) :
    before.Narrows (IsNewlyIgnored machine.workingDirectory provider.directory more) after := by
  have hglob := glob_ignoring h h'
  have hafter := (resolve_eq_ok_iff hunit).mp hafter
  rw [hglob] at hafter
  obtain ⟨fault, hanswer, -, rfl⟩ | ⟨found, candidates, hanswer, hfound, rfl⟩ :=
    (resolve_eq_ok_iff hunit).mp hbefore
  · obtain ⟨fault', hanswer', -, rfl⟩ | ⟨_, _, hanswer', -, -⟩ := hafter
    · obtain rfl : fault = fault' := Except.error.inj (hanswer.symm.trans hanswer')
      exact Resolution.narrows_failed _
    · exact absurd (hanswer.symm.trans hanswer') (by simp)
  · obtain ⟨_, hanswer', -, -⟩ | ⟨found', candidates', hanswer', hfound', rfl⟩ := hafter
    · exact absurd (hanswer.symm.trans hanswer') (by simp)
    · obtain rfl : found = found' := Except.ok.inj (hanswer.symm.trans hanswer')
      rw [candidates_ignoring hmore h h' hfound] at hfound'
      obtain rfl := Except.ok.inj hfound'
      refine Resolution.narrows_filter fun path hpath => ?_
      have hold := ((mem_candidates hfound path).mp hpath).2
      rw [decide_eq_true_iff, qualifies_ignoring hmore h h', and_iff_right hold]

/-- Where the search for a unit comes to a resolution, it does so when further paths are ignored. -/
theorem Resolver.exists_resolve_ignoring (hmore : ∀ given ∈ more, '\x00' ∉ given)
    (h : machine.resolverOf settings provider = .ok resolver)
    (h' : machine.resolverOf (settings.ignoring more) provider = .ok resolver') {unit : StyleUnit}
    (hunit : unit.origins = none) {before : Resolution}
    (hbefore : (resolver.resolve provider unit).outcome = .ok before) :
    ∃ after, (resolver'.resolve provider unit).outcome = .ok after := by
  have hglob := glob_ignoring h h'
  obtain ⟨fault, hanswer, hhandled, -⟩ | ⟨found, candidates, hanswer, hfound, -⟩ :=
    (resolve_eq_ok_iff hunit).mp hbefore
  · rw [← hglob] at hanswer
    exact ⟨_, (resolve_eq_ok_iff hunit).mpr (.inl ⟨fault, hanswer, hhandled, rfl⟩)⟩
  · rw [← hglob] at hanswer
    exact ⟨_, (resolve_eq_ok_iff hunit).mpr
      (.inr ⟨found, _, hanswer, candidates_ignoring hmore h h' hfound, rfl⟩)⟩

/-- A run that gets past its searches does so when further paths are ignored. -/
theorem RunStages.exists_ignoring (hmore : ∀ given ∈ more, '\x00' ∉ given)
    (hdirectory : '\x00' ∉ machine.workingDirectory)
    (h : RunStages machine settings provider source nodes resolver resolutions) :
    ∃ resolver' resolutions',
      RunStages machine (settings.ignoring more) provider source nodes resolver' resolutions' := by
  obtain ⟨text, htext, hnodes⟩ := h.parsed
  rw [← Machine.input_ignoring machine settings more] at htext
  obtain ⟨resolver', hresolver'⟩ := exists_resolverOf_ignoring hmore hdirectory h.resolver_eq
  refine ⟨resolver', (exists_runStages_iff htext hnodes hresolver').mpr fun unit hunit => ?_⟩
  obtain ⟨resolution, -, hresolved⟩ := exists_of_mem_forall₂_left h.resolved hunit
  exact Resolver.exists_resolve_ignoring hmore h.resolver_eq hresolver' (origins_of_mem_unitsOf hunit)
    hresolved

/-- The resolutions of both runs, unit by unit. -/
theorem RunStages.narrows (hmore : ∀ given ∈ more, '\x00' ∉ given)
    (h : RunStages machine settings provider source nodes resolver resolutions)
    (h' : RunStages machine (settings.ignoring more) provider source nodes resolver' resolutions') :
    List.Forall₂
      (Resolution.Narrows (IsNewlyIgnored machine.workingDirectory provider.directory more))
      resolutions resolutions' := by
  refine forall₂_of_forall₂ h.resolved h'.resolved fun unit hunit before after hbefore hafter => ?_
  exact Resolver.narrows_of_resolve_eq_ok hmore h.resolver_eq h'.resolver_eq
    (origins_of_mem_unitsOf hunit) hbefore hafter

end Runs

/-! ## The law -/

/-- When further paths are ignored, no unit gets a candidate that it did not have, so what is resolved
stays where it is or has no match any more. Both reports show their resolutions unit by unit. If there
was a report there is one again, unless the query of a unit that has an origin now cannot be read. All
resolutions arrive, in any order. -/
theorem ignoring_more_reattributes_nothing (machine : Machine) (settings : Settings)
    (provider : Provider) (source : Option Text) (more : List Text)
    (deliver deliver' : List Resolution → List Resolution)
    (hdeliver : ∀ resolutions, (deliver resolutions).Perm resolutions)
    (hdeliver' : ∀ resolutions, (deliver' resolutions).Perm resolutions)
    (hmore : ∀ given ∈ more, '\x00' ∉ given) (report : Report)
    (hrun : (machine.run settings provider source deliver).outcome = .ok report) :
    ('\x00' ∉ machine.workingDirectory → ∀ fault,
      (machine.run (settings.ignoring more) provider source deliver').outcome = .error fault →
        ∃ overlong, fault = .parse overlong) ∧
    ∀ report', (machine.run (settings.ignoring more) provider source deliver').outcome = .ok report' →
      ∃ nodes resolver resolver' resolutions resolutions',
        RunStages machine settings provider source nodes resolver resolutions ∧
        RunStages machine (settings.ignoring more) provider source nodes resolver' resolutions' ∧
        report.Mirrors resolutions ∧ report'.Mirrors resolutions' ∧
        List.Forall₂
          (Resolution.Narrows (IsNewlyIgnored machine.workingDirectory provider.directory more))
          resolutions resolutions' ∧
        (∀ path query,
          report.rulesUnder path query = (unitsUnder (path, query) resolutions).map (·.rule) ∧
          report'.rulesUnder path query = (unitsUnder (path, query) resolutions').map (·.rule)) ∧
        report.unresolved = resolutions.filter (fun resolution => resolution.origin.isNone) ∧
        report'.unresolved = resolutions'.filter fun resolution => resolution.origin.isNone := by
  obtain ⟨nodes, resolver, resolutions, hstages, hcollect⟩ := exists_runStages_of_outcome_eq_ok hrun
  constructor
  · intro hdirectory fault hfault
    obtain ⟨resolver', resolutions', hstages'⟩ := hstages.exists_ignoring hmore hdirectory
    have hlength : (unitsOf nodes).length = (deliver' resolutions').length :=
      hstages'.resolved.length_eq.trans (hdeliver' resolutions').length_eq.symm
    rw [hstages'.outcome_eq, hlength] at hfault
    exact collect_eq_error hfault
  · intro report' hrun'
    obtain ⟨nodes', resolver', resolutions', hstages', hcollect'⟩ :=
      exists_runStages_of_outcome_eq_ok hrun'
    -- Both runs read the same stylesheet.
    obtain ⟨text, htext, hnodes⟩ := hstages.parsed
    rw [← Machine.input_ignoring machine settings more] at htext
    obtain ⟨rfl, -⟩ := hstages'.eq_of_stages htext hnodes hstages'.resolver_eq
    have hmirrors := hstages.mirrors (hdeliver resolutions) hcollect
    have hmirrors' := hstages'.mirrors (hdeliver' resolutions') hcollect'
    refine ⟨nodes, resolver, resolver', resolutions, resolutions', hstages, hstages', hmirrors, hmirrors',
      hstages.narrows hmore hstages', fun path query => ⟨?_, ?_⟩, ?_, ?_⟩
    · exact hmirrors.rulesUnder_eq hstages.inSourceOrder path query
    · exact hmirrors'.rulesUnder_eq hstages'.inSourceOrder path query
    · exact hmirrors.unresolved_eq hstages.inSourceOrder
    · exact hmirrors'.unresolved_eq hstages'.inSourceOrder

/-- The file of a resolved unit is ignored, under another spelling. The unit has no match any more, and one
that was ambiguous is settled. -/
theorem ignoring_more_reattributes_nothing_settled :
    let settings : Settings := { inputPath := "main.css" }
    let more : List Text := ["styles/../a.less"]
    (∀ given ∈ more, '\x00' ∉ given) ∧
      ∃ report report' resolutions resolutions',
        (bareMachine.run settings sampleTable.provider (some sampleSource) id).outcome = .ok report ∧
        (bareMachine.run (settings.ignoring more) sampleTable.provider (some sampleSource)
          List.reverse).outcome = .ok report' ∧
        report.files.map Prod.fst = ["a.less"] ∧ report'.files.map Prod.fst = ["b.less"] ∧
        report.Mirrors resolutions ∧ report'.Mirrors resolutions' ∧
        List.Forall₂ (Resolution.Narrows (IsNewlyIgnored "/work" none more)) resolutions resolutions' := by
  intro settings more
  have hmore : ∀ given ∈ more, '\x00' ∉ given := by decide +kernel
  have hbefore : (bareMachine.run settings sampleTable.provider (some sampleSource)
      id).outcome.map (fun report => report.files.map Prod.fst) = .ok ["a.less"] := by decide +kernel
  have hafter : (bareMachine.run (settings.ignoring more) sampleTable.provider (some sampleSource)
      List.reverse).outcome.map (fun report => report.files.map Prod.fst) = .ok ["b.less"] := by
    decide +kernel
  obtain ⟨report, hrun, hfiles⟩ := exists_of_map_eq_ok hbefore
  obtain ⟨report', hrun', hfiles'⟩ := exists_of_map_eq_ok hafter
  obtain ⟨-, hreports⟩ := ignoring_more_reattributes_nothing bareMachine settings sampleTable.provider
    (some sampleSource) more id List.reverse (fun _ => List.Perm.refl _) List.reverse_perm hmore report
    hrun
  obtain ⟨-, -, -, resolutions, resolutions', -, -, hmirrors, hmirrors', hnarrows, -⟩ :=
    hreports report' hrun'
  exact ⟨hmore, report, report', resolutions, resolutions', hrun, hrun', hfiles, hfiles', hmirrors,
    hmirrors', hnarrows⟩

end StyleOrigin
