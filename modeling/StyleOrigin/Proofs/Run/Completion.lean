import StyleOrigin.Proofs.Ledger.Mirror
import StyleOrigin.Proofs.Run.Conservation
import StyleOrigin.Proofs.Run.Ignored

/-! # When a run comes to a report

A search that fails is a resolution like others. What is found is looked at outside of the handling of
failures: a path with U+0000 has no absolute form, and the query of an attributed unit has to be read
again for its fragment, which an integer with too many digits does not allow. Nothing else keeps a run
from its report.

* `Resolver.origin_eq_some_iff`: which file a unit is attributed to.
* `ComesTo.exists_report_iff`: when a run comes to a report, by the answers to its units.
* `workers_complete_iff`, `run_completes_iff`: when a run comes to a report, and what it fails with
  otherwise; where each call is answered in its own way, and as a run is computed.
-/
set_option autoImplicit false

namespace StyleOrigin

open Css

/-! ## One answer -/

namespace Resolver
variable {resolver : Resolver} {unit : StyleUnit} {answer : Except SearchFault (List Text)}

/-- An answer that is a fault which is handled, or that finds something, can only be stopped by a path
that has no absolute form. -/
theorem eq_path_of_settle_eq_error (hunit : unit.origins = none)
    (hanswer : ∀ fault, answer = .error fault → fault.isHandled = true) {fault : Interruption}
    (h : (resolver.settle unit answer).outcome = .error fault) : fault = .path .embedded := by
  rw [outcome_settle] at h
  cases answer with
  | error fault =>
    cases fault with
    | foreign message => exact absurd (hanswer _ rfl) (by simp [SearchFault.isHandled])
    | search message command => simp [conclude_eq_ok hunit] at h
    | system message => simp [conclude_eq_ok hunit] at h
  | ok found =>
    cases hcandidates : resolver.candidates found with
    | ok candidates => simp [hcandidates, conclude_eq_ok hunit] at h
    | error null =>
      cases null
      simpa [hcandidates, eq_comm] using h

/-- A unit is attributed to the one candidate among what was found for it. -/
theorem origin_eq_some_iff {resolution : Resolution} {path : Text} (hunit : unit.origins = none)
    (h : (resolver.settle unit answer).outcome = .ok resolution) :
    resolution.origin = some path ↔
      ∃ found, answer = .ok found ∧ resolver.candidates found = .ok [path] := by
  rcases (settle_eq_ok_iff hunit).mp h with
    ⟨fault, hanswer, -, rfl⟩ | ⟨found, candidates, hanswer, hcandidates, rfl⟩
  · simp [Resolution.origin, hanswer]
  · rw [Resolution.origin_ofCandidates]
    simp only [hanswer, Except.ok.injEq, exists_eq_left', hcandidates]
    cases candidates with
    | nil => simp
    | cons candidate rest => cases rest <;> simp

end Resolver

/-! ## All answers -/

section Answers
variable {resolver : Resolver} {answered : List Answered} {outcome : Except RunFault Report}

/-- Resolutions are collected into a report if the queries of the units with one candidate can be read
again. -/
theorem exists_collect_iff {resolutions arrived : List Resolution}
    (hunits : ∀ given ∈ answered, given.unit.origins = none)
    (hresolved : List.Forall₂ (fun given resolution => given.result resolver = .ok resolution) answered
      resolutions)
    (harrived : arrived.Perm resolutions) :
    (∃ report, collect answered.length arrived = .ok report) ↔
      ∀ given ∈ answered, ∀ found, given.answer = .ok found → ∀ path,
        resolver.candidates found = .ok [path] →
        ∃ condition, tokens true given.unit.query = .ok condition := by
  have hlength : arrived.length = answered.length :=
    harrived.length_eq.trans hresolved.length_eq.symm
  simp only [collect_eq_ok_iff, hlength, true_and]
  rw [Ledger.exists_reportFor_iff (Ledger.records_addAll _)]
  simp only [harrived.mem_iff]
  constructor
  · intro hread given hgiven found hanswer path hone
    obtain ⟨resolution, hresolution, hresult⟩ := exists_of_mem_forall₂_left hresolved hgiven
    obtain ⟨candidates, hmade⟩ := Resolver.unit_of_settle_eq_ok (hunits given hgiven) hresult
    have horigin := (Resolver.origin_eq_some_iff (hunits given hgiven) hresult).mpr
      ⟨found, hanswer, hone⟩
    have hquery := hread resolution hresolution path horigin
    rwa [hmade] at hquery
  · intro hread resolution hresolution path horigin
    obtain ⟨given, hgiven, hresult⟩ := exists_of_mem_forall₂_right hresolved hresolution
    obtain ⟨candidates, hmade⟩ := Resolver.unit_of_settle_eq_ok (hunits given hgiven) hresult
    obtain ⟨found, hanswer, hone⟩ :=
      (Resolver.origin_eq_some_iff (hunits given hgiven) hresult).mp horigin
    rw [hmade]
    exact hread given hgiven found hanswer path hone

variable (hunits : ∀ given ∈ answered, given.unit.origins = none)
  (hhandled : ∀ given ∈ answered, ∀ fault, given.answer = .error fault → fault.isHandled = true)
include hunits hhandled

theorem ComesTo.exists_report_iff (h : ComesTo resolver answered outcome) :
    (∃ report, outcome = .ok report) ↔
      ∀ given ∈ answered, ∀ found, given.answer = .ok found →
        (∃ candidates, resolver.candidates found = .ok candidates) ∧
        ∀ path, resolver.candidates found = .ok [path] →
          ∃ condition, tokens true given.unit.query = .ok condition := by
  have hsettles : ∀ given ∈ answered, ((∃ resolution, given.result resolver = .ok resolution) ↔
      ∀ found, given.answer = .ok found → ∃ candidates, resolver.candidates found = .ok candidates) :=
    fun given hgiven => (Resolver.exists_settle_eq_ok_iff (hunits given hgiven)).trans
      (and_iff_right (hhandled given hgiven))
  cases h with
  | @stopped given fault mem fails =>
    refine ⟨fun ⟨report, hreport⟩ => absurd hreport (by simp), fun hall => ?_⟩
    obtain ⟨resolution, hresult⟩ :=
      (hsettles given mem).mpr fun found hanswer => (hall given mem found hanswer).1
    exact absurd (fails.symm.trans hresult) (by simp)
  | @collected resolutions arrived resolved arrives =>
    rw [exists_collect_iff hunits resolved arrives]
    refine ⟨fun hread given hgiven found hanswer => ⟨?_, hread given hgiven found hanswer⟩,
      fun hall given hgiven found hanswer => (hall given hgiven found hanswer).2⟩
    obtain ⟨resolution, -, hresult⟩ := exists_of_mem_forall₂_left resolved hgiven
    exact (hsettles given hgiven).mp ⟨resolution, hresult⟩ found hanswer

/-- What keeps a run from its report is a path without an absolute form, or a query. -/
theorem ComesTo.eq_error (h : ComesTo resolver answered outcome) {fault : RunFault}
    (hfault : outcome = .error fault) :
    fault = .interrupted (.path .embedded) ∨ ∃ overlong, fault = .parse overlong := by
  cases h with
  | @stopped given stop mem fails =>
    obtain rfl := Resolver.eq_path_of_settle_eq_error (hunits given mem) (hhandled given mem) fails
    exact .inl (Except.error.inj hfault).symm
  | @collected resolutions arrived resolved arrives =>
    rw [resolved.length_eq, ← arrives.length_eq] at hfault
    exact .inr (collect_eq_error hfault)

end Answers

/-! ## A whole run -/

section Run
variable {machine : Machine} {settings : Settings} {provider : Provider} {source : Option Text}
  {deliver : List Resolution → List Resolution} {text : Text} {nodes : List Node} {resolver : Resolver}

theorem RunStages.eq_of_stages {nodes' : List Node} {resolver' : Resolver}
    {resolutions : List Resolution}
    (h : RunStages machine settings provider source nodes' resolver' resolutions)
    (hinput : (machine.input settings source).outcome = .ok text) (hnodes : parse text = .ok nodes)
    (hresolver : machine.resolverOf settings provider = .ok resolver) :
    nodes = nodes' ∧ resolver = resolver' :=
  Prepared.unique ⟨⟨text, hinput, hnodes⟩, hresolver⟩ ⟨h.parsed, h.resolver_eq⟩

/-- There is a report if the queries of the units with one candidate can be read again. -/
theorem RunStages.exists_report_iff {resolutions : List Resolution}
    (h : RunStages machine settings provider source nodes resolver resolutions)
    (hdeliver : (deliver resolutions).Perm resolutions) :
    (∃ report, (machine.run settings provider source deliver).outcome = .ok report) ↔
      ∀ unit ∈ unitsOf nodes, ∀ found,
        provider.answer ⟨unit.token, resolver.glob⟩ = .ok found → ∀ path,
        resolver.candidates found = .ok [path] →
        ∃ condition, tokens true unit.query = .ok condition := by
  have hunits : ∀ given ∈ (unitsOf nodes).map (provider.answered resolver), given.unit.origins = none :=
    List.forall_mem_map.mpr fun unit => origins_of_mem_unitsOf
  have hcollect := exists_collect_iff hunits h.forall₂_answered hdeliver
  rw [List.length_map, List.forall_mem_map] at hcollect
  rw [h.outcome_eq]
  exact hcollect

theorem exists_runStages_iff (hinput : (machine.input settings source).outcome = .ok text)
    (hnodes : parse text = .ok nodes) (hresolver : machine.resolverOf settings provider = .ok resolver) :
    (∃ resolutions, RunStages machine settings provider source nodes resolver resolutions) ↔
      ∀ unit ∈ unitsOf nodes, ∃ resolution,
        (resolver.resolve provider unit).outcome = .ok resolution := by
  rw [← exists_mapM_eq_ok_iff]
  simp only [mapM_eq_ok_iff]
  exact ⟨fun ⟨resolutions, hstages⟩ => ⟨resolutions, hstages.resolved⟩,
    fun ⟨resolutions, hresolved⟩ => ⟨resolutions, ⟨text, hinput, hnodes⟩, hresolver, hresolved⟩⟩

end Run

/-- A run whose searches are made by workers, on a stylesheet that can be read, comes to a report if no
match that a unit was answered with leads to a path with U+0000 and the queries of the attributed units,
whose blanks are squeezed, hold no integer with too many digits. Each call may be answered in its own way.
Failed searches are never in the way. -/
theorem workers_complete_iff (machine : Machine) (settings : Settings) (provider : Provider)
    (answers : Answers) (source : Option Text) (text : Text) (nodes : List Node)
    (hinput : (machine.input settings source).outcome = .ok text) (hnodes : parse text = .ok nodes)
    (hpaths : ∀ path ∈ settings.givenPaths, '\x00' ∉ path)
    (hdirectory : '\x00' ∉ machine.workingDirectory)
    (hanswers : ∀ unit ∈ unitsOf nodes, ∀ answer, answers ⟨unit.token, settings.rootGlob⟩ answer →
      ∀ message, answer ≠ .error (.foreign message))
    {outcome : Except RunFault Report} {calls : List Search}
    (hends : machine.Ends settings provider answers source outcome calls) :
    ∃ answered : List Answered, answered.map Answered.unit = unitsOf nodes ∧
      (∀ given ∈ answered, answers ⟨given.unit.token, settings.rootGlob⟩ given.answer) ∧
      ((∃ report, outcome = .ok report) ↔
        ∀ given ∈ answered, ∀ found, given.answer = .ok found →
          (∀ path ∈ found.map matchPath, path ≠ [] →
            '\x00' ∉ Path.join (Path.baseOf machine.workingDirectory provider.directory) path) ∧
          ∀ resolver path, machine.resolverOf settings provider = .ok resolver →
            resolver.candidates found = .ok [path] →
            ∀ numeral ∈ numeralsOf given.unit.query, ∀ digits, IsInteger numeral digits →
              digits ≤ OverlongInteger.limit) ∧
      ∀ fault, outcome = .error fault →
        fault = .interrupted (.path .embedded) ∨ ∃ overlong, fault = .parse overlong := by
  obtain ⟨resolver, hresolver⟩ :=
    @exists_resolverOf_eq_ok machine settings provider hpaths hdirectory
  obtain ⟨answered, hunits, hanswered, hcomes⟩ :=
    Prepared.exists_answered_of_ends ⟨⟨text, hinput, hnodes⟩, hresolver⟩ hends
  have hmem : ∀ given ∈ answered, given.unit ∈ unitsOf nodes :=
    fun given hgiven => hunits ▸ List.mem_map_of_mem hgiven
  have hglob : ∀ given ∈ answered, answers ⟨given.unit.token, settings.rootGlob⟩ given.answer := by
    rw [← glob_of_resolverOf hresolver]
    exact hanswered
  have horigins : ∀ given ∈ answered, given.unit.origins = none :=
    fun given hgiven => origins_of_mem_unitsOf (hmem given hgiven)
  have hhandled : ∀ given ∈ answered, ∀ fault, given.answer = .error fault → fault.isHandled = true := by
    intro given hgiven fault hfault
    refine SearchFault.isHandled_iff.mpr fun message hforeign => ?_
    exact hanswers _ (hmem given hgiven) _ (hglob given hgiven) message (hforeign ▸ hfault)
  refine ⟨answered, hunits, hglob, ?_, fun fault => hcomes.eq_error horigins hhandled⟩
  have hbase : Path.baseOf resolver.workingDirectory resolver.matchRoot =
      Path.baseOf machine.workingDirectory provider.directory := by
    obtain ⟨ignored, -, rfl⟩ := resolverOf_eq_ok_iff.mp hresolver
    rfl
  rw [hcomes.exists_report_iff horigins hhandled]
  simp only [Resolver.exists_candidates_eq_ok_iff, exists_tokens_iff, hbase]
  refine forall₂_congr fun given _ => forall₂_congr fun found _ => and_congr_right' ?_
  refine ⟨fun hread resolver' path hresolver' => ?_, fun hread path => hread resolver path hresolver⟩
  obtain rfl := Except.ok.inj (hresolver.symm.trans hresolver')
  exact hread path

/-- A run on a stylesheet that can be read comes to a report if no match leads to a path with U+0000 and
the queries of the attributed units, whose blanks are squeezed, hold no integer with too many digits.
Failed searches are never in the way. All resolutions arrive, in any order. -/
theorem run_completes_iff (machine : Machine) (settings : Settings) (provider : Provider)
    (source : Option Text) (deliver : List Resolution → List Resolution) (text : Text)
    (nodes : List Node) (hinput : (machine.input settings source).outcome = .ok text)
    (hnodes : parse text = .ok nodes) (hpaths : ∀ path ∈ settings.givenPaths, '\x00' ∉ path)
    (hdirectory : '\x00' ∉ machine.workingDirectory)
    (hanswers : ∀ unit ∈ unitsOf nodes, ∀ message,
      provider.answer ⟨unit.token, settings.rootGlob⟩ ≠ .error (.foreign message))
    (hdeliver : ∀ resolutions, (deliver resolutions).Perm resolutions) :
    ((∃ report, (machine.run settings provider source deliver).outcome = .ok report) ↔
      ∀ unit ∈ unitsOf nodes, ∀ found,
        provider.answer ⟨unit.token, settings.rootGlob⟩ = .ok found →
        (∀ path ∈ found.map matchPath, path ≠ [] →
          '\x00' ∉ Path.join (Path.baseOf machine.workingDirectory provider.directory) path) ∧
        ∀ resolver path, machine.resolverOf settings provider = .ok resolver →
          resolver.candidates found = .ok [path] →
          ∀ numeral ∈ numeralsOf unit.query, ∀ digits, IsInteger numeral digits →
            digits ≤ OverlongInteger.limit) ∧
    ∀ fault, (machine.run settings provider source deliver).outcome = .error fault →
      fault = .interrupted (.path .embedded) ∨ ∃ overlong, fault = .parse overlong := by
  obtain ⟨answered, hunits, hanswered, hcomplete, hfaults⟩ :=
    workers_complete_iff machine settings provider provider.answers source text nodes hinput hnodes
      hpaths hdirectory (fun unit hunit answer hanswer => hanswer ▸ hanswers unit hunit)
      (ends_run hdeliver)
  refine ⟨?_, hfaults⟩
  rw [hcomplete, ← hunits, List.forall_mem_map]
  refine forall₂_congr fun given hgiven => ?_
  rw [← show provider.answer _ = given.answer from hanswered given hgiven]

/-- Each unit is found in one file, and the resolutions arrive backwards. -/
theorem run_completes_iff_one_file :
    let settings : Settings := { inputPath := "main.css" }
    let provider : Provider := .ofAnswers (fun _ => .ok ["a.less:.a"]) none
    (∀ path ∈ settings.givenPaths, '\x00' ∉ path) ∧
      (∃ nodes, parse sampleSource = .ok nodes ∧ unitsOf nodes ≠ []) ∧
      ∃ report, (bareMachine.run settings provider (some sampleSource) List.reverse).outcome =
        .ok report := by
  intro settings provider
  have hpaths : ∀ path ∈ settings.givenPaths, '\x00' ∉ path := by decide +kernel
  have hread : (parse sampleSource).map (fun nodes => (unitsOf nodes).map (·.query)) =
      .ok ["print", "print", "print"] := by decide +kernel
  cases hnodes : parse sampleSource with
  | error fault => simp [hnodes, Except.map] at hread
  | ok nodes =>
    simp only [hnodes, Except.map, Except.ok.injEq] at hread
    have hquery : ∀ unit ∈ unitsOf nodes, unit.query = "print" := by
      intro unit hunit
      have hmem : unit.query ∈ (unitsOf nodes).map (·.query) := List.mem_map.mpr ⟨unit, hunit, rfl⟩
      rw [hread] at hmem
      simpa using hmem
    refine ⟨hpaths, ⟨nodes, rfl, fun hnone => by simp [hnone] at hread⟩, ?_⟩
    refine (run_completes_iff bareMachine settings provider (some sampleSource) List.reverse
      sampleSource nodes rfl hnodes hpaths (by decide +kernel) (by simp [provider])
      List.reverse_perm).1.mpr ?_
    intro unit hunit found hanswer
    obtain rfl : ["a.less:.a".toList] = found := Except.ok.inj hanswer
    refine ⟨by decide +kernel, fun resolver path hresolver hone => ?_⟩
    have hnumerals : numeralsOf "print" = [] := by decide +kernel
    rw [hquery unit hunit, hnumerals]
    simp

/-- A stylesheet with one unit. -/
def singleSource : Text :=
  "@media print\x7b.a\x7bb:c\x7d\x7d"

/-- A match whose path holds U+0000. -/
def nullTable : Table :=
  ⟨[(".a", ["a\x00.less"])], [], [], none⟩

/-- Each search is answered, and yet there is no report: the path of a match ends the run. -/
theorem run_stopped_by_null_in_match :
    (∃ nodes, parse singleSource = .ok nodes) ∧
      (∀ path ∈ Settings.givenPaths { inputPath := "main.css" }, '\x00' ∉ path) ∧
      '\x00' ∉ bareMachine.workingDirectory ∧
      (∀ search, ∃ found, nullTable.provider.answer search = .ok found) ∧
      ∀ report, (bareMachine.run { inputPath := "main.css" } nullTable.provider (some singleSource)
        id).outcome ≠ .ok report := by
  have hparsed : (parse singleSource).isOk = true := by decide +kernel
  have hstopped : (bareMachine.run { inputPath := "main.css" } nullTable.provider (some singleSource)
      id).outcome.isOk = false := by decide +kernel
  refine ⟨isOk_iff_exists.mp hparsed, by decide +kernel, by decide +kernel, fun search => ⟨_, rfl⟩, ?_⟩
  intro report hreport
  rw [isOk_iff_exists.mpr ⟨report, hreport⟩] at hstopped
  exact absurd hstopped (by simp)

end StyleOrigin
