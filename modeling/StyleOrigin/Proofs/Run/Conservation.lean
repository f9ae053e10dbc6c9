import Mathlib
import StyleOrigin.Proofs.Run.Ends
import StyleOrigin.Search.Table

/-! # No unit is lost

A report has places: the rules of its fragments, each under a file and a query, and its entries
without an origin. Each resolution that arrives takes one place, and collecting, sorting and
assembling move places about without making or losing any.

* `Place`, `Report.places`, `Resolution.place`: the places of a report, and the one of a resolution.
* `Ledger.places_addAll_perm`, `Ledger.places_reportFor_perm`: the places of a ledger are those of the
  resolutions that arrived, and the places of its report are its own.
* `Report.Conserves`, `conserves_of_collect`: what is collected has one place for each resolution.
* `run_conserves_units`, `workers_conserve_units`: in a whole run, each unit takes exactly one place of
  the report, also where equal searches are answered differently.
-/
set_option autoImplicit false

namespace StyleOrigin

open Css

/-! ## Places -/

/-- A place of a report: a rule of the fragment of a file and a query, or an entry without an
origin. -/
inductive Place
  | rule (path query : Text) (rule : Rule)
  | entry (resolution : Resolution)

/-- The place that a resolution is to take. -/
def Resolution.place (resolution : Resolution) : Place :=
  match resolution.origin with
  | some origin => .rule origin resolution.unit.query resolution.unit.rule
  | none => .entry resolution

/-- The places of a fragment of a file. -/
def Fragment.places (path : Text) (fragment : Fragment) : List Place :=
  fragment.rules.map (Place.rule path fragment.query)

def Report.placesOf (files : List (Text × List Fragment)) : List Place :=
  files.flatMap fun file => file.2.flatMap (Fragment.places file.1)

/-- All places of a report. -/
def Report.places (report : Report) : List Place :=
  Report.placesOf report.files ++ report.unresolved.map Place.entry

def Report.ruleCount (report : Report) : Nat :=
  (report.files.map fun file => (file.2.map fun fragment => fragment.rules.length).sum).sum

/-- The places that a group stands for. -/
def Group.places (group : Group) : List Place :=
  group.units.map fun unit => .rule group.path group.query unit.rule

/-- The places that a ledger stands for. -/
def Ledger.places (ledger : Ledger) : List Place :=
  ledger.groups.flatMap Group.places ++ ledger.unresolved.map Place.entry

/-! ## Filling a ledger -/

namespace Ledger

theorem places_addUnit_perm (path : Text) (unit : StyleUnit) (groups : List Group) :
    ((addUnit path unit groups).flatMap Group.places).Perm
      (.rule path unit.query unit.rule :: groups.flatMap Group.places) := by
  induction groups with
  | nil => exact List.Perm.refl _
  | cons group rest ih =>
    by_cases hof : group.isOf path unit.query = true
    · obtain ⟨hpath, hquery⟩ := Prod.ext_iff.mp (Group.isOf_iff.mp hof)
      have hgroup : Group.places { group with others := group.others ++ [unit] } =
          group.places ++ [.rule path unit.query unit.rule] := by
        rw [show path = group.path from hpath.symm, show unit.query = group.query from hquery.symm]
        simp [Group.places, Group.units]
      simp only [addUnit, hof, if_true, List.flatMap_cons, hgroup, List.append_assoc,
        List.singleton_append]
      exact List.perm_middle
    · simp only [addUnit, hof, Bool.false_eq_true, if_false, List.flatMap_cons]
      exact (ih.append_left group.places).trans List.perm_middle

theorem places_add_perm (ledger : Ledger) (resolution : Resolution) :
    (ledger.add resolution).places.Perm (resolution.place :: ledger.places) := by
  unfold add Resolution.place
  cases resolution.origin with
  | none =>
    simp only [places, List.map_append, List.map_cons, List.map_nil, ← List.append_assoc]
    exact List.perm_append_singleton _ _
  | some origin =>
    exact (places_addUnit_perm origin resolution.unit ledger.groups).append_right
      (ledger.unresolved.map Place.entry)

/-- Resolutions that arrive take a place each. -/
theorem places_addAll_perm (ledger : Ledger) (arrived : List Resolution) :
    (ledger.addAll arrived).places.Perm (arrived.map Resolution.place ++ ledger.places) := by
  induction arrived generalizing ledger with
  | nil => exact List.Perm.refl _
  | cons resolution rest ih =>
    have hstep := (places_add_perm ledger resolution).append_left (rest.map Resolution.place)
    exact ((ih (ledger.add resolution)).trans hstep).trans List.perm_middle

end Ledger

/-! ## Assembling a report -/

theorem Report.placesOf_addFragment_perm (path : Text) (fragment : Fragment)
    (files : List (Text × List Fragment)) :
    (Report.placesOf (Report.addFragment path fragment files)).Perm
      (Report.placesOf files ++ fragment.places path) := by
  unfold Report.placesOf
  induction files with
  | nil => simp [Report.addFragment]
  | cons file rest ih =>
    by_cases hpath : file.1 = path
    · subst hpath
      simp only [Report.addFragment, if_true, List.flatMap_cons, List.flatMap_append,
        List.flatMap_nil, List.append_nil, List.append_assoc]
      exact (List.perm_append_comm).append_left _
    · simp only [Report.addFragment, hpath, if_false, List.flatMap_cons, List.append_assoc]
      exact ih.append_left _

theorem Report.placesOf_filesOf_perm (found : List (Text × Fragment)) :
    (Report.placesOf (Report.filesOf found)).Perm
      (found.flatMap fun next => next.2.places next.1) := by
  induction found using List.reverseRecOn with
  | nil => exact List.Perm.refl _
  | append_singleton front next ih =>
    rw [Report.filesOf_concat, List.flatMap_append, List.flatMap_cons, List.flatMap_nil,
      List.append_nil]
    exact (Report.placesOf_addFragment_perm next.1 next.2 (Report.filesOf front)).trans
      (ih.append_right _)

namespace Ledger

theorem places_placedFragment_perm {group : Group} {placed : Text × Fragment}
    (h : placedFragment group = .ok placed) : (placed.2.places placed.1).Perm group.places := by
  obtain ⟨hpath, hfragment⟩ := placedFragment_eq_ok_iff.mp h
  obtain ⟨condition, -, hmade⟩ := Group.fragment_eq_ok_iff.mp hfragment
  rw [hpath, hmade]
  simp only [Fragment.places, Group.places, List.map_map]
  exact group.sortedUnits_perm.map _

theorem places_mapM_placedFragment_perm {groups : List Group} {found : List (Text × Fragment)}
    (h : groups.mapM placedFragment = .ok found) :
    (found.flatMap fun next => next.2.places next.1).Perm (groups.flatMap Group.places) := by
  have hall := mapM_eq_ok_iff.mp h
  clear h
  induction hall with
  | nil => exact List.Perm.refl _
  | cons hplaced _ ih =>
    rw [List.flatMap_cons, List.flatMap_cons]
    exact (places_placedFragment_perm hplaced).append ih

theorem places_reportFor_perm {ledger : Ledger} {unitCount : Int} {report : Report}
    (h : ledger.reportFor unitCount = .ok report) : report.places.Perm ledger.places := by
  obtain ⟨found, hfound, rfl⟩ := reportFor_eq_ok_iff.mp h
  have hgroups := (places_mapM_placedFragment_perm hfound).trans
    (ledger.sortedGroups_perm.flatMap_right Group.places)
  have hfiles := (Report.placesOf_filesOf_perm found).trans hgroups
  exact hfiles.append (ledger.sortedUnresolved_perm.map Place.entry)

end Ledger

/-! ## Counting -/

theorem Report.length_placesOf (files : List (Text × List Fragment)) :
    (Report.placesOf files).length =
      (files.map fun file => (file.2.map fun fragment => fragment.rules.length).sum).sum := by
  simp [Report.placesOf, Fragment.places, List.length_flatMap]

theorem Report.length_places (report : Report) :
    report.places.length = report.ruleCount + report.unresolved.length := by
  simp [Report.places, Report.ruleCount, Report.length_placesOf]

/-! ## The law -/

/-- A resolution is one of a unit. It is a rule under the one file that its search came to if it is
resolved, and an entry if not. -/
def Resolution.TakesPlaceOf (resolution : Resolution) (unit : StyleUnit) : Prop :=
  ∃ candidates, resolution.unit = { unit with origins := some candidates } ∧
    ((resolution.status = .resolved ∧
        ∃ path, candidates = [path] ∧ resolution.place = .rule path unit.query unit.rule) ∨
      (resolution.status ≠ .resolved ∧ resolution.place = .entry resolution))

theorem takesPlaceOf_of_settle_eq_ok {resolver : Resolver} {unit : StyleUnit}
    {answer : Except SearchFault (List Text)} {resolution : Resolution} (hunit : unit.origins = none)
    (h : (resolver.settle unit answer).outcome = .ok resolution) : resolution.TakesPlaceOf unit := by
  rcases (Resolver.settle_eq_ok_iff hunit).mp h with
    ⟨fault, -, -, rfl⟩ | ⟨found, candidates, -, -, rfl⟩
  · exact ⟨[], rfl, .inr ⟨by simp, rfl⟩⟩
  · refine ⟨candidates, rfl, ?_⟩
    match candidates with
    | [] => exact .inr ⟨by simp [Status.ofCandidates], rfl⟩
    | [path] => exact .inl ⟨rfl, path, rfl, rfl⟩
    | _ :: _ :: _ => exact .inr ⟨by simp [Status.ofCandidates], rfl⟩

/-- A report has one place for each of some resolutions, under distinct files and distinct queries. -/
structure Report.Conserves (report : Report) (resolutions : List Resolution) : Prop where
  unitCount : report.unitCount = resolutions.length
  places : report.places.Perm (resolutions.map Resolution.place)
  files : (report.files.map Prod.fst).Nodup
  queries : ∀ file ∈ report.files, (file.2.map Fragment.query).Nodup
  rules : report.attributedCount = report.ruleCount

/-- What is collected is conserved, in whatever order it arrives. -/
theorem conserves_of_collect {unitCount : Nat} {arrived resolutions : List Resolution} {report : Report}
    (h : collect unitCount arrived = .ok report) (hperm : arrived.Perm resolutions) :
    report.Conserves resolutions := by
  obtain ⟨hcount, hreport⟩ := collect_eq_ok_iff.mp h
  obtain ⟨found, -, hmade⟩ := Ledger.reportFor_eq_ok_iff.mp hreport
  have hunits : report.unitCount = resolutions.length := by
    rw [hmade, ← hperm.length_eq, hcount]
  have hplaces : report.places.Perm (resolutions.map Resolution.place) := by
    have hledger := Ledger.places_addAll_perm .empty arrived
    rw [show Ledger.empty.places = [] from rfl, List.append_nil] at hledger
    exact (Ledger.places_reportFor_perm hreport).trans (hledger.trans (hperm.map Resolution.place))
  refine ⟨hunits, hplaces, ?_, fun file hfile => ?_, ?_⟩
  · rw [hmade]
    exact Report.paths_filesOf_nodup found
  · exact Ledger.queries_nodup (Ledger.records_addAll arrived).distinct hreport hfile
  · have htotal := hplaces.length_eq
    rw [Report.length_places, List.length_map] at htotal
    rw [Report.attributedCount, hunits]
    omega

theorem ComesTo.exists_conserves {resolver : Resolver} {answered : List Answered}
    {outcome : Except RunFault Report} (h : ComesTo resolver answered outcome) {report : Report}
    (hreport : outcome = .ok report) :
    ∃ resolutions, List.Forall₂ (fun given resolution => given.result resolver = .ok resolution)
      answered resolutions ∧ report.Conserves resolutions := by
  cases h with
  | stopped mem fails => exact absurd hreport (by simp)
  | @collected resolutions arrived resolved arrives =>
    exact ⟨resolutions, resolved, conserves_of_collect hreport arrives⟩

/-- In a run that comes to a report, each unit of the stylesheet takes exactly one place: that of a
rule under its own query in the one file that its search resolved to, or that of an entry. When fewer
resolutions arrive than there are units, there is no report. Resolutions arrive in any order, each at
most once. -/
theorem run_conserves_units (machine : Machine) (settings : Settings) (provider : Provider)
    (source : Option Text) (deliver : List Resolution → List Resolution)
    (hdeliver : ∀ resolutions, (deliver resolutions).Subperm resolutions) :
    (∀ report, (machine.run settings provider source deliver).outcome = .ok report →
      ∃ nodes resolver resolutions,
        RunStages machine settings provider source nodes resolver resolutions ∧
        report.unitCount = (unitsOf nodes).length ∧
        List.Forall₂ (fun unit resolution =>
          ∃ candidates, resolution.unit = { unit with origins := some candidates } ∧
            ((resolution.status = .resolved ∧
                ∃ path, candidates = [path] ∧ resolution.place = .rule path unit.query unit.rule) ∨
              (resolution.status ≠ .resolved ∧ resolution.place = .entry resolution)))
          (unitsOf nodes) resolutions ∧
        report.places.Perm (resolutions.map Resolution.place) ∧
        (report.files.map Prod.fst).Nodup ∧
        (∀ file ∈ report.files, (file.2.map Fragment.query).Nodup) ∧
        report.attributedCount = report.ruleCount) ∧
    (∀ nodes resolver resolutions,
      RunStages machine settings provider source nodes resolver resolutions →
      (deliver resolutions).length < (unitsOf nodes).length →
      (machine.run settings provider source deliver).outcome =
        .error (.incomplete (deliver resolutions).length (unitsOf nodes).length)) := by
  constructor
  · intro report h
    obtain ⟨nodes, resolver, resolutions, hstages, hcollect⟩ := exists_runStages_of_outcome_eq_ok h
    have hlength : (unitsOf nodes).length = resolutions.length := hstages.resolved.length_eq
    have hcount := (collect_eq_ok_iff.mp hcollect).1
    have harrived : (deliver resolutions).Perm resolutions :=
      (hdeliver resolutions).perm_of_length_le (by omega)
    obtain ⟨hunits, hplaces, hfiles, hqueries, hrules⟩ := conserves_of_collect hcollect harrived
    refine ⟨nodes, resolver, resolutions, hstages, by rw [hunits, hlength], ?_, hplaces, hfiles,
      hqueries, hrules⟩
    refine ((List.forall₂_and_left _ _).mpr ⟨fun _ => origins_of_mem_unitsOf, hstages.resolved⟩).imp ?_
    exact fun unit resolution hboth => takesPlaceOf_of_settle_eq_ok hboth.1 hboth.2
  · intro nodes resolver resolutions hstages hfewer
    rw [hstages.outcome_eq, collect_eq_incomplete (by omega)]

/-- The same of a run whose searches are made by workers, where each call is answered in its own way: the
units that were answered are those of the stylesheet, and each takes the place that its own answer gives
it. -/
theorem workers_conserve_units (machine : Machine) (settings : Settings) (provider : Provider)
    (answers : Answers) (source : Option Text) {report : Report} {calls : List Search}
    (h : machine.Ends settings provider answers source (.ok report) calls) :
    ∃ nodes resolver answered resolutions,
      Prepared machine settings provider source nodes resolver ∧
      answered.map Answered.unit = unitsOf nodes ∧
      (∀ given ∈ answered, answers (resolver.searchFor given.unit) given.answer) ∧
      List.Forall₂ (fun given resolution => given.result resolver = .ok resolution ∧
        resolution.TakesPlaceOf given.unit) answered resolutions ∧
      report.Conserves resolutions := by
  obtain ⟨nodes, resolver, hprepared⟩ := exists_prepared_of_ends h rfl
  obtain ⟨answered, hunits, hanswers, hcomes⟩ := hprepared.exists_answered_of_ends h
  have horigins : ∀ given ∈ answered, given.unit.origins = none := fun given hgiven =>
    origins_of_mem_unitsOf (hunits ▸ List.mem_map_of_mem hgiven)
  obtain ⟨resolutions, hresolved, hconserves⟩ := hcomes.exists_conserves rfl
  refine ⟨nodes, resolver, answered, resolutions, hprepared, hunits, hanswers, ?_, hconserves⟩
  refine ((List.forall₂_and_left _ _).mpr ⟨horigins, hresolved⟩).imp ?_
  exact fun given resolution hboth => ⟨hboth.2, takesPlaceOf_of_settle_eq_ok hboth.1 hboth.2⟩

/-- Three selectors, one of which is found in one file, one in two and one in none. -/
def sampleSource : Text :=
  "@media print{.a,.b{x:1}.c{}}"

def sampleTable : Table :=
  ⟨[(".a", ["a.less:.a"]), (".b", ["a.less", "b.less"])], [], [], none⟩

def sampleResolver : Resolver :=
  ⟨"/work", ["/work/main.css"], "less", none, none, .usual⟩

/-- The resolutions of three units arrive backwards. The first one is for a rule of the file that it was
found in, and the other two are entries. -/
theorem run_conserves_units_backwards :
    (∀ resolutions : List Resolution, resolutions.reverse.Subperm resolutions) ∧
      ∃ report first second third,
        (bareMachine.run { inputPath := "main.css" } sampleTable.provider (some sampleSource)
          List.reverse).outcome = .ok report ∧
        [first, second, third].map (fun resolution => (resolution.unit.selector, resolution.status)) =
          [(".a".toList, .resolved), (".b".toList, .ambiguous), (".c".toList, .unmatched)] ∧
        report.places.Perm
          [.rule "a.less" "print" first.unit.rule, .entry second, .entry third] ∧
        report.unitCount = 3 ∧ report.attributedCount = report.ruleCount := by
  have hdeliver : ∀ resolutions : List Resolution, resolutions.reverse.Subperm resolutions :=
    fun resolutions => (List.reverse_perm resolutions).subperm
  let settings : Settings := { inputPath := "main.css" }
  have hreturns : (bareMachine.run settings sampleTable.provider (some sampleSource)
      List.reverse).outcome.isOk = true := by decide +kernel
  have hstatuses : (parse sampleSource).map (fun nodes =>
      (sampleResolver.resolveAll sampleTable.provider (unitsOf nodes)).outcome.map fun resolutions =>
        resolutions.map fun resolution => (resolution.unit.selector, resolution.status)) =
      .ok (.ok [(".a".toList, .resolved), (".b".toList, .ambiguous), (".c".toList, .unmatched)]) := by
    decide +kernel
  have horigins : (parse sampleSource).map (fun nodes =>
      (sampleResolver.resolveAll sampleTable.provider (unitsOf nodes)).outcome.map fun resolutions =>
        resolutions.map fun resolution => (resolution.origin, resolution.unit.query)) =
      .ok (.ok [(some "a.less".toList, "print".toList), (none, "print".toList),
        (none, "print".toList)]) := by decide +kernel
  obtain ⟨report, hreport⟩ := isOk_iff_exists.mp hreturns
  obtain ⟨nodes, resolver, resolutions, hstages, hcount, -, hplaces, -, -, hattributed⟩ :=
    (run_conserves_units bareMachine settings sampleTable.provider (some sampleSource) List.reverse
      hdeliver).1 report hreport
  obtain ⟨text, htext, hnodes⟩ := hstages.parsed
  obtain rfl : sampleSource = text := Except.ok.inj htext
  obtain rfl : sampleResolver = resolver := Except.ok.inj hstages.resolver_eq
  have hall := Resolver.resolveAll_eq_ok_iff.mpr hstages.resolved
  simp only [hnodes, hall, Except.map, Except.ok.injEq] at hstatuses horigins
  obtain ⟨first, _, rfl, hfirst, horigins⟩ := List.map_eq_cons_iff.mp horigins
  obtain ⟨second, _, rfl, hsecond, horigins⟩ := List.map_eq_cons_iff.mp horigins
  obtain ⟨third, _, rfl, hthird, horigins⟩ := List.map_eq_cons_iff.mp horigins
  obtain rfl := List.map_eq_nil_iff.mp horigins
  simp only [Prod.mk.injEq] at hfirst hsecond hthird
  refine ⟨hdeliver, report, first, second, third, hreport, hstatuses, ?_, ?_, hattributed⟩
  · simpa only [List.map_cons, List.map_nil, Resolution.place, hfirst, hsecond, hthird] using hplaces
  · rw [hcount, hstages.resolved.length_eq]
    rfl

end StyleOrigin
