import StyleOrigin.Proofs.Ledger.Arrival
import StyleOrigin.Proofs.Ledger.Mirror
import StyleOrigin.Proofs.Run.Stages

/-! # Reports in source order

The units of a stylesheet are numbered as they stand, and a run has one resolution for each. So nothing
is left to sort: what a report says under a file and a query, and what it says has no origin, are
selections from the resolutions in source order.

* `InSourceOrder`: the indices of resolutions rise.
* `Report.rulesUnder`: what a report says under a file and a query.
* `Report.Mirrors.rulesUnder_eq`, `Report.Mirrors.unresolved_eq`: both as selections.
* `RunStages.mirrors`: the report of a run mirrors its resolutions in source order, whatever the order
  that they arrive in.
-/
set_option autoImplicit false

namespace StyleOrigin

open Css

/-! ## Rising indices -/

/-- The indices of resolutions rise. -/
def InSourceOrder (resolutions : List Resolution) : Prop :=
  resolutions.Pairwise fun resolution resolution' => resolution.unit.index < resolution'.unit.index

theorem InSourceOrder.distinct {resolutions : List Resolution} (h : InSourceOrder resolutions) :
    DistinctIndices resolutions :=
  (List.pairwise_map.mpr h).nodup

theorem InSourceOrder.unitsUnder {resolutions : List Resolution} (h : InSourceOrder resolutions)
    (key : Text × Text) :
    (unitsUnder key resolutions).Pairwise fun unit unit' => unit.index ≤ unit'.index :=
  List.pairwise_map.mpr ((h.filter _).imp Nat.le_of_lt)

/-- The units of a stylesheet are numbered as they stand. -/
theorem index_unitsOf (nodes : List Node) :
    (unitsOf nodes).map (·.index) = List.range (unitsOf nodes).length := by
  apply List.ext_getElem
  · simp
  · intro place _ _
    simp [unitsOf, Piece.unit]

/-! ## Selections -/

/-- The rules that a report holds for a file under a query. -/
def Report.rulesUnder (report : Report) (path query : Text) : List Rule :=
  ((report.fragmentsFor path).filter fun fragment => fragment.query == query).flatMap (·.rules)

section Selections
variable {report : Report} {resolutions : List Resolution}

theorem Report.Mirrors.rules_eq (h : report.Mirrors resolutions) (hsorted : InSourceOrder resolutions)
    {file : Text × List Fragment} (hfile : file ∈ report.files) {fragment : Fragment}
    (hfragment : fragment ∈ file.2) :
    fragment.rules = (unitsUnder (file.1, fragment.query) resolutions).map (·.rule) := by
  obtain ⟨units, hunits, hrules⟩ := (h.fragments file hfile fragment hfragment).rules
  rw [hrules, hunits.unique (.of_pairwise (hsorted.unitsUnder _))]

theorem Report.Mirrors.rulesUnder_eq (h : report.Mirrors resolutions)
    (hsorted : InSourceOrder resolutions) (path query : Text) :
    report.rulesUnder path query = (unitsUnder (path, query) resolutions).map (·.rule) := by
  have hnone : (¬∃ resolution ∈ resolutions, resolution.origin = some path ∧
      resolution.unit.query = query) → unitsUnder (path, query) resolutions = [] := by
    intro hnone
    apply List.eq_nil_iff_forall_not_mem.mpr
    intro unit hunit
    obtain ⟨resolution, hmem, hkey, -⟩ := mem_unitsUnder.mp hunit
    exact hnone ⟨resolution, hmem, Resolution.key?_eq_some_iff.mp hkey⟩
  unfold Report.rulesUnder Report.fragmentsFor
  cases hlookup : report.files.lookup path with
  | none =>
    have hpath : path ∉ report.files.map Prod.fst := by
      rw [List.lookup_eq_none_iff] at hlookup
      intro hmem
      obtain ⟨file, hfile, rfl⟩ := List.mem_map.mp hmem
      simpa using hlookup file hfile
    rw [h.mem_files] at hpath
    rw [hnone fun ⟨resolution, hmem, horigin, _⟩ => hpath ⟨resolution, hmem, horigin⟩]
    rfl
  | some fragments =>
    obtain ⟨front, back, hfiles, -⟩ := List.lookup_eq_some_iff.mp hlookup
    have hfile : (path, fragments) ∈ report.files := by simp [hfiles]
    rw [Option.getD_some]
    by_cases hquery : query ∈ fragments.map Fragment.query
    · obtain ⟨fragment, hfragment, rfl⟩ := List.mem_map.mp hquery
      rw [filter_key_eq_singleton (h.queries_nodup _ hfile) hfragment, List.flatMap_singleton,
        h.rules_eq hsorted hfile hfragment]
    · have hothers : (fragments.filter fun fragment => fragment.query == query) = [] := by
        apply List.filter_eq_nil_iff.mpr
        intro fragment hfragment hsame
        exact hquery (List.mem_map.mpr ⟨fragment, hfragment, beq_iff_eq.mp hsame⟩)
      rw [hothers, hnone fun hsome => hquery ((h.mem_queries _ hfile query).mpr hsome)]
      rfl

theorem Report.Mirrors.unresolved_eq (h : report.Mirrors resolutions)
    (hsorted : InSourceOrder resolutions) :
    report.unresolved = resolutions.filter fun resolution => resolution.origin.isNone :=
  h.unresolved.unique (.of_pairwise ((hsorted.filter _).imp Nat.le_of_lt))

end Selections

/-! ## Runs -/

section Run
variable {machine : Machine} {settings : Settings} {provider : Provider} {source : Option Text}
  {nodes : List Node} {resolver : Resolver} {resolutions : List Resolution}

theorem RunStages.inSourceOrder
    (h : RunStages machine settings provider source nodes resolver resolutions) :
    InSourceOrder resolutions := by
  have hindices : (unitsOf nodes).map (·.index) = resolutions.map (·.unit.index) := by
    refine map_eq_of_forall₂ h.resolved fun unit hunit resolution hresolved => ?_
    obtain ⟨candidates, hmade⟩ :=
      Resolver.unit_of_settle_eq_ok (origins_of_mem_unitsOf hunit) hresolved
    rw [hmade]
  have hrising := @List.pairwise_lt_range (unitsOf nodes).length
  rw [← index_unitsOf, hindices] at hrising
  exact List.pairwise_map.mp hrising

/-- A run shows its resolutions in source order, in whatever order they arrive. -/
theorem RunStages.mirrors (h : RunStages machine settings provider source nodes resolver resolutions)
    {arrived : List Resolution} (hperm : arrived.Perm resolutions) {report : Report}
    (hreport : collect (unitsOf nodes).length arrived = .ok report) : report.Mirrors resolutions := by
  obtain ⟨-, hreport⟩ := collect_eq_ok_iff.mp hreport
  have hrecords := Ledger.records_addAll resolutions
  rw [← reportFor_eq_of_perm hperm.symm h.inSourceOrder.distinct hrecords
    (Ledger.records_addAll arrived)] at hreport
  exact Ledger.mirrors_of_reportFor_eq_ok hrecords hreport

end Run

end StyleOrigin
