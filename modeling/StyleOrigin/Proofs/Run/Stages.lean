import StyleOrigin.Proofs.Ledger.Assembly
import StyleOrigin.Run

/-! # The stages of a run

A run that gets past its searches has read a stylesheet, set up a resolver and come to one resolution
for each unit. What is left is to collect the resolutions that arrive.

* `Resolver.settle_eq_ok_iff`, `Resolver.resolve_eq_ok_iff`: the two kinds of resolution that an answer,
  and so a search, can come to.
* `Resolver.exists_settle_eq_ok_iff`: the answers that come to a resolution.
* `RunStages`: what a run has come to before it collects resolutions.
* `RunStages.outcome_eq`, `exists_runStages_of_outcome_eq_ok`: the outcome of a run by its stages.
* `collect_eq_ok_iff`: collecting asks for all resolutions and for a report of them.
-/
set_option autoImplicit false

namespace StyleOrigin

open Css

/-! ## Units -/

theorem origins_of_mem_unitsOf {nodes : List Node} {unit : StyleUnit} (h : unit ∈ unitsOf nodes) :
    unit.origins = none := by
  obtain ⟨index, hlt, rfl⟩ := List.mem_mapIdx.mp h
  rfl

/-! ## One search -/

/-- Whether a failed search is a resolution like others; the other faults end the run. -/
def SearchFault.isHandled : SearchFault → Bool
  | foreign _ => false
  | _ => true

theorem SearchFault.isHandled_iff {fault : SearchFault} :
    fault.isHandled = true ↔ ∀ message, fault ≠ .foreign message := by
  cases fault <;> simp [isHandled]

namespace Resolver

theorem conclude_eq_ok {unit : StyleUnit} (hunit : unit.origins = none) (candidates : List Text)
    (status : Status) (error : Text) :
    conclude unit candidates status error =
      .ok ⟨{ unit with origins := some candidates }, status, unit.token, error⟩ := by
  simp [conclude, StyleUnit.withOrigins, hunit]

/-- An answer that comes to a resolution is a fault that is handled, or has candidates. -/
theorem settle_eq_ok_iff {resolver : Resolver} {unit : StyleUnit}
    {answer : Except SearchFault (List Text)} {resolution : Resolution} (hunit : unit.origins = none) :
    (resolver.settle unit answer).outcome = .ok resolution ↔
      (∃ fault, answer = .error fault ∧ fault.isHandled = true ∧
        resolution = ⟨{ unit with origins := some [] }, .failed, unit.token, fault.message⟩) ∨
      (∃ found candidates, answer = .ok found ∧ resolver.candidates found = .ok candidates ∧
        resolution = ⟨{ unit with origins := some candidates }, .ofCandidates candidates, unit.token,
          []⟩) := by
  rw [outcome_settle]
  cases answer with
  | error fault =>
    cases fault <;> simp [conclude_eq_ok hunit, SearchFault.isHandled, eq_comm (a := resolution)]
  | ok found =>
    cases hcandidates : resolver.candidates found with
    | error fault => simp [hcandidates]
    | ok candidates => simp [hcandidates, conclude_eq_ok hunit, eq_comm (a := resolution)]

theorem exists_settle_eq_ok_iff {resolver : Resolver} {unit : StyleUnit}
    {answer : Except SearchFault (List Text)} (hunit : unit.origins = none) :
    (∃ resolution, (resolver.settle unit answer).outcome = .ok resolution) ↔
      (∀ fault, answer = .error fault → fault.isHandled = true) ∧
      ∀ found, answer = .ok found → ∃ candidates, resolver.candidates found = .ok candidates := by
  simp only [settle_eq_ok_iff hunit]
  cases answer <;> simp

/-- A search that comes to a resolution has failed in a way that is handled, or has found candidates. -/
theorem resolve_eq_ok_iff {resolver : Resolver} {provider : Provider} {unit : StyleUnit}
    {resolution : Resolution} (hunit : unit.origins = none) :
    (resolver.resolve provider unit).outcome = .ok resolution ↔
      (∃ fault, provider.answer ⟨unit.token, resolver.glob⟩ = .error fault ∧ fault.isHandled = true ∧
        resolution = ⟨{ unit with origins := some [] }, .failed, unit.token, fault.message⟩) ∨
      (∃ found candidates, provider.answer ⟨unit.token, resolver.glob⟩ = .ok found ∧
        resolver.candidates found = .ok candidates ∧
        resolution = ⟨{ unit with origins := some candidates }, .ofCandidates candidates, unit.token,
          []⟩) :=
  settle_eq_ok_iff hunit

theorem resolve_eq_ok {resolver : Resolver} {provider : Provider} {unit : StyleUnit}
    {resolution : Resolution} (hunit : unit.origins = none)
    (h : (resolver.resolve provider unit).outcome = .ok resolution) :
    (∃ fault : SearchFault,
      resolution = ⟨{ unit with origins := some [] }, .failed, unit.token, fault.message⟩) ∨
    (∃ found candidates, resolver.candidates found = .ok candidates ∧
      resolution = ⟨{ unit with origins := some candidates }, .ofCandidates candidates, unit.token,
        []⟩) := by
  rcases (resolve_eq_ok_iff hunit).mp h with ⟨fault, -, -, hmade⟩ | ⟨found, candidates, -, hrest⟩
  · exact .inl ⟨fault, hmade⟩
  · exact .inr ⟨found, candidates, hrest⟩

/-- A resolution holds the unit that was searched for, with its candidates. -/
theorem unit_of_settle_eq_ok {resolver : Resolver} {unit : StyleUnit}
    {answer : Except SearchFault (List Text)} {resolution : Resolution} (hunit : unit.origins = none)
    (h : (resolver.settle unit answer).outcome = .ok resolution) :
    ∃ candidates, resolution.unit = { unit with origins := some candidates } := by
  rcases (settle_eq_ok_iff hunit).mp h with ⟨_, -, -, rfl⟩ | ⟨_, candidates, -, -, rfl⟩
  · exact ⟨[], rfl⟩
  · exact ⟨candidates, rfl⟩

/-! ## All searches -/

theorem resolveAll_eq_ok_iff {resolver : Resolver} {provider : Provider} {units : List StyleUnit}
    {resolutions : List Resolution} :
    (resolver.resolveAll provider units).outcome = .ok resolutions ↔
      List.Forall₂ (fun unit resolution =>
        (resolver.resolve provider unit).outcome = .ok resolution) units resolutions := by
  rw [outcome_resolveAll, mapM_eq_ok_iff]

/-- What ends the searches for units ended the search for one of them. -/
theorem exists_of_resolveAll_eq_error {resolver : Resolver} {provider : Provider}
    {units : List StyleUnit} {fault : Interruption}
    (h : (resolver.resolveAll provider units).outcome = .error fault) :
    ∃ unit ∈ units, (resolver.resolve provider unit).outcome = .error fault := by
  rw [outcome_resolveAll] at h
  exact exists_of_mapM_eq_error h

end Resolver

theorem Resolution.origin_ofCandidates (unit : StyleUnit) (candidates : List Text) (token error : Text) :
    Resolution.origin ⟨{ unit with origins := some candidates }, .ofCandidates candidates, token, error⟩ =
      match candidates with
      | [origin] => some origin
      | _ => none := by
  match candidates with
  | [] => rfl
  | [_] => rfl
  | _ :: _ :: _ => rfl

/-! ## A whole run -/

/-- What a run has come to before it collects resolutions: the nodes of its stylesheet, its resolver,
and one resolution for each unit. -/
structure RunStages (machine : Machine) (settings : Settings) (provider : Provider)
    (source : Option Text) (nodes : List Node) (resolver : Resolver)
    (resolutions : List Resolution) : Prop where
  parsed : ∃ text, (machine.input settings source).outcome = .ok text ∧ parse text = .ok nodes
  resolver_eq : machine.resolverOf settings provider = .ok resolver
  resolved : List.Forall₂ (fun unit resolution =>
    (resolver.resolve provider unit).outcome = .ok resolution) (unitsOf nodes) resolutions

section Run
variable {machine : Machine} {settings : Settings} {provider : Provider} {source : Option Text}
  {deliver : List Resolution → List Resolution}

theorem RunStages.outcome_eq {nodes : List Node} {resolver : Resolver} {resolutions : List Resolution}
    (h : RunStages machine settings provider source nodes resolver resolutions) :
    (machine.run settings provider source deliver).outcome =
      collect (unitsOf nodes).length (deliver resolutions) := by
  obtain ⟨text, htext, hnodes⟩ := h.parsed
  simp [Machine.run, htext, hnodes, Machine.resolveUnits, h.resolver_eq,
    Resolver.resolveAll_eq_ok_iff.mpr h.resolved]

theorem exists_runStages_of_outcome_eq_ok {report : Report}
    (h : (machine.run settings provider source deliver).outcome = .ok report) :
    ∃ nodes resolver resolutions,
      RunStages machine settings provider source nodes resolver resolutions ∧
        collect (unitsOf nodes).length (deliver resolutions) = .ok report := by
  cases htext : (machine.input settings source).outcome with
  | error fault => simp [Machine.run, htext] at h
  | ok text =>
    cases hnodes : parse text with
    | error fault => simp [Machine.run, htext, hnodes] at h
    | ok nodes =>
      cases hresolver : machine.resolverOf settings provider with
      | error fault => simp [Machine.run, htext, hnodes, Machine.resolveUnits, hresolver] at h
      | ok resolver =>
        cases hresolutions : (resolver.resolveAll provider (unitsOf nodes)).outcome with
        | error fault =>
          simp [Machine.run, htext, hnodes, Machine.resolveUnits, hresolver, hresolutions] at h
        | ok resolutions =>
          have hstages : RunStages machine settings provider source nodes resolver resolutions :=
            ⟨⟨text, htext, hnodes⟩, hresolver, Resolver.resolveAll_eq_ok_iff.mp hresolutions⟩
          exact ⟨nodes, resolver, resolutions, hstages, hstages.outcome_eq.symm.trans h⟩

end Run

/-- A machine that works in a directory of its own, without files and processes. -/
def bareMachine : Machine :=
  ⟨"/work", ⟨[]⟩, fun _ => .timedOut, fun _ => none⟩

/-! ## Collecting -/

theorem collect_eq_ok_iff {unitCount : Nat} {arrived : List Resolution} {report : Report} :
    collect unitCount arrived = .ok report ↔
      arrived.length = unitCount ∧
        (Ledger.empty.addAll arrived).reportFor unitCount = .ok report := by
  unfold collect
  simp only [(Ledger.records_addAll arrived).count_eq]
  by_cases hcount : arrived.length = unitCount
  · simp only [hcount, if_true, true_and]
    cases (Ledger.empty.addAll arrived).reportFor unitCount <;> simp [Except.mapError]
  · simp [hcount]

/-- When all resolutions have arrived, only a query that cannot be read again is in the way. -/
theorem collect_eq_error {arrived : List Resolution} {fault : RunFault}
    (h : collect arrived.length arrived = .error fault) : ∃ overlong, fault = .parse overlong := by
  unfold collect at h
  simp only [(Ledger.records_addAll arrived).count_eq, if_true] at h
  cases hreport : (Ledger.empty.addAll arrived).reportFor arrived.length with
  | ok report => simp [hreport, Except.mapError] at h
  | error overlong =>
    simp only [hreport, Except.mapError, Except.error.injEq] at h
    exact ⟨overlong, h.symm⟩

theorem collect_eq_incomplete {unitCount : Nat} {arrived : List Resolution}
    (h : arrived.length ≠ unitCount) :
    collect unitCount arrived = .error (.incomplete arrived.length unitCount) := by
  unfold collect
  simp [(Ledger.records_addAll arrived).count_eq, h]

end StyleOrigin
