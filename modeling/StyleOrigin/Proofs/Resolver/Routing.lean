import StyleOrigin.Proofs.Resolver.FirstSeen

/-! # What a resolution says, and where it is put

A resolution tells the outcome of one search three times over: by its status, by the candidates of its
unit, and by its error. The ledger looks at a fourth, the origin, which is made from the first two. They
agree in every resolution that a resolver comes to, so the ledger may as well go by the status.

* `Resolution.Reflects`: what a resolution says about a unit and the answer to its search.
* `Resolver.reflects_of_resolve_eq_ok`: it holds of the resolutions that a resolver comes to.
* `Ledger.addByStatus`, `Ledger.addAll_eq_addByStatus`: filling a ledger by the status.
* `resolve_reflects_answer`: when there is a resolution, what it says, and where it is put.
-/
set_option autoImplicit false

namespace StyleOrigin

/-! ## Statuses by number -/

namespace Status
variable {candidates : List Text}

theorem ofCandidates_ne_failed : ofCandidates candidates ≠ failed := by
  match candidates with
  | [] | [_] | _ :: _ :: _ => simp [ofCandidates]

theorem ofCandidates_eq_resolved_iff : ofCandidates candidates = resolved ↔ candidates.length = 1 := by
  match candidates with
  | [] | [_] | _ :: _ :: _ => simp [ofCandidates]

theorem ofCandidates_eq_unmatched_iff : ofCandidates candidates = unmatched ↔ candidates.length = 0 := by
  match candidates with
  | [] | [_] | _ :: _ :: _ => simp [ofCandidates]

theorem ofCandidates_eq_ambiguous_iff : ofCandidates candidates = ambiguous ↔ 2 ≤ candidates.length := by
  match candidates with
  | [] | [_] | _ :: _ :: _ => simp [ofCandidates]

end Status

theorem Resolution.origin_ofCandidates_eq_some_iff {unit : StyleUnit} {candidates : List Text}
    {token error path : Text} :
    Resolution.origin ⟨{ unit with origins := some candidates }, .ofCandidates candidates, token, error⟩ =
      some path ↔ candidates = [path] := by
  rw [Resolution.origin_ofCandidates]
  match candidates with
  | [] | [_] | _ :: _ :: _ => simp

/-! ## One resolution -/

/-- A resolution says what has come of the search for a unit. Its unit is that unit with origins. A search
that failed has left none, and the error tells why. What was found has left its candidates, and the
status goes by their number. There is an origin if the unit is resolved: the only candidate. -/
structure Resolution.Reflects (resolution : Resolution) (resolver : Resolver) (unit : StyleUnit)
    (answer : Except SearchFault (List Text)) : Prop where
  token_eq : resolution.token = searchToken unit.selector
  unit_eq : resolution.unit = { unit with origins := some resolution.candidates }
  failed_iff : resolution.status = .failed ↔ ∃ fault, answer = .error fault ∧ fault.isHandled = true
  of_fault : ∀ fault, answer = .error fault →
    resolution.candidates = [] ∧ resolution.error = fault.message
  of_found : ∀ found, answer = .ok found →
    resolver.candidates found = .ok resolution.candidates ∧ resolution.error = []
  resolved_iff : ∀ found, answer = .ok found →
    (resolution.status = .resolved ↔ resolution.candidates.length = 1)
  unmatched_iff : ∀ found, answer = .ok found →
    (resolution.status = .unmatched ↔ resolution.candidates.length = 0)
  ambiguous_iff : ∀ found, answer = .ok found →
    (resolution.status = .ambiguous ↔ 2 ≤ resolution.candidates.length)
  origin_isSome_iff : resolution.origin.isSome = true ↔ resolution.status = .resolved
  of_origin : ∀ path, resolution.origin = some path → path ≠ [] ∧ resolution.candidates = [path]

namespace Resolver
variable {resolver : Resolver} {provider : Provider} {unit : StyleUnit}

/-- There is a resolution unless the search has a fault that is not handled, or finds a path with
U+0000. -/
theorem exists_resolve_eq_ok_iff_nullFree (hunit : unit.origins = none) :
    (∃ resolution, (resolver.resolve provider unit).outcome = .ok resolution) ↔
      (∀ fault, provider.answer ⟨unit.token, resolver.glob⟩ = .error fault → fault.isHandled = true) ∧
      ∀ found, provider.answer ⟨unit.token, resolver.glob⟩ = .ok found →
        NullFree resolver.workingDirectory resolver.matchRoot found := by
  have hsettles := @exists_settle_eq_ok_iff resolver unit
    (provider.answer ⟨unit.token, resolver.glob⟩) hunit
  simp only [exists_candidates_eq_ok_iff] at hsettles
  exact hsettles

theorem ne_nil_of_mem_candidates {found candidates : List Text}
    (h : resolver.candidates found = .ok candidates) {path : Text} (hpath : path ∈ candidates) :
    path ≠ [] :=
  (qualifies_eq_true_iff.mp ((mem_candidates h path).mp hpath).2).1

theorem reflects_of_resolve_eq_ok (hunit : unit.origins = none) {resolution : Resolution}
    (h : (resolver.resolve provider unit).outcome = .ok resolution) :
    resolution.Reflects resolver unit (provider.answer ⟨unit.token, resolver.glob⟩) := by
  obtain ⟨fault, hanswer, hhandled, rfl⟩ | ⟨found, candidates, hanswer, hfound, rfl⟩ :=
    (resolve_eq_ok_iff hunit).mp h
  · rw [hanswer]
    exact
      { token_eq := rfl
        unit_eq := rfl
        failed_iff := by simp [hhandled]
        of_fault := by
          rintro _ ⟨⟩
          exact ⟨rfl, rfl⟩
        of_found := by simp
        resolved_iff := by simp
        unmatched_iff := by simp
        ambiguous_iff := by simp
        origin_isSome_iff := by simp [Resolution.origin]
        of_origin := by simp [Resolution.origin] }
  · rw [hanswer]
    exact
      { token_eq := rfl
        unit_eq := rfl
        failed_iff := by simp [Status.ofCandidates_ne_failed]
        of_fault := by simp
        of_found := by
          rintro _ ⟨⟩
          exact ⟨hfound, rfl⟩
        resolved_iff := fun _ _ => Status.ofCandidates_eq_resolved_iff
        unmatched_iff := fun _ _ => Status.ofCandidates_eq_unmatched_iff
        ambiguous_iff := fun _ _ => Status.ofCandidates_eq_ambiguous_iff
        origin_isSome_iff := by
          rw [Option.isSome_iff_exists, Status.ofCandidates_eq_resolved_iff, List.length_eq_one_iff]
          simp only [Resolution.origin_ofCandidates_eq_some_iff]
        of_origin := by
          intro path horigin
          obtain rfl := Resolution.origin_ofCandidates_eq_some_iff.mp horigin
          exact ⟨ne_nil_of_mem_candidates hfound (List.mem_singleton_self path), rfl⟩ }

end Resolver

/-! ## Filling a ledger -/

namespace Ledger

/-- A ledger with one more resolution, which is put where its status says: under its first candidate if it
is resolved, and with the unresolved ones if it is not. -/
def addByStatus (ledger : Ledger) (resolution : Resolution) : Ledger :=
  if resolution.status = .resolved then
    ⟨addUnit (resolution.candidates.headD []) resolution.unit ledger.groups, ledger.unresolved,
      ledger.count + 1⟩
  else ⟨ledger.groups, ledger.unresolved ++ [resolution], ledger.count + 1⟩

theorem add_eq_addByStatus {resolution : Resolution} {resolver : Resolver} {unit : StyleUnit}
    {answer : Except SearchFault (List Text)} (h : resolution.Reflects resolver unit answer)
    (ledger : Ledger) : ledger.add resolution = ledger.addByStatus resolution := by
  unfold add addByStatus
  cases horigin : resolution.origin with
  | none =>
    have hstatus : resolution.status ≠ .resolved := by
      rw [ne_eq, ← h.origin_isSome_iff, horigin]
      simp
    rw [if_neg hstatus]
  | some origin =>
    have hstatus : resolution.status = .resolved := h.origin_isSome_iff.mp (by rw [horigin]; rfl)
    obtain ⟨-, hcandidates⟩ := h.of_origin origin horigin
    rw [if_pos hstatus, hcandidates]
    rfl

/-- Resolutions that a resolver comes to may be put where their statuses say. -/
theorem addAll_eq_addByStatus {resolver : Resolver} {provider : Provider} {resolutions : List Resolution}
    (h : ∀ resolution ∈ resolutions, ∃ unit : StyleUnit, unit.origins = none ∧
      (resolver.resolve provider unit).outcome = .ok resolution) (ledger : Ledger) :
    ledger.addAll resolutions = resolutions.foldl addByStatus ledger := by
  induction resolutions generalizing ledger with
  | nil => rfl
  | cons resolution rest ih =>
    obtain ⟨⟨unit, hunit, hresolved⟩, hrest⟩ := List.forall_mem_cons.mp h
    have hadd := add_eq_addByStatus (Resolver.reflects_of_resolve_eq_ok hunit hresolved) ledger
    change (ledger.add resolution).addAll rest = _
    rw [hadd, ih hrest, List.foldl_cons]

end Ledger

/-! ## The law -/

/-- The search for a unit without origins comes to a resolution unless it has a fault that is not handled,
or finds a path with U+0000. The resolution says what was answered, and of the unit it changes nothing
but the origins. Resolutions that a resolver comes to are put into a ledger where their statuses say. -/
theorem resolve_reflects_answer (resolver : Resolver) (provider : Provider) :
    (∀ unit : StyleUnit, unit.origins = none →
      ((∃ resolution, (resolver.resolve provider unit).outcome = .ok resolution) ↔
        (∀ fault, provider.answer ⟨unit.token, resolver.glob⟩ = .error fault →
          fault.isHandled = true) ∧
        ∀ found, provider.answer ⟨unit.token, resolver.glob⟩ = .ok found →
          Resolver.NullFree resolver.workingDirectory resolver.matchRoot found) ∧
      ∀ resolution, (resolver.resolve provider unit).outcome = .ok resolution →
        resolution.Reflects resolver unit (provider.answer ⟨unit.token, resolver.glob⟩)) ∧
    ∀ (ledger : Ledger) (resolutions : List Resolution),
      (∀ resolution ∈ resolutions, ∃ unit : StyleUnit, unit.origins = none ∧
        (resolver.resolve provider unit).outcome = .ok resolution) →
      ledger.addAll resolutions = resolutions.foldl Ledger.addByStatus ledger := by
  refine ⟨fun unit hunit => ⟨Resolver.exists_resolve_eq_ok_iff_nullFree hunit, ?_⟩, ?_⟩
  · exact fun resolution hresolved => Resolver.reflects_of_resolve_eq_ok hunit hresolved
  · exact fun ledger resolutions hresolved => Ledger.addAll_eq_addByStatus hresolved ledger

/-- A unit whose selector has two words. -/
def twoWordUnit : StyleUnit :=
  ⟨".a b", "print", ⟨⟨1, 1⟩, [.leaf ⟨1, 1⟩ (.literal "."), .leaf ⟨1, 2⟩ (.ident "a"),
    .leaf ⟨1, 3⟩ (.whitespace " "), .leaf ⟨1, 4⟩ (.ident "b")], []⟩, 0, none⟩

/-- Matches of one file that may be an origin, and of nothing else that may be one. -/
def oneFileProvider : Provider :=
  .ofAnswers (fun _ => .ok ["a.less:1:.a", ":.a", "c.css:1:.a", "a.less"]) none

/-- The unit is resolved, and the ledger has it in a group. -/
theorem resolve_reflects_answer_one_file :
    let resolver : Resolver := ⟨"/work", [], "less", none, none, .usual⟩
    twoWordUnit.origins = none ∧ ∃ resolution,
      (resolver.resolve oneFileProvider twoWordUnit).outcome = .ok resolution ∧
      resolution.status = .resolved ∧ resolution.token = ".a" ∧ resolution.origin.isSome = true ∧
      Ledger.empty.addAll [resolution] = Ledger.empty.addByStatus resolution := by
  intro resolver
  have hstatus : (resolver.resolve oneFileProvider twoWordUnit).outcome.map Resolution.status =
      .ok .resolved := by decide +kernel
  obtain ⟨resolution, hresolved, hstatus⟩ := exists_of_map_eq_ok hstatus
  obtain ⟨hanswered, hput⟩ := resolve_reflects_answer resolver oneFileProvider
  obtain ⟨-, hall⟩ := hanswered twoWordUnit rfl
  have hreflects := hall resolution hresolved
  have htoken : searchToken twoWordUnit.selector = ".a" := by decide +kernel
  refine ⟨rfl, resolution, hresolved, hstatus, hreflects.token_eq.trans htoken,
    hreflects.origin_isSome_iff.mpr hstatus, hput .empty [resolution] ?_⟩
  simpa using ⟨twoWordUnit, rfl, hresolved⟩

end StyleOrigin
