import StyleOrigin.Proofs.Resolver.Routing
import StyleOrigin.Proofs.Run.Searches

/-! # What the end of a search process means

A search process can fail to start, take too long, or exit. A status of zero tells that its output is the
answer, whatever it says about errors. A status of one tells that nothing was found, unless there are
errors. Everything else is a search that broke down.

* `Outcome.IsBroken`: the ends of a process that has broken down.
* `Grep.exists_read_eq_error_iff`, `Grep.read_nothingFound`, `Grep.read_success`: what each end is read as.
* `Grep.answer_fault`: the fault of a search names its token and its command line.
* `Grep.resolution_by_ending`: the resolution of a unit, by the end of the one process that it launches.
* `Prepared.launches_run`: the processes that a run launches.
-/
set_option autoImplicit false

namespace StyleOrigin

theorem Text.strip_eq_nil_iff {text : Text} :
    Text.strip text = [] ↔ ∀ c ∈ text, Text.isBlank c = true :=
  trimWhere_eq_nil_iff

/-! ## Ends of a process -/

/-- A search process has broken down: it did not start, it took too long, it exited with a status that is
neither zero nor one, or it has errors to tell besides the status for nothing found. -/
inductive Outcome.IsBroken : Outcome → Prop
  | notStarted (reason : Text) : IsBroken (.notStarted reason)
  | timedOut : IsBroken .timedOut
  | failed {status : Int} {output errors : Text} (not_zero : status ≠ 0) (not_one : status ≠ 1) :
      IsBroken (.exited status output errors)
  | complained {output errors : Text} (complains : ∃ c ∈ errors, Text.isBlank c = false) :
      IsBroken (.exited 1 output errors)

namespace Grep

theorem read_success (limit : Seconds) (output errors : Text) :
    read limit (.exited 0 output errors) = .ok ((Text.lines output).filter (!·.isEmpty)) := by
  simp [read, nothingFound]

theorem read_nothingFound (limit : Seconds) (output : Text) {errors : Text}
    (h : ∀ c ∈ errors, Text.isBlank c = true) : read limit (.exited 1 output errors) = .ok [] := by
  simp [read, nothingFound, Text.strip_eq_nil_iff.mpr h]

/-- A broken process has a cause of failure, and no other has one. -/
theorem exists_read_eq_error_iff (limit : Seconds) {outcome : Outcome} :
    (∃ cause, read limit outcome = .error cause) ↔ outcome.IsBroken := by
  constructor
  · rintro ⟨cause, hcause⟩
    cases outcome with
    | notStarted reason => exact .notStarted reason
    | timedOut => exact .timedOut
    | exited status output errors =>
      by_cases hzero : status = 0
      · subst hzero
        rw [read_success] at hcause
        exact absurd hcause (by simp)
      by_cases hone : status = 1
      · subst hone
        refine .complained (Classical.byContradiction fun hnone => ?_)
        have hblank : ∀ c ∈ errors, Text.isBlank c = true := by simpa using hnone
        rw [read_nothingFound limit output hblank] at hcause
        exact absurd hcause (by simp)
      · exact .failed hzero hone
  · intro hbroken
    cases hbroken with
    | notStarted reason => exact ⟨.notStarted reason, rfl⟩
    | timedOut => exact ⟨.timedOut limit, rfl⟩
    | @failed status output errors hzero hone =>
      exact ⟨.exited status errors, by simp [read, nothingFound, hzero, hone]⟩
    | @complained output errors hcomplains =>
      have hstrip : Text.strip errors ≠ [] := by
        rw [ne_eq, Text.strip_eq_nil_iff]
        simpa using hcomplains
      exact ⟨.exited 1 errors, by simp [read, nothingFound, hstrip]⟩

/-- The ends of a process that are read as an answer. -/
theorem read_eq_ok_cases {limit : Seconds} {outcome : Outcome} {found : List Text}
    (h : read limit outcome = .ok found) :
    (∃ output errors, outcome = .exited 1 output errors ∧ found = []) ∨
      ∃ output errors, outcome = .exited 0 output errors ∧
        found = (Text.lines output).filter (!·.isEmpty) := by
  cases outcome with
  | notStarted reason => simp [read] at h
  | timedOut => simp [read] at h
  | exited status output errors =>
    simp only [read] at h
    split_ifs at h with hnothing hfailed
    · have hone : status = 1 := of_decide_eq_true (Bool.and_eq_true_iff.mp hnothing).1
      exact .inl ⟨output, errors, by rw [hone], (Except.ok.inj h).symm⟩
    · have hzero : status = 0 := not_not.mp hfailed
      exact .inr ⟨output, errors, by rw [hzero], (Except.ok.inj h).symm⟩

section Answer
variable {grep : Grep} {processes : Processes} {search : Search}

theorem answer_fault {fault : Fault} (h : grep.answer processes search = .error fault) :
    fault.token = search.token ∧ fault.command = grep.command search ∧
      read grep.limit (processes (grep.command search)) = .error fault.cause := by
  rw [answer_eq] at h
  cases hread : read grep.limit (processes (grep.command search)) with
  | ok found => simp [hread, Except.mapError] at h
  | error cause =>
    simp only [hread, Except.mapError, Except.error.injEq] at h
    subst h
    exact ⟨rfl, rfl, rfl⟩

/-- A failed search is a fault of the provider that is handled. -/
theorem answer_provider_eq_error_iff {found : SearchFault} :
    (grep.provider processes).answer search = .error found ↔
      ∃ cause, read grep.limit (processes (grep.command search)) = .error cause ∧
        found = .search cause.message (grep.command search) := by
  rw [answer_provider, answer_eq]
  cases read grep.limit (processes (grep.command search)) with
  | ok lines => simp [Except.mapError]
  | error cause =>
    simp [Except.mapError, Fault.toSearchFault, eq_comm (a := found)]

theorem answer_provider_eq_ok_iff {found : List Text} :
    (grep.provider processes).answer search = .ok found ↔
      read grep.limit (processes (grep.command search)) = .ok found := by
  rw [answer_provider, answer_eq]
  cases read grep.limit (processes (grep.command search)) <;> simp [Except.mapError]

theorem exists_handled_fault_iff :
    (∃ found, (grep.provider processes).answer search = .error found ∧ found.isHandled = true) ↔
      (processes (grep.command search)).IsBroken := by
  rw [← exists_read_eq_error_iff grep.limit]
  constructor
  · rintro ⟨found, hfound, -⟩
    obtain ⟨cause, hcause, -⟩ := answer_provider_eq_error_iff.mp hfound
    exact ⟨cause, hcause⟩
  · rintro ⟨cause, hcause⟩
    exact ⟨_, answer_provider_eq_error_iff.mpr ⟨cause, hcause, rfl⟩, rfl⟩

end Answer

/-! ## Command lines -/

theorem command_of_glob (grep : Grep) (token : Text) {pattern : Text} (h : pattern ≠ []) :
    grep.command ⟨token, some pattern⟩ = [grep.executable, "grep", "-F", "-e", token, "--", pattern] := by
  cases pattern with
  | nil => exact absurd rfl h
  | cons c cs => rfl

theorem command_of_no_glob (grep : Grep) (token : Text) {glob : Option Text}
    (h : ∀ pattern, glob = some pattern → pattern = []) :
    grep.command ⟨token, glob⟩ = [grep.executable, "grep", "-F", "-e", token] := by
  cases glob with
  | none => rfl
  | some pattern =>
    obtain rfl := h pattern rfl
    rfl

end Grep

/-! ## One unit -/

theorem Resolver.origins_of_resolve_eq_ok {resolver : Resolver} {provider : Provider} {unit : StyleUnit}
    {resolution : Resolution} (h : (resolver.resolve provider unit).outcome = .ok resolution) :
    unit.origins = none := by
  cases horigins : unit.origins with
  | none => rfl
  | some origins =>
    have hconclude : ∀ candidates status error,
        conclude unit candidates status error = .error (.unit ⟨unit.selector⟩) := by
      intro candidates status error
      simp [conclude, StyleUnit.withOrigins, horigins]
    rw [outcome_resolve, outcome_settle] at h
    simp only [hconclude] at h
    split at h
    · simp at h
    · simp at h
    · split at h <;> simp at h

/-- A search that finds something is classified by its candidates. -/
theorem Resolver.classified_of_found {resolver : Resolver} {provider : Provider} {unit : StyleUnit}
    {resolution : Resolution} (h : (resolver.resolve provider unit).outcome = .ok resolution)
    {found : List Text} (hfound : provider.answer (resolver.searchFor unit) = .ok found) :
    resolver.candidates found = .ok resolution.candidates ∧
      resolution.status = .ofCandidates resolution.candidates := by
  have hunit := origins_of_resolve_eq_ok h
  rcases (resolve_eq_ok_iff hunit).mp h with ⟨fault, hfault, -, -⟩ | ⟨found', _, hanswer, hrest, rfl⟩
  · exact absurd (hfault.symm.trans hfound) (by simp)
  · obtain rfl := Except.ok.inj (hanswer.symm.trans hfound)
    exact ⟨hrest, rfl⟩

namespace Grep

section Unit
variable {grep : Grep} {processes : Processes} {resolver : Resolver} {unit : StyleUnit}

/-- A unit comes to its resolution unless there are lines to be classified. -/
theorem exists_resolution_of_not_success (hunit : unit.origins = none)
    (hends : ∀ output errors,
      processes (grep.command (resolver.searchFor unit)) ≠ .exited 0 output errors) :
    ∃ resolution, (resolver.resolve (grep.provider processes) unit).outcome = .ok resolution := by
  rw [Resolver.exists_resolve_eq_ok_iff_nullFree hunit]
  refine ⟨fun fault hfault => ?_, fun found hfound => ?_⟩
  · obtain ⟨cause, -, rfl⟩ := answer_provider_eq_error_iff.mp hfault
    rfl
  · rcases read_eq_ok_cases (answer_provider_eq_ok_iff.mp hfound) with
      ⟨output, errors, -, rfl⟩ | ⟨output, errors, hzero, -⟩
    · simp [Resolver.NullFree]
    · exact absurd hzero (hends output errors)

variable {resolution : Resolution}
  (h : (resolver.resolve (grep.provider processes) unit).outcome = .ok resolution)
include h

theorem failed_iff_isBroken :
    resolution.status = .failed ↔ (processes (grep.command (resolver.searchFor unit))).IsBroken := by
  have hunit := Resolver.origins_of_resolve_eq_ok h
  exact (Resolver.reflects_of_resolve_eq_ok hunit h).failed_iff.trans exists_handled_fault_iff

theorem classified_of_read {found : List Text}
    (hread : read grep.limit (processes (grep.command (resolver.searchFor unit))) = .ok found) :
    resolver.candidates found = .ok resolution.candidates ∧
      resolution.status = .ofCandidates resolution.candidates :=
  Resolver.classified_of_found h (answer_provider_eq_ok_iff.mpr hread)

theorem unmatched_of_read (hread :
    read grep.limit (processes (grep.command (resolver.searchFor unit))) = .ok []) :
    resolution.status = .unmatched ∧ resolution.candidates = [] := by
  obtain ⟨hcandidates, hstatus⟩ := classified_of_read h hread
  have hnone : resolution.candidates = [] := (Except.ok.inj hcandidates).symm
  rw [hstatus, hnone]
  exact ⟨rfl, rfl⟩

end Unit

/-- The search for a unit launches one process, and the resolution goes by how that process ends. Broken
processes are failures and nothing else is one. Nothing found is no candidate, whatever is printed, and
the lines that a successful process prints are classified, whatever it has to tell about errors. The
search does not come to a resolution only if it has been answered with lines. -/
theorem resolution_by_ending (grep : Grep) (processes : Processes) (resolver : Resolver)
    (unit : StyleUnit) :
    ∃ command,
      ((∀ pattern, resolver.glob = some pattern → pattern = []) →
        command = [grep.executable, "grep", "-F", "-e", searchToken unit.selector]) ∧
      (∀ pattern, pattern ≠ [] → resolver.glob = some pattern →
        command = [grep.executable, "grep", "-F", "-e", searchToken unit.selector, "--", pattern]) ∧
      (resolver.resolve (grep.provider processes) unit).searches = [resolver.searchFor unit] ∧
      (resolver.resolve (grep.provider processes) unit).launches =
        [⟨command, grep.limit, grep.directory⟩] ∧
      (∀ fault, grep.answer processes (resolver.searchFor unit) = .error fault →
        fault.token = searchToken unit.selector ∧ fault.command = command) ∧
      (unit.origins = none → (∀ output errors, processes command ≠ .exited 0 output errors) →
        ∃ resolution, (resolver.resolve (grep.provider processes) unit).outcome = .ok resolution) ∧
      ∀ resolution, (resolver.resolve (grep.provider processes) unit).outcome = .ok resolution →
        (resolution.status = .failed ↔ (processes command).IsBroken) ∧
        (∀ output errors, processes command = .exited 1 output errors →
          (∀ c ∈ errors, Text.isBlank c = true) →
          resolution.status = .unmatched ∧ resolution.candidates = []) ∧
        ∀ output errors, processes command = .exited 0 output errors →
          resolver.candidates ((Text.lines output).filter (!·.isEmpty)) = .ok resolution.candidates ∧
          resolution.status = .ofCandidates resolution.candidates := by
  refine ⟨grep.command (resolver.searchFor unit), command_of_no_glob grep _,
    fun pattern hpattern hglob => ?_, resolver.searches_resolve _ unit, ?_, fun fault hfault => ?_,
    fun hunit hends => exists_resolution_of_not_success hunit hends,
    fun resolution hresolution => ⟨failed_iff_isBroken hresolution, ?_, ?_⟩⟩
  · rw [Resolver.searchFor, hglob]
    exact command_of_glob grep _ hpattern
  · rw [resolver.launches_resolve, launches_provider]
    rfl
  · obtain ⟨htoken, hcommand, -⟩ := answer_fault hfault
    exact ⟨htoken, hcommand⟩
  · intro output errors hone hblank
    exact unmatched_of_read hresolution (by rw [hone, read_nothingFound grep.limit output hblank])
  · intro output errors hzero
    exact classified_of_read hresolution (by rw [hzero, read_success])

/-- Nothing is found in words, but the search complains. -/
theorem resolution_by_ending_complaining :
    let grep : Grep := ⟨"git", .ofNat 30, none, "/work"⟩
    let processes : Processes := fun _ => .exited 1 "a.less:.a\n" "fatal: bad object"
    let resolver : Resolver := ⟨"/work", [], "less", some "*.less", none, .usual⟩
    twoWordUnit.origins = none ∧
      (resolver.resolve (grep.provider processes) twoWordUnit).launches =
        [⟨["git", "grep", "-F", "-e", ".a", "--", "*.less"], .ofNat 30, none⟩] ∧
      ∃ resolution, (resolver.resolve (grep.provider processes) twoWordUnit).outcome = .ok resolution ∧
        resolution.status = .failed := by
  intro grep processes resolver
  obtain ⟨command, -, hcommand, -, hlaunch, -, hexists, hresolved⟩ :=
    resolution_by_ending grep processes resolver twoWordUnit
  have htoken : searchToken twoWordUnit.selector = ".a" := by decide +kernel
  rw [htoken] at hcommand
  rw [hcommand "*.less" (by decide) rfl] at hlaunch
  obtain ⟨resolution, hresolution⟩ := hexists rfl (fun output errors => by simp [processes])
  have hbroken : (processes command).IsBroken := .complained ⟨'f', by decide, by decide⟩
  exact ⟨rfl, hlaunch, resolution, hresolution, (hresolved resolution hresolution).1.mpr hbroken⟩

end Grep

/-! ## A whole run -/

/-- Besides what it takes to get the stylesheet, a run launches the processes of one search for each unit,
in the order of units. -/
theorem Prepared.launches_run {machine : Machine} {settings : Settings} {provider : Provider}
    {source : Option Text} {nodes : List Css.Node} {resolver : Resolver}
    (h : Prepared machine settings provider source nodes resolver)
    (deliver : List Resolution → List Resolution) :
    (machine.run settings provider source deliver).launches =
      (machine.input settings source).launches ++
        (unitsOf nodes).flatMap fun unit => provider.launches (resolver.searchFor unit) := by
  obtain ⟨text, htext, hnodes⟩ := h.parsed
  cases hall : (resolver.resolveAll provider (unitsOf nodes)).outcome <;>
    simp [Machine.run, htext, hnodes, Machine.resolveUnits, h.resolver_eq, hall]

end StyleOrigin
