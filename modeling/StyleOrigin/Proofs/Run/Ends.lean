import StyleOrigin.Proofs.Run.Pool
import StyleOrigin.Proofs.Run.Stages

/-! # The ends of a run

A run as it is computed searches for one unit after the other. What its workers do is one of many ways to
the same end: the computed run is an end that the workers can come to, and they can come to no end that
no computed run has, apart from which of several faults stops it.

Where each call may be answered in its own way, an end goes by the answers that the units were given.

* `Prepared`: what a run has come to before its first search.
* `Machine.Ends`: the ends of a run whose searches are made by workers.
* `ComesTo`, `Prepared.exists_ends_iff`: what can become of a run from the answers to its units, which are
  the ends that its workers can come to.
* `ends_run`, `exists_run_of_ends`: the ends and the computed run.
-/
set_option autoImplicit false

namespace StyleOrigin

open Css

/-! ## Before the first search -/

/-- A run has read its stylesheet and has its resolver. -/
structure Prepared (machine : Machine) (settings : Settings) (provider : Provider)
    (source : Option Text) (nodes : List Node) (resolver : Resolver) : Prop where
  parsed : ∃ text, (machine.input settings source).outcome = .ok text ∧ parse text = .ok nodes
  resolver_eq : machine.resolverOf settings provider = .ok resolver

section Computed
variable {machine : Machine} {settings : Settings} {provider : Provider} {source : Option Text}
  {nodes : List Node} {resolver : Resolver}

theorem Prepared.searches_run (h : Prepared machine settings provider source nodes resolver)
    (deliver : List Resolution → List Resolution) :
    (machine.run settings provider source deliver).searches =
      (unitsOf nodes).map resolver.searchFor := by
  obtain ⟨text, htext, hnodes⟩ := h.parsed
  cases hall : (resolver.resolveAll provider (unitsOf nodes)).outcome <;>
    simp [Machine.run, htext, hnodes, Machine.resolveUnits, h.resolver_eq, hall]

theorem Prepared.stages (h : Prepared machine settings provider source nodes resolver)
    {resolutions : List Resolution}
    (hresolutions : (resolver.resolveAll provider (unitsOf nodes)).outcome = .ok resolutions) :
    RunStages machine settings provider source nodes resolver resolutions :=
  ⟨h.parsed, h.resolver_eq, Resolver.resolveAll_eq_ok_iff.mp hresolutions⟩

theorem Prepared.outcome_run_of_fault (h : Prepared machine settings provider source nodes resolver)
    {fault : Interruption}
    (hfault : (resolver.resolveAll provider (unitsOf nodes)).outcome = .error fault)
    (deliver : List Resolution → List Resolution) :
    (machine.run settings provider source deliver).outcome = .error (.interrupted fault) := by
  obtain ⟨text, htext, hnodes⟩ := h.parsed
  simp [Machine.run, htext, hnodes, Machine.resolveUnits, h.resolver_eq, hfault]

theorem Prepared.unique {nodes' : List Node} {resolver' : Resolver}
    (h : Prepared machine settings provider source nodes resolver)
    (h' : Prepared machine settings provider source nodes' resolver') :
    nodes = nodes' ∧ resolver = resolver' := by
  obtain ⟨text, htext, hnodes⟩ := h.parsed
  obtain ⟨text', htext', hnodes'⟩ := h'.parsed
  obtain rfl : text = text' := Except.ok.inj (htext.symm.trans htext')
  exact ⟨Except.ok.inj (hnodes.symm.trans hnodes'),
    Except.ok.inj (h.resolver_eq.symm.trans h'.resolver_eq)⟩

end Computed

/-! ## The ends of a run -/

/-- What a run comes to when its workers are done: the fault that its reader met, or what is made of the
resolutions that it fetched. -/
def Pool.outcome (unitCount : Nat) (pool : Pool) : Except RunFault Report :=
  match pool.stopped with
  | some fault => .error (.interrupted fault)
  | none => collect unitCount pool.arrived

/-- The ends of a run whose searches are made by workers: what it comes to, and the calls made by then. -/
inductive Machine.Ends (machine : Machine) (settings : Settings) (provider : Provider)
    (answers : Answers) (source : Option Text) : Except RunFault Report → List Search → Prop
  | unloaded {fault : LoadFault} (fails : (machine.input settings source).outcome = .error fault) :
      Ends machine settings provider answers source (.error (.load fault)) []
  | unparsed {text : Text} {fault : OverlongInteger}
      (loaded : (machine.input settings source).outcome = .ok text) (fails : parse text = .error fault) :
      Ends machine settings provider answers source (.error (.parse fault)) []
  | unready {text : Text} {nodes : List Node} {fault : Path.NullByte}
      (loaded : (machine.input settings source).outcome = .ok text) (parsed : parse text = .ok nodes)
      (fails : machine.resolverOf settings provider = .error fault) :
      Ends machine settings provider answers source (.error (.setup fault)) []
  | searched {nodes : List Node} {resolver : Resolver} {pool : Pool}
      (prepared : Prepared machine settings provider source nodes resolver)
      (reaches : Pool.Reaches resolver answers (Pool.start (unitsOf nodes)) pool) (isOver : pool.IsOver) :
      Ends machine settings provider answers source (pool.outcome (unitsOf nodes).length) pool.calls

section Ends
variable {machine : Machine} {settings : Settings} {provider : Provider} {answers : Answers}
  {source : Option Text} {outcome : Except RunFault Report} {calls : List Search}

theorem calls_of_not_prepared (h : machine.Ends settings provider answers source outcome calls)
    (hnot : ¬∃ nodes resolver, Prepared machine settings provider source nodes resolver) :
    calls = [] := by
  cases h with
  | unloaded fails => rfl
  | unparsed loaded fails => rfl
  | unready loaded parsed fails => rfl
  | searched prepared reaches isOver => exact absurd ⟨_, _, prepared⟩ hnot

/-- A run that gets to a report was prepared. -/
theorem exists_prepared_of_ends (h : machine.Ends settings provider answers source outcome calls)
    {report : Report} (hreport : outcome = .ok report) :
    ∃ nodes resolver, Prepared machine settings provider source nodes resolver := by
  cases h with
  | unloaded fails => exact absurd hreport (by simp)
  | unparsed loaded fails => exact absurd hreport (by simp)
  | unready loaded parsed fails => exact absurd hreport (by simp)
  | searched prepared reaches isOver => exact ⟨_, _, prepared⟩

theorem searches_of_not_prepared
    (hnot : ¬∃ nodes resolver, Prepared machine settings provider source nodes resolver)
    (deliver : List Resolution → List Resolution) :
    (machine.run settings provider source deliver).searches = [] := by
  cases htext : (machine.input settings source).outcome with
  | error fault => simp [Machine.run, htext]
  | ok text =>
    cases hnodes : parse text with
    | error fault => simp [Machine.run, htext, hnodes]
    | ok nodes =>
      cases hresolver : machine.resolverOf settings provider with
      | error fault => simp [Machine.run, htext, hnodes, Machine.resolveUnits, hresolver]
      | ok resolver => exact absurd ⟨nodes, resolver, ⟨text, htext, hnodes⟩, hresolver⟩ hnot

theorem Prepared.exists_pool {nodes : List Node} {resolver : Resolver}
    (h : Prepared machine settings provider source nodes resolver)
    (hends : machine.Ends settings provider answers source outcome calls) :
    ∃ pool, Pool.Reaches resolver answers (Pool.start (unitsOf nodes)) pool ∧ pool.IsOver ∧
      outcome = pool.outcome (unitsOf nodes).length ∧ calls = pool.calls := by
  obtain ⟨text, htext, hnodes⟩ := h.parsed
  cases hends with
  | unloaded fails => exact absurd (htext.symm.trans fails) (by simp)
  | unparsed loaded fails =>
    obtain rfl := Except.ok.inj (htext.symm.trans loaded)
    exact absurd (hnodes.symm.trans fails) (by simp)
  | unready loaded parsed fails => exact absurd (h.resolver_eq.symm.trans fails) (by simp)
  | @searched nodes' resolver' pool prepared reaches isOver =>
    obtain ⟨rfl, rfl⟩ := h.unique prepared
    exact ⟨pool, reaches, isOver, rfl, rfl⟩

end Ends

/-! ## Ends by answers -/

/-- What can become of a run from the answers to its units: a fault that one of them comes to, or what is
made of their resolutions, which arrive in any order. -/
inductive ComesTo (resolver : Resolver) (answered : List Answered) : Except RunFault Report → Prop
  | stopped {given : Answered} {fault : Interruption} (mem : given ∈ answered)
      (fails : given.result resolver = .error fault) :
      ComesTo resolver answered (.error (.interrupted fault))
  | collected {resolutions arrived : List Resolution}
      (resolved : List.Forall₂ (fun given resolution => given.result resolver = .ok resolution) answered
        resolutions)
      (arrives : arrived.Perm resolutions) :
      ComesTo resolver answered (collect answered.length arrived)

/-- What the workers come to is made of the answers that they got, one for each unit. -/
theorem Pool.exists_answered_of_outcome {resolver : Resolver} {answers : Answers}
    {units : List StyleUnit} {pool : Pool} (h : Pool.Reaches resolver answers (Pool.start units) pool)
    (hover : pool.IsOver) :
    ∃ answered : List Answered, answered.map Answered.unit = units ∧
      (∀ given ∈ answered, answers (resolver.searchFor given.unit) given.answer) ∧
      ComesTo resolver answered (pool.outcome units.length) := by
  obtain ⟨answered, hunits, hanswers, hresults⟩ := Pool.exists_answered_of_isOver h hover
  refine ⟨answered, hunits, hanswers, ?_⟩
  cases hstopped : pool.stopped with
  | some fault =>
    have hmem : .error fault ∈ pool.results := by simp [Pool.results, hstopped]
    obtain ⟨given, hgiven, hfails⟩ := List.mem_map.mp (hresults.subset hmem)
    rw [Pool.outcome, hstopped]
    exact .stopped hgiven hfails
  | none =>
    -- All results are resolutions, and they were fetched in some order.
    have hfetched : pool.results = pool.arrived.map .ok := by
      simp [Pool.results, hstopped, hover.read hstopped]
    rw [hfetched] at hresults
    obtain ⟨resolutions, hmap, harrived⟩ := exists_map_eq_of_perm hresults
    have hresolved : List.Forall₂ (fun given resolution => given.result resolver = .ok resolution)
        answered resolutions := by
      rw [← List.forall₂_map_right_iff (f := Except.ok), hmap, List.forall₂_map_right_iff]
      exact List.forall₂_same.mpr fun _ _ => rfl
    rw [Pool.outcome, hstopped, ← hunits, List.length_map]
    exact .collected hresolved harrived.symm

theorem Prepared.exists_answered_of_ends {machine : Machine} {settings : Settings} {provider : Provider}
    {answers : Answers} {source : Option Text} {nodes : List Node} {resolver : Resolver}
    {outcome : Except RunFault Report} {calls : List Search}
    (h : Prepared machine settings provider source nodes resolver)
    (hends : machine.Ends settings provider answers source outcome calls) :
    ∃ answered : List Answered, answered.map Answered.unit = unitsOf nodes ∧
      (∀ given ∈ answered, answers (resolver.searchFor given.unit) given.answer) ∧
      ComesTo resolver answered outcome := by
  obtain ⟨pool, hreaches, hover, rfl, -⟩ := h.exists_pool hends
  exact Pool.exists_answered_of_outcome hreaches hover

namespace Pool
variable {resolver : Resolver} {answers : Answers}

/-- One worker can do all the work, unit after unit. -/
theorem reaches_ended (answered : List Answered)
    (hanswers : ∀ given ∈ answered, answers (resolver.searchFor given.unit) given.answer)
    (ended : List (Except Interruption Resolution)) (calls : List Search) :
    Reaches resolver answers ⟨answered.map Answered.unit, [], [], ended, calls, [], none⟩
      ⟨[], [], [], (answered.map (Answered.result resolver)).reverse ++ ended,
        calls ++ (answered.map Answered.unit).map resolver.searchFor, [], none⟩ := by
  induction answered generalizing ended calls with
  | nil => simpa using Relation.ReflTransGen.refl
  | cons given rest ih =>
    obtain ⟨hfirst, hothers⟩ := List.forall_mem_cons.mp hanswers
    have hfree : ((start [given.unit]).inFlight : Int) < resolver.maxInFlight.limit := by
      have := resolver.maxInFlight.limit_pos
      simpa [start, inFlight] using this
    have htake : Step resolver answers
        ⟨given.unit :: rest.map Answered.unit, [], [], ended, calls, [], none⟩
        ⟨rest.map Answered.unit, [given.unit], [], ended, calls, [], none⟩ := .take rfl hfree
    have hask : Step resolver answers
        ⟨rest.map Answered.unit, [given.unit], [], ended, calls, [], none⟩
        ⟨rest.map Answered.unit, [], [given.unit], ended, calls ++ [resolver.searchFor given.unit], [],
          none⟩ :=
      @Step.ask _ _ _ [] [] given.unit rfl
    have hanswer : Step resolver answers
        ⟨rest.map Answered.unit, [], [given.unit], ended, calls ++ [resolver.searchFor given.unit], [],
          none⟩
        ⟨rest.map Answered.unit, [], [], given.result resolver :: ended,
          calls ++ [resolver.searchFor given.unit], [], none⟩ :=
      @Step.answer _ _ _ [] [] given.unit given.answer rfl hfirst
    have hrest := ih hothers (given.result resolver :: ended) (calls ++ [resolver.searchFor given.unit])
    simp only [List.map_cons, List.reverse_cons, List.append_assoc, List.singleton_append] at hrest ⊢
    exact .head htake (.head hask (.head hanswer hrest))

/-- The reader can fetch resolutions in any order. -/
theorem reaches_arrived {ended : List (Except Interruption Resolution)}
    {resolutions : List Resolution} (h : (resolutions.map .ok).Perm ended) (calls : List Search)
    (arrived : List Resolution) :
    Reaches resolver answers ⟨[], [], [], ended, calls, arrived, none⟩
      ⟨[], [], [], [], calls, arrived ++ resolutions, none⟩ := by
  induction resolutions generalizing ended arrived with
  | nil =>
    obtain rfl : ended = [] := by simpa using h.symm
    simpa using Relation.ReflTransGen.refl
  | cons resolution rest ih =>
    have hmem : .ok resolution ∈ ended := h.subset List.mem_cons_self
    obtain ⟨front, back, rfl⟩ := List.append_of_mem hmem
    have hrest : (rest.map .ok).Perm (front ++ back) := (h.trans List.perm_middle).cons_inv
    have hfetch : Step resolver answers
        ⟨[], [], [], front ++ .ok resolution :: back, calls, arrived, none⟩
        ⟨[], [], [], front ++ back, calls, arrived ++ [resolution], none⟩ := .fetch rfl rfl
    have hreaches := ih hrest (arrived ++ [resolution])
    rw [List.append_assoc, List.singleton_append] at hreaches
    exact .head hfetch hreaches

end Pool

/-- Whatever can become of a run from answers is an end that its workers can come to. -/
theorem Prepared.ends_of_comesTo {machine : Machine} {settings : Settings} {provider : Provider}
    {answers : Answers} {source : Option Text} {nodes : List Node} {resolver : Resolver}
    {answered : List Answered} {outcome : Except RunFault Report}
    (h : Prepared machine settings provider source nodes resolver)
    (hunits : answered.map Answered.unit = unitsOf nodes)
    (hanswers : ∀ given ∈ answered, answers (resolver.searchFor given.unit) given.answer)
    (hcomes : ComesTo resolver answered outcome) :
    machine.Ends settings provider answers source outcome
      ((unitsOf nodes).map resolver.searchFor) := by
  have hended := Pool.reaches_ended answered hanswers [] []
  rw [List.append_nil, List.nil_append, hunits] at hended
  cases hcomes with
  | @stopped given fault mem fails =>
    have hmem : .error fault ∈ (answered.map (Answered.result resolver)).reverse :=
      List.mem_reverse.mpr (List.mem_map.mpr ⟨given, mem, fails⟩)
    obtain ⟨front, back, hparts⟩ := List.append_of_mem hmem
    exact .searched h (hended.tail (.stop hparts rfl))
      ⟨rfl, rfl, rfl, fun hnone => absurd hnone (by simp)⟩
  | @collected resolutions arrived resolved arrives =>
    have hresults : answered.map (Answered.result resolver) = resolutions.map .ok :=
      map_eq_of_forall₂ resolved fun given _ resolution hresult => hresult
    have hmatch : (arrived.map .ok).Perm (answered.map (Answered.result resolver)).reverse := by
      rw [hresults]
      exact (arrives.map _).trans (List.reverse_perm _).symm
    rw [← List.length_map (f := Answered.unit), hunits]
    exact .searched h (hended.trans (Pool.reaches_arrived hmatch _ [])) ⟨rfl, rfl, rfl, fun _ => rfl⟩

/-- The ends that workers can come to are what can become of a run from the answers that its units may be
given. -/
theorem Prepared.exists_ends_iff {machine : Machine} {settings : Settings} {provider : Provider}
    {answers : Answers} {source : Option Text} {nodes : List Node} {resolver : Resolver}
    {outcome : Except RunFault Report}
    (h : Prepared machine settings provider source nodes resolver) :
    (∃ calls, machine.Ends settings provider answers source outcome calls) ↔
      ∃ answered : List Answered, answered.map Answered.unit = unitsOf nodes ∧
        (∀ given ∈ answered, answers (resolver.searchFor given.unit) given.answer) ∧
        ComesTo resolver answered outcome := by
  constructor
  · rintro ⟨calls, hends⟩
    exact h.exists_answered_of_ends hends
  · rintro ⟨answered, hunits, hanswers, hcomes⟩
    exact ⟨_, h.ends_of_comesTo hunits hanswers hcomes⟩

/-! ## Workers and the computed run -/

/-- A unit with the answer that a provider has for its search. -/
def Provider.answered (provider : Provider) (resolver : Resolver) (unit : StyleUnit) : Answered :=
  ⟨unit, provider.answer (resolver.searchFor unit)⟩

theorem RunStages.forall₂_answered {machine : Machine} {settings : Settings} {provider : Provider}
    {source : Option Text} {nodes : List Node} {resolver : Resolver} {resolutions : List Resolution}
    (h : RunStages machine settings provider source nodes resolver resolutions) :
    List.Forall₂ (fun given resolution => given.result resolver = .ok resolution)
      ((unitsOf nodes).map (provider.answered resolver)) resolutions :=
  List.forall₂_map_left_iff.mpr h.resolved

section Agreement
variable {machine : Machine} {settings : Settings} {provider : Provider} {source : Option Text}
  {nodes : List Node} {resolver : Resolver} {deliver : List Resolution → List Resolution}

theorem Prepared.comesTo_run (h : Prepared machine settings provider source nodes resolver)
    (hdeliver : ∀ resolutions, (deliver resolutions).Perm resolutions) :
    ComesTo resolver ((unitsOf nodes).map (provider.answered resolver))
      (machine.run settings provider source deliver).outcome := by
  cases hall : (resolver.resolveAll provider (unitsOf nodes)).outcome with
  | ok resolutions =>
    have hresolved := (h.stages hall).forall₂_answered
    have hcollected := ComesTo.collected hresolved (hdeliver resolutions)
    rw [List.length_map] at hcollected
    rw [(h.stages hall).outcome_eq]
    exact hcollected
  | error fault =>
    obtain ⟨unit, hunit, hfault⟩ := Resolver.exists_of_resolveAll_eq_error hall
    rw [h.outcome_run_of_fault hall deliver]
    exact .stopped (List.mem_map_of_mem hunit) hfault

theorem Prepared.ends_run (h : Prepared machine settings provider source nodes resolver)
    (hdeliver : ∀ resolutions, (deliver resolutions).Perm resolutions) :
    machine.Ends settings provider provider.answers source
      (machine.run settings provider source deliver).outcome
      (machine.run settings provider source deliver).searches := by
  have hunits : ((unitsOf nodes).map (provider.answered resolver)).map Answered.unit = unitsOf nodes := by
    rw [List.map_map]
    exact List.map_id _
  have hanswers : ∀ given ∈ (unitsOf nodes).map (provider.answered resolver),
      provider.answers (resolver.searchFor given.unit) given.answer :=
    List.forall_mem_map.mpr fun unit _ => rfl
  rw [h.searches_run]
  exact h.ends_of_comesTo hunits hanswers (h.comesTo_run hdeliver)

/-- The computed run is one that its workers can come to. -/
theorem ends_run
    (hdeliver : ∀ resolutions, (deliver resolutions).Perm resolutions) :
    machine.Ends settings provider provider.answers source
      (machine.run settings provider source deliver).outcome
      (machine.run settings provider source deliver).searches := by
  cases htext : (machine.input settings source).outcome with
  | error fault => simpa [Machine.run, htext] using .unloaded htext
  | ok text =>
    cases hnodes : parse text with
    | error fault => simpa [Machine.run, htext, hnodes] using .unparsed htext hnodes
    | ok nodes =>
      cases hresolver : machine.resolverOf settings provider with
      | error fault =>
        simpa [Machine.run, htext, hnodes, Machine.resolveUnits, hresolver] using
          .unready htext hnodes hresolver
      | ok resolver => exact Prepared.ends_run ⟨⟨text, htext, hnodes⟩, hresolver⟩ hdeliver

/-- A search with a fault leaves no computed resolutions. -/
theorem exists_fault_of_mem {units : List StyleUnit} {unit : StyleUnit} {fault : Interruption}
    (hunit : unit ∈ units) (h : (resolver.resolve provider unit).outcome = .error fault) :
    ∃ fault', (resolver.resolveAll provider units).outcome = .error fault' := by
  cases hall : (resolver.resolveAll provider units).outcome with
  | error fault' => exact ⟨fault', rfl⟩
  | ok resolutions =>
    obtain ⟨resolution, -, hresolved⟩ :=
      exists_of_mem_forall₂_left (Resolver.resolveAll_eq_ok_iff.mp hall) hunit
    exact absurd (h.symm.trans hresolved) (by simp)

/-- What arrives in some order is delivered in that order. -/
theorem exists_deliver {arrived resolutions : List Resolution} (h : arrived.Perm resolutions) :
    ∃ deliver : List Resolution → List Resolution,
      (∀ other, (deliver other).Perm other) ∧ deliver resolutions = arrived := by
  classical
  refine ⟨Function.update id resolutions arrived, fun other => ?_, Function.update_self ..⟩
  by_cases hsame : other = resolutions
  · rw [hsame, Function.update_self]
    exact h
  · rw [Function.update_of_ne hsame]
    exact .refl other

theorem Prepared.exists_run (h : Prepared machine settings provider source nodes resolver)
    {answered : List Answered} {outcome : Except RunFault Report}
    (hunits : answered.map Answered.unit = unitsOf nodes)
    (hanswers : ∀ given ∈ answered, provider.answers (resolver.searchFor given.unit) given.answer)
    (hcomes : ComesTo resolver answered outcome) :
    ∃ deliver, (∀ resolutions, (deliver resolutions).Perm resolutions) ∧
      ((machine.run settings provider source deliver).outcome = outcome ∨
        ∃ fault fault', outcome = .error (.interrupted fault) ∧
          (machine.run settings provider source deliver).outcome = .error (.interrupted fault')) := by
  have hresult : ∀ given ∈ answered,
      given.result resolver = (resolver.resolve provider given.unit).outcome := by
    intro given hgiven
    rw [Answered.result, ← hanswers given hgiven, Resolver.outcome_resolve]
  cases hcomes with
  | @stopped given fault mem fails =>
    have hunit : given.unit ∈ unitsOf nodes := hunits ▸ List.mem_map_of_mem mem
    obtain ⟨fault', hall⟩ := exists_fault_of_mem hunit ((hresult given mem).symm.trans fails)
    exact ⟨id, fun _ => .refl _, .inr ⟨fault, fault', rfl, h.outcome_run_of_fault hall id⟩⟩
  | @collected resolutions arrived resolved arrives =>
    have hall : (resolver.resolveAll provider (unitsOf nodes)).outcome = .ok resolutions := by
      rw [Resolver.resolveAll_eq_ok_iff, ← hunits, List.forall₂_map_left_iff]
      refine ((List.forall₂_and_left _ _).mpr ⟨hresult, resolved⟩).imp ?_
      exact fun given resolution hboth => hboth.1.symm.trans hboth.2
    obtain ⟨deliver, hdeliver, hgives⟩ := exists_deliver arrives
    refine ⟨deliver, hdeliver, .inl ?_⟩
    rw [(h.stages hall).outcome_eq, hgives, ← hunits, List.length_map]

/-- Whatever its workers come to is what a computed run comes to, for some order of delivery. Of several
faults that nobody handles, another one may be met first. -/
theorem exists_run_of_ends {outcome : Except RunFault Report} {calls : List Search}
    (h : machine.Ends settings provider provider.answers source outcome calls) :
    ∃ deliver, (∀ resolutions, (deliver resolutions).Perm resolutions) ∧
      calls.Perm (machine.run settings provider source deliver).searches ∧
      ((machine.run settings provider source deliver).outcome = outcome ∨
        ∃ fault fault', outcome = .error (.interrupted fault) ∧
          (machine.run settings provider source deliver).outcome = .error (.interrupted fault')) := by
  cases h with
  | unloaded fails => exact ⟨id, fun _ => .refl _, by simp [Machine.run, fails]⟩
  | unparsed loaded fails => exact ⟨id, fun _ => .refl _, by simp [Machine.run, loaded, fails]⟩
  | unready loaded parsed fails =>
    exact ⟨id, fun _ => .refl _, by simp [Machine.run, loaded, parsed, Machine.resolveUnits, fails]⟩
  | searched prepared reaches isOver =>
    obtain ⟨answered, hunits, hanswers, hcomes⟩ := Pool.exists_answered_of_outcome reaches isOver
    obtain ⟨deliver, hdeliver, hrun⟩ := prepared.exists_run hunits hanswers hcomes
    refine ⟨deliver, hdeliver, ?_, hrun⟩
    rw [prepared.searches_run]
    exact Pool.calls_perm_of_isOver reaches isOver

end Agreement

end StyleOrigin
