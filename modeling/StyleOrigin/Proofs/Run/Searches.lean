import StyleOrigin.Proofs.Run.Conservation
import StyleOrigin.Proofs.Run.Ends
import StyleOrigin.Proofs.Run.Ignored

/-! # The searches of a run

No search is made before the stylesheet is read and the resolver is set up. From then on each unit is
searched for once, also if a fault stops the run.

* `one_search_for_each_unit`: the searches of a run, computed or made by workers.
-/
set_option autoImplicit false

namespace StyleOrigin

open Css

/-- The searches of the resolver are for the tokens of units, under the pattern of the settings. -/
theorem map_searchFor {machine : Machine} {settings : Settings} {provider : Provider}
    {source : Option Text} {nodes : List Node} {resolver : Resolver}
    (h : Prepared machine settings provider source nodes resolver)
    (units : List StyleUnit) :
    units.map resolver.searchFor =
      units.map fun unit => ⟨searchToken unit.selector, settings.rootGlob⟩ := by
  rw [← glob_of_resolverOf h.resolver_eq]
  rfl

/-- Nothing is searched for before the stylesheet is read and the resolver is set up. From then on there
is one search for each unit, whatever the calls are answered: also when some of them fail, and when one
of them ends the run. Workers that get answers come to an end. -/
theorem one_search_for_each_unit (machine : Machine) (settings : Settings) (provider : Provider)
    (source : Option Text) :
    ((¬∃ nodes resolver, Prepared machine settings provider source nodes resolver) →
      (∀ deliver, (machine.run settings provider source deliver).searches = []) ∧
      ∀ answers outcome calls, machine.Ends settings provider answers source outcome calls →
        calls = []) ∧
    ∀ nodes resolver, Prepared machine settings provider source nodes resolver →
      (∀ deliver, (machine.run settings provider source deliver).searches.Perm
        ((unitsOf nodes).map fun unit => ⟨searchToken unit.selector, settings.rootGlob⟩)) ∧
      (∀ answers outcome calls, machine.Ends settings provider answers source outcome calls →
        calls.Perm ((unitsOf nodes).map fun unit => ⟨searchToken unit.selector, settings.rootGlob⟩)) ∧
      ∀ answers : Answers, (∀ search, ∃ found, answers search found) →
        ∃ outcome calls, machine.Ends settings provider answers source outcome calls := by
  refine ⟨fun hnot => ⟨searches_of_not_prepared hnot, fun answers outcome calls hends =>
    calls_of_not_prepared hends hnot⟩, fun nodes resolver hprepared => ⟨?_, ?_, ?_⟩⟩
  · intro deliver
    rw [hprepared.searches_run, map_searchFor hprepared]
  · intro answers outcome calls hends
    obtain ⟨pool, hreaches, hover, -, rfl⟩ := hprepared.exists_pool hends
    rw [← map_searchFor hprepared]
    exact Pool.calls_perm_of_isOver hreaches hover
  · intro answers hanswers
    obtain ⟨pool, hreaches, hover⟩ := Pool.exists_isOver hanswers (Pool.start (unitsOf nodes))
    exact ⟨_, _, .searched hprepared hreaches hover⟩

/-- The second of three searches ends the run, and all three are made. Without a file there is none. -/
theorem one_search_for_each_unit_stopped :
    let settings : Settings := { inputPath := "main.css", rootGlob := some "*.less" }
    let provider : Provider := .ofAnswers (fun search =>
      if search.token = ".b".toList then .error (.foreign "stopped") else .ok []) none
    let stopped := bareMachine.run settings provider (some sampleSource) id
    stopped.outcome.isOk = false ∧
      stopped.searches.Perm
        [⟨".a", some "*.less"⟩, ⟨".b", some "*.less"⟩, ⟨".c", some "*.less"⟩] ∧
      (bareMachine.run settings provider none id).searches = [] := by
  intro settings provider stopped
  have hstopped : stopped.outcome.isOk = false := by decide +kernel
  have hread : (parse sampleSource).map (fun nodes => (unitsOf nodes).map (·.selector)) =
      .ok [".a", ".b", ".c"] := by decide +kernel
  have hmissing : (bareMachine.input settings none).outcome.isOk = false := by decide +kernel
  obtain ⟨resolver, hresolver⟩ : ∃ resolver, bareMachine.resolverOf settings provider = .ok resolver :=
    exists_resolverOf_eq_ok (by decide +kernel) (by decide +kernel)
  refine ⟨hstopped, ?_, ?_⟩
  · obtain ⟨nodes, hnodes, hselectors⟩ := exists_of_map_eq_ok hread
    have hall := ((one_search_for_each_unit bareMachine settings provider (some sampleSource)).2 nodes
      resolver ⟨⟨sampleSource, rfl, hnodes⟩, hresolver⟩).1 id
    rw [← Function.comp_def (fun selector => (⟨searchToken selector, settings.rootGlob⟩ : Search))
      StyleUnit.selector, ← List.map_map, hselectors] at hall
    exact hall
  · refine ((one_search_for_each_unit bareMachine settings provider none).1 ?_).1 id
    rintro ⟨nodes, resolver', ⟨text, htext, -⟩, -⟩
    rw [isOk_iff_exists.mpr ⟨text, htext⟩] at hmissing
    exact absurd hmissing (by simp)

end StyleOrigin
