import Mathlib.Data.List.DropRight
import StyleOrigin.Proofs.Media.Query
import StyleOrigin.Proofs.Media.Survival
import StyleOrigin.Proofs.Run.Conservation

/-! # Fragments of a run, written and read

The rules of a fragment come from the stylesheet of the run, each narrowed to one of its selectors, and
the condition is read from the query of the fragment. So the law for fragments holds for each fragment
of each report.

* `ready_of_mem_unitsOf`: the rule of a unit may stand in a fragment.
* `ready_of_mem_files`: the fragments of a report are made of such rules.
* `fragment_survives_iff`: in a whole run, the fragments that are read as they were written.
-/
set_option autoImplicit false

namespace StyleOrigin

open Css

/-! ## Selectors -/

theorem mem_splitSelectors {prelude group : List Token} (h : group ∈ splitSelectors prelude) :
    (∀ token ∈ group, token ∈ prelude) ∧
      ∃ first others, group = first :: others ∧ first.isGap = false := by
  obtain ⟨hmem, hne⟩ := List.mem_filter.mp h
  obtain ⟨piece, hpiece, rfl⟩ := List.mem_map.mp hmem
  have hbegins : trimWhere Token.isGap piece <+: piece.dropWhile Token.isGap :=
    List.rdropWhile_prefix _ _
  have hsuffix : piece.dropWhile Token.isGap <:+ piece := List.dropWhile_suffix _
  constructor
  · intro token htoken
    exact (not_cut_of_mem_splitWhere hpiece token (hsuffix.subset (hbegins.subset htoken))).2
  · cases hgroup : trimWhere Token.isGap piece with
    | nil => exact absurd hne (by simp [hgroup])
    | cons first others =>
      refine ⟨first, others, rfl, ?_⟩
      rw [hgroup] at hbegins
      obtain ⟨rest, hrest⟩ := hbegins
      have hhead : (piece.dropWhile Token.isGap).head? = some first := by rw [← hrest]; rfl
      have h := List.head?_dropWhile_not Token.isGap piece
      rw [hhead] at h
      simpa using h

/-! ## Units -/

theorem mem_unitsOf {nodes : List Node} {unit : StyleUnit} (h : unit ∈ unitsOf nodes) :
    ∃ node block rule group index, node ∈ nodes ∧ node.mediaBlock? = some block ∧ rule ∈ block.rules ∧
      group ∈ splitSelectors rule.prelude ∧ unit = Piece.unit index ⟨block.query, rule, group⟩ := by
  obtain ⟨index, hlt, rfl⟩ := List.mem_mapIdx.mp h
  obtain ⟨block, hblock, hpiece⟩ := List.mem_flatMap.mp (List.getElem_mem hlt)
  obtain ⟨rule, hrule, hpiece⟩ := List.mem_flatMap.mp hpiece
  obtain ⟨group, hgroup, heq⟩ := List.mem_map.mp hpiece
  obtain ⟨node, hnode, hmedia⟩ := List.mem_filterMap.mp hblock
  exact ⟨node, block, rule, group, index, hnode, hmedia, hrule, hgroup, by rw [← heq]⟩

/-- A rule of a block of a source, narrowed to one of its selectors, may stand in a fragment. -/
theorem ready_narrow {body : List Token} (hsound : SoundAll body) (hfree : CommentFree body)
    (hclosed : ∀ token ∈ body, token.isUnmatched .curly = false)
    (hshort : ∀ lexeme ∈ flat body, lexeme.overlong? = none) {rule : Rule}
    (hrule : rule ∈ rulesOf (nodes body)) {group : List Token}
    (hgroup : group ∈ splitSelectors rule.prelude) : (rule.narrow group).Ready := by
  obtain ⟨hcurly, front, place, back, hstands⟩ := standsIn_of_mem_nodesFrom.1 _ (mem_rulesOf.mp hrule)
  obtain ⟨hselector, first, others, hparts, hgap⟩ := mem_splitSelectors hgroup
  have hblock : Token.group place (.bracket .curly) rule.body ∈ body := by simp [hstands]
  have hmem : ∀ token ∈ group, token ∈ body := fun token htoken => by
    have := hselector token htoken
    simp [hstands, this]
  have hspace := sheltered_space rule.position (by simp) (by decide : [' '].all isWhitespace = true)
  have hspaceFree : CommentFree [.leaf rule.position (.whitespace [' '])] := by
    simp [CommentFree, flat, Token.flat, Lexeme.isComment]
  obtain ⟨hholds, hbody⟩ := (hsound.each _ hblock).of_group
  refine ⟨⟨first, others, rule.position, ?_, hgap⟩, ?_, ?_, ⟨?_, ?_⟩, ?_⟩
  · rw [Rule.narrow, hparts]
  · intro token htoken
    obtain htoken | htoken := List.mem_append.mp htoken
    · exact ⟨hsound.each token (hmem token htoken), hcurly token (hselector token htoken),
        hclosed token (hmem token htoken)⟩
    · obtain rfl := List.mem_singleton.mp htoken
      exact ⟨hspace.sound.each _ List.mem_cons_self, rfl, rfl⟩
  · exact .group .start hholds hbody.chain hbody.each
  · exact (hfree.of_subset hmem).append hspaceFree
  · exact (plain_content hsound hfree hblock).2
  · intro lexeme hlexeme
    obtain hlexeme | hlexeme := List.mem_append.mp hlexeme
    · rw [Rule.narrow, flat_append] at hlexeme
      obtain hlexeme | hlexeme := List.mem_append.mp hlexeme
      · exact hshort lexeme (flat_subset hmem hlexeme)
      · exact hspace.short lexeme hlexeme
    · exact hshort lexeme (flat_content hblock hlexeme)

theorem ready_of_mem_unitsOf {text : Text} {nodes : List Node} (hparse : parse text = .ok nodes)
    {unit : StyleUnit} (h : unit ∈ unitsOf nodes) : unit.rule.Ready := by
  obtain ⟨ts, hts, hnodes⟩ := exists_of_map_eq_ok hparse
  obtain ⟨hread, hfree⟩ := wellRead_of_tokens hts
  have hfree := hfree rfl
  obtain ⟨node, block, rule, group, index, hnode, hmedia, hrule, hgroup, rfl⟩ := mem_unitsOf h
  obtain ⟨keyword, rfl⟩ := mediaBlock_eq_some hmedia
  rw [← hnodes] at hnode
  obtain ⟨front, opener, place, back, hstands⟩ := standsIn_of_mem_nodesFrom.1 _ hnode _ rfl
  have hbody : Token.group place (.bracket .curly) block.body ∈ ts := by simp [hstands]
  obtain ⟨hinside, hinsideFree⟩ := plain_content hread.sound hfree hbody
  have hholds := (hread.sound.each _ hbody).of_group.1
  exact ready_narrow hinside hinsideFree hholds.closed
    (fun lexeme hlexeme => hread.short lexeme (flat_content hbody hlexeme)) hrule hgroup

/-! ## Fragments of a report -/

section Run
variable {machine : Machine} {settings : Settings} {provider : Provider} {source : Option Text}
  {deliver : List Resolution → List Resolution}

theorem RunStages.exists_unit_of_mem {nodes : List Node} {resolver : Resolver}
    {resolutions : List Resolution}
    (h : RunStages machine settings provider source nodes resolver resolutions)
    {resolution : Resolution} (hmem : resolution ∈ resolutions) :
    ∃ unit ∈ unitsOf nodes, resolution.unit.rule = unit.rule := by
  obtain ⟨unit, hunit, hresolve⟩ := exists_of_mem_forall₂_right h.resolved hmem
  refine ⟨unit, hunit, ?_⟩
  obtain ⟨fault, rfl⟩ | ⟨found, candidates, _, rfl⟩ :=
    Resolver.resolve_eq_ok (origins_of_mem_unitsOf hunit) hresolve
  · rfl
  · rfl

theorem exists_resolution_of_mem_units {arrived : List Resolution} {group : Group}
    (hgroup : group ∈ (Ledger.empty.addAll arrived).groups) {unit : StyleUnit}
    (hunit : unit ∈ group.units) : ∃ resolution ∈ arrived, resolution.unit.rule = unit.rule := by
  have hplace : Place.rule group.path group.query unit.rule ∈ arrived.map Resolution.place := by
    have hledger := Ledger.places_addAll_perm .empty arrived
    rw [show Ledger.empty.places = [] from rfl, List.append_nil] at hledger
    refine hledger.subset (List.mem_append_left _ (List.mem_flatMap.mpr ⟨group, hgroup, ?_⟩))
    exact List.mem_map.mpr ⟨unit, hunit, rfl⟩
  obtain ⟨resolution, hmem, hsame⟩ := List.mem_map.mp hplace
  refine ⟨resolution, hmem, ?_⟩
  unfold Resolution.place at hsame
  split at hsame
  · exact (Place.rule.inj hsame).2.2
  · exact absurd hsame (by simp)

/-- The fragments of a report are made of rules that may stand in one. -/
theorem ready_of_mem_files
    (hdeliver : ∀ resolutions, ∀ resolution ∈ deliver resolutions, resolution ∈ resolutions)
    {report : Report} (h : (machine.run settings provider source deliver).outcome = .ok report)
    {file : Text × List Fragment} (hfile : file ∈ report.files) {fragment : Fragment}
    (hfragment : fragment ∈ file.2) : fragment.Ready := by
  obtain ⟨nodes, resolver, resolutions, hstages, hcollect⟩ := exists_runStages_of_outcome_eq_ok h
  obtain ⟨text, _, hparse⟩ := hstages.parsed
  obtain ⟨found, hfound, rfl⟩ := Ledger.reportFor_eq_ok_iff.mp (collect_eq_ok_iff.mp hcollect).2
  have hplaced : (file.1, fragment) ∈ found := by
    have hfile : (file.1, file.2) ∈ Report.filesOf found := hfile
    rw [Report.mem_filesOf hfile] at hfragment
    obtain ⟨next, hnext, rfl⟩ := List.mem_map.mp hfragment
    obtain ⟨hmem, hpath⟩ := List.mem_filter.mp hnext
    rw [show file.1 = next.1 from (beq_iff_eq.mp hpath).symm]
    exact hmem
  obtain ⟨group, hgroup, hmade⟩ := exists_of_mem_forall₂_right (mapM_eq_ok_iff.mp hfound) hplaced
  obtain ⟨condition, hcondition, heq⟩ :=
    Group.fragment_eq_ok_iff.mp (Ledger.placedFragment_eq_ok_iff.mp hmade).2
  have hgroup := (Ledger.sortedGroups_perm _).subset hgroup
  rw [show fragment = _ from heq]
  refine ⟨(wellRead_of_tokens hcondition).1, fun rule hrule => ?_⟩
  obtain ⟨unit, hunit, rfl⟩ := List.mem_map.mp hrule
  obtain ⟨resolution, harrived, hsame⟩ :=
    exists_resolution_of_mem_units hgroup (group.sortedUnits_perm.subset hunit)
  obtain ⟨origin, horigin, hrule⟩ := hstages.exists_unit_of_mem (hdeliver _ _ harrived)
  rw [← hsame, hrule]
  exact ready_of_mem_unitsOf hparse horigin

end Run

/-! ## The law -/

/-- In a run that comes to a report, a fragment each of whose tokens is written as what it is survives
being written and read exactly if nothing in its condition ends an at-rule and none of its rules begins
like one. What is delivered are resolutions of the run. -/
theorem fragment_survives_iff (machine : Machine) (settings : Settings) (provider : Provider)
    (source : Option Text) (deliver : List Resolution → List Resolution)
    (hdeliver : ∀ resolutions, ∀ resolution ∈ deliver resolutions, resolution ∈ resolutions)
    (report : Report) (h : (machine.run settings provider source deliver).outcome = .ok report) :
    ∀ file ∈ report.files, ∀ fragment ∈ file.2, fragment.Legible →
      (fragment.Survives ↔ fragment.Stands) :=
  fun _ hfile _ hfragment hlegible =>
    Fragment.survives_iff (ready_of_mem_files hdeliver h hfile hfragment) hlegible

/-- The one fragment of a run whose resolutions arrive backwards. -/
theorem fragment_survives_iff_backwards :
    (∀ resolutions : List Resolution, ∀ resolution ∈ resolutions.reverse, resolution ∈ resolutions) ∧
      ∃ report, (bareMachine.run { inputPath := "main.css" } sampleTable.provider (some sampleSource)
        List.reverse).outcome = .ok report ∧ report.files.length = 1 ∧
        ∀ file ∈ report.files, ∀ fragment ∈ file.2, fragment.Legible ∧ fragment.Survives := by
  have hdeliver : ∀ resolutions : List Resolution, ∀ resolution ∈ resolutions.reverse,
      resolution ∈ resolutions := fun _ _ => List.mem_reverse.mp
  have hall : ((bareMachine.run { inputPath := "main.css" } sampleTable.provider (some sampleSource)
      List.reverse).outcome.toOption.any fun report => report.files.length == 1 &&
        report.files.all fun file => file.2.all fun fragment =>
          decide (fragment.Legible ∧ fragment.Stands)) = true := by decide +kernel
  refine ⟨hdeliver, ?_⟩
  have hlaw := fragment_survives_iff bareMachine { inputPath := "main.css" } sampleTable.provider
    (some sampleSource) List.reverse hdeliver
  generalize (bareMachine.run { inputPath := "main.css" } sampleTable.provider (some sampleSource)
    List.reverse).outcome = outcome at hall hlaw ⊢
  cases outcome with
  | error fault => exact absurd hall (by simp [Except.toOption])
  | ok report =>
    obtain ⟨hlength, hstands⟩ : report.files.length = 1 ∧ ∀ file ∈ report.files,
        ∀ fragment ∈ file.2, fragment.Legible ∧ fragment.Stands := by
      simpa [Except.toOption] using hall
    refine ⟨report, rfl, hlength, fun file hfile fragment hfragment => ?_⟩
    obtain ⟨hlegible, hstand⟩ := hstands file hfile fragment hfragment
    exact ⟨hlegible, (hlaw report rfl file hfile fragment hfragment hlegible).mpr hstand⟩

/-- A rule with two marks in its selector that a comment keeps from opening a comment. -/
def gluedSource : Text :=
  "@media x{a//**/*=b{c:d}}"

def gluedTable : Table :=
  ⟨[("a/*=b", ["a.less"])], [], [], none⟩

/-- A fragment that does not survive: behind the first mark, its rule is read as a comment. -/
theorem exists_fragment_not_survives :
    ∃ report, (bareMachine.run { inputPath := "main.css" } gluedTable.provider (some gluedSource)
      id).outcome = .ok report ∧ ∃ file ∈ report.files, ∃ fragment ∈ file.2, ¬ fragment.Survives := by
  have hany : ((bareMachine.run { inputPath := "main.css" } gluedTable.provider (some gluedSource)
      id).outcome.toOption.any fun report => report.files.any fun file => file.2.any fun fragment =>
        !fragment.keepsCount) = true := by decide +kernel
  generalize (bareMachine.run { inputPath := "main.css" } gluedTable.provider (some gluedSource)
    id).outcome = outcome at hany ⊢
  cases outcome with
  | error fault => exact absurd hany (by simp [Except.toOption])
  | ok report =>
    obtain ⟨path, fragments, hfile, fragment, hfragment, hcount⟩ : ∃ path fragments,
        (path, fragments) ∈ report.files ∧ ∃ fragment ∈ fragments, fragment.keepsCount = false := by
      simpa [Except.toOption] using hany
    refine ⟨report, rfl, _, hfile, fragment, hfragment, fun hsurvives => ?_⟩
    exact absurd hsurvives.keepsCount (by simp [hcount])

end StyleOrigin
