import StyleOrigin.Proofs.Media.Selectors
import StyleOrigin.StyleUnit

/-! # The units of a stylesheet, site by site

A selector stands at a site: in a node of the stylesheet that is a media block, in a node of that block
that is a style rule, and at a place among the groups of that rule. The units are the sites, in the
order of the source.

* `Site`, `Site.Holds`, `Site.Before`: where a selector stands, what stands there, and the order.
* `sited`: the sites of a stylesheet, each with the piece that stands there.
* `map_snd_sited`, `mem_sited`, `pairwise_sited`: these are the pieces, all of them, in order.
* `units_expand`: the units of a stylesheet, what becomes of each prelude, and the units of two
  stylesheets one behind the other.
-/
set_option autoImplicit false

namespace StyleOrigin

open Css

/-! ## Numbered sequences -/

section Numbered
variable {α β : Type}

/-- What the elements of a sequence bring, each told its place. -/
def numbered (xs : List α) (f : Nat → α → List β) : List β :=
  (xs.mapIdx f).flatten

theorem mem_numbered {xs : List α} {f : Nat → α → List β} {b : β} :
    b ∈ numbered xs f ↔ ∃ place a, xs[place]? = some a ∧ b ∈ f place a := by
  rw [numbered, List.mem_flatten]
  constructor
  · rintro ⟨brought, hbrought, hb⟩
    obtain ⟨place, hlt, rfl⟩ := List.mem_mapIdx.mp hbrought
    exact ⟨place, xs[place], List.getElem?_eq_getElem hlt, hb⟩
  · rintro ⟨place, a, ha, hb⟩
    obtain ⟨hlt, rfl⟩ := List.getElem?_eq_some_iff.mp ha
    exact ⟨_, List.mem_mapIdx.mpr ⟨place, hlt, rfl⟩, hb⟩

/-- A relation holds along what is brought if it holds along what each element brings, and between what
is brought at different places. -/
theorem pairwise_numbered {R : β → β → Prop} {xs : List α} {f : Nat → α → List β}
    (hinner : ∀ place a, (f place a).Pairwise R)
    (houter : ∀ place a place' a', place < place' → ∀ b ∈ f place a, ∀ b' ∈ f place' a', R b b') :
    (numbered xs f).Pairwise R := by
  rw [numbered, List.pairwise_flatten]
  constructor
  · intro brought hbrought
    obtain ⟨place, hlt, rfl⟩ := List.mem_mapIdx.mp hbrought
    exact hinner place _
  · rw [List.pairwise_iff_getElem]
    intro place place' hplace hplace' hlt
    rw [List.getElem_mapIdx, List.getElem_mapIdx]
    exact houter place _ place' _ hlt

theorem map_numbered {γ : Type} {g : β → γ} {f : Nat → α → List β} {h : α → List γ}
    (hf : ∀ place a, (f place a).map g = h a) (xs : List α) :
    (numbered xs f).map g = xs.flatMap h := by
  have hbrought : (xs.mapIdx f).map (List.map g) = xs.map h := by
    apply List.ext_getElem
    · simp
    · intro place _ _
      simp [hf]
  rw [numbered, List.map_flatten, hbrought, ← List.flatMap_def]

end Numbered

/-! ## Sites -/

/-- Where a selector stands: the place of its media block among the nodes of a stylesheet, the place of
its rule among the nodes of the block, and its place among the groups of the rule. -/
structure Site where
  node : Nat
  rule : Nat
  group : Nat
deriving DecidableEq, Repr

namespace Site

/-- A site stands in front of another one in the source. -/
def Before (site other : Site) : Prop :=
  site.node < other.node ∨ site.node = other.node ∧
    (site.rule < other.rule ∨ site.rule = other.rule ∧ site.group < other.group)

/-- At a site there is a group of a style rule in a media block. -/
structure Holds (nodes : List Node) (site : Site) (block : MediaBlock) (rule : Rule)
    (group : List Token) : Prop where
  block_eq : nodes[site.node]?.bind Node.mediaBlock? = some block
  rule_eq : (Css.nodes block.body)[site.rule]?.bind Node.rule? = some rule
  group_eq : (splitSelectors rule.prelude)[site.group]? = some group

/-- At a site there is one group, of one rule, in one block. -/
theorem Holds.unique {nodes : List Node} {site : Site} {block block' : MediaBlock} {rule rule' : Rule}
    {group group' : List Token} (h : site.Holds nodes block rule group)
    (h' : site.Holds nodes block' rule' group') : block = block' ∧ rule = rule' ∧ group = group' := by
  have hblock : block = block' := Option.some.inj (h.block_eq.symm.trans h'.block_eq)
  subst hblock
  have hrule : rule = rule' := Option.some.inj (h.rule_eq.symm.trans h'.rule_eq)
  subst hrule
  exact ⟨rfl, rfl, Option.some.inj (h.group_eq.symm.trans h'.group_eq)⟩

/-- Whether a group stands at a site. -/
def isTaken (nodes : List Node) (site : Site) : Bool :=
  (nodes[site.node]?.bind Node.mediaBlock?).any fun block =>
    ((Css.nodes block.body)[site.rule]?.bind Node.rule?).any fun rule =>
      (splitSelectors rule.prelude)[site.group]?.isSome

theorem isTaken_eq_true_iff {nodes : List Node} {site : Site} :
    site.isTaken nodes = true ↔ ∃ block rule group, site.Holds nodes block rule group := by
  simp only [isTaken, Option.any_eq_true, Option.isSome_iff_exists]
  constructor
  · rintro ⟨block, hblock, rule, hrule, group, hgroup⟩
    exact ⟨block, rule, group, hblock, hrule, hgroup⟩
  · rintro ⟨block, rule, group, hblock, hrule, hgroup⟩
    exact ⟨block, hblock, rule, hrule, group, hgroup⟩

end Site

/-- The sites of a rule. -/
def sitedGroups (node place : Nat) (query : Text) (rule : Rule) : List (Site × Piece) :=
  numbered (splitSelectors rule.prelude) fun group tokens =>
    [(⟨node, place, group⟩, ⟨query, rule, tokens⟩)]

/-- The sites of a media block. -/
def sitedRules (node : Nat) (block : MediaBlock) : List (Site × Piece) :=
  numbered (Css.nodes block.body) fun place inner =>
    inner.rule?.toList.flatMap (sitedGroups node place block.query)

/-- The sites of a stylesheet, each with the piece that stands there. -/
def sited (nodes : List Node) : List (Site × Piece) :=
  numbered nodes fun place node => node.mediaBlock?.toList.flatMap (sitedRules place)

/-! ## Sites and pieces -/

theorem map_snd_sitedGroups (node place : Nat) (query : Text) (rule : Rule) :
    (sitedGroups node place query rule).map Prod.snd = rule.pieces query := by
  rw [sitedGroups, map_numbered (h := fun tokens => [⟨query, rule, tokens⟩]) (fun _ _ => rfl),
    Rule.pieces, List.map_eq_flatMap]

theorem map_snd_sitedRules (node : Nat) (block : MediaBlock) :
    (sitedRules node block).map Prod.snd = block.pieces := by
  have hinner (place : Nat) (inner : Node) :
      (inner.rule?.toList.flatMap (sitedGroups node place block.query)).map Prod.snd =
        inner.rule?.toList.flatMap (·.pieces block.query) := by
    rw [List.map_flatMap]
    simp only [map_snd_sitedGroups]
  rw [sitedRules, map_numbered hinner, MediaBlock.pieces, MediaBlock.rules,
    List.filterMap_eq_flatMap_toList, List.flatMap_assoc]

theorem map_snd_sited (nodes : List Node) :
    (sited nodes).map Prod.snd = (mediaBlocks nodes).flatMap MediaBlock.pieces := by
  have hinner (place : Nat) (node : Node) :
      (node.mediaBlock?.toList.flatMap (sitedRules place)).map Prod.snd =
        node.mediaBlock?.toList.flatMap MediaBlock.pieces := by
    rw [List.map_flatMap]
    simp only [map_snd_sitedRules]
  rw [sited, map_numbered hinner, mediaBlocks, List.filterMap_eq_flatMap_toList, List.flatMap_assoc]

theorem mem_sitedGroups {node place : Nat} {query : Text} {rule : Rule} {found : Site × Piece} :
    found ∈ sitedGroups node place query rule ↔ found.1.node = node ∧ found.1.rule = place ∧
      ∃ group, (splitSelectors rule.prelude)[found.1.group]? = some group ∧
        found.2 = ⟨query, rule, group⟩ := by
  obtain ⟨⟨foundNode, foundPlace, at'⟩, piece⟩ := found
  simp only [sitedGroups, mem_numbered, List.mem_singleton, Prod.mk.injEq, Site.mk.injEq]
  constructor
  · rintro ⟨_, group, hgroup, ⟨rfl, rfl, rfl⟩, rfl⟩
    exact ⟨rfl, rfl, group, hgroup, rfl⟩
  · rintro ⟨rfl, rfl, group, hgroup, rfl⟩
    exact ⟨_, group, hgroup, ⟨rfl, rfl, rfl⟩, rfl⟩

theorem mem_sitedRules {node : Nat} {block : MediaBlock} {found : Site × Piece} :
    found ∈ sitedRules node block ↔ found.1.node = node ∧
      ∃ rule, (Css.nodes block.body)[found.1.rule]?.bind Node.rule? = some rule ∧
        ∃ group, (splitSelectors rule.prelude)[found.1.group]? = some group ∧
          found.2 = ⟨block.query, rule, group⟩ := by
  simp only [sitedRules, mem_numbered, List.mem_flatMap, Option.mem_toList, mem_sitedGroups,
    Option.bind_eq_some_iff]
  constructor
  · rintro ⟨_, inner, hinner, rule, hrule, hnode, rfl, hgroup⟩
    exact ⟨hnode, rule, ⟨inner, hinner, hrule⟩, hgroup⟩
  · rintro ⟨hnode, rule, ⟨inner, hinner, hrule⟩, hgroup⟩
    exact ⟨_, inner, hinner, rule, hrule, hnode, rfl, hgroup⟩

theorem mem_sited {nodes : List Node} {found : Site × Piece} :
    found ∈ sited nodes ↔ ∃ block rule group, found.1.Holds nodes block rule group ∧
      found.2 = ⟨block.query, rule, group⟩ := by
  simp only [sited, mem_numbered, List.mem_flatMap, Option.mem_toList, mem_sitedRules]
  constructor
  · rintro ⟨_, node, hnode, block, hblock, rfl, rule, hrule, group, hgroup, hpiece⟩
    exact ⟨block, rule, group, ⟨Option.bind_eq_some_iff.mpr ⟨node, hnode, hblock⟩, hrule, hgroup⟩, hpiece⟩
  · rintro ⟨block, rule, group, hholds, hpiece⟩
    obtain ⟨node, hnode, hblock⟩ := Option.bind_eq_some_iff.mp hholds.block_eq
    exact ⟨_, node, hnode, block, hblock, rfl, rule, hholds.rule_eq, group, hholds.group_eq, hpiece⟩

/-! ## The order of the sites -/

theorem pairwise_sitedGroups (node place : Nat) (query : Text) (rule : Rule) :
    (sitedGroups node place query rule).Pairwise fun found other => found.1.Before other.1 := by
  refine pairwise_numbered (fun _ _ => List.pairwise_singleton _ _) ?_
  intro group _ group' _ hlt found hfound other hother
  rw [List.mem_singleton.mp hfound, List.mem_singleton.mp hother]
  exact .inr ⟨rfl, .inr ⟨rfl, hlt⟩⟩

theorem pairwise_sitedRules (node : Nat) (block : MediaBlock) :
    (sitedRules node block).Pairwise fun found other => found.1.Before other.1 := by
  refine pairwise_numbered (fun place inner => ?_) ?_
  · cases inner.rule? with
    | none => exact .nil
    | some rule => simpa using pairwise_sitedGroups node place block.query rule
  · intro place inner place' inner' hlt found hfound other hother
    obtain ⟨rule, -, hfound⟩ := List.mem_flatMap.mp hfound
    obtain ⟨rule', -, hother⟩ := List.mem_flatMap.mp hother
    obtain ⟨hnode, hplace, -⟩ := mem_sitedGroups.mp hfound
    obtain ⟨hnode', hplace', -⟩ := mem_sitedGroups.mp hother
    exact .inr ⟨by rw [hnode, hnode'], .inl (by rwa [hplace, hplace'])⟩

theorem pairwise_sited (nodes : List Node) :
    (sited nodes).Pairwise fun found other => found.1.Before other.1 := by
  refine pairwise_numbered (fun place node => ?_) ?_
  · cases node.mediaBlock? with
    | none => exact .nil
    | some block => simpa using pairwise_sitedRules place block
  · intro place node place' node' hlt found hfound other hother
    obtain ⟨block, -, hfound⟩ := List.mem_flatMap.mp hfound
    obtain ⟨block', -, hother⟩ := List.mem_flatMap.mp hother
    rw [← (mem_sitedRules.mp hfound).1, ← (mem_sitedRules.mp hother).1] at hlt
    exact .inl hlt

/-! ## Units -/

theorem unitsOf_append (nodes more : List Node) :
    unitsOf (nodes ++ more) = unitsOf nodes ++ (unitsOf more).map fun unit =>
      { unit with index := (unitsOf nodes).length + unit.index } := by
  rw [unitsOf, mediaBlocks, List.filterMap_append, List.flatMap_append, List.mapIdx_append]
  refine congrArg (unitsOf nodes ++ ·) ?_
  apply List.ext_getElem
  · simp [unitsOf, mediaBlocks]
  · intro index _ _
    simp [unitsOf, mediaBlocks, Piece.unit, Nat.add_comm]

theorem unitsOf_eq_mapIdx (nodes : List Node) :
    unitsOf nodes = (sited nodes).mapIdx fun index found => found.2.unit index := by
  rw [unitsOf, ← map_snd_sited]
  apply List.ext_getElem <;> simp

/-- The units of a stylesheet are those of its sites, in the order of the source. Each has the query of
its block, the place and the content of its rule, and for a prelude the tokens of its group with one space
behind them. Of the prelude of a rule the groups leave out the commas and the gaps around them, and
nothing else. The units of two stylesheets, one behind the other, are those of the first and then those
of the second, with their indices raised. -/
theorem units_expand (nodes : List Node) :
    (∃ sites : List Site, sites.length = (unitsOf nodes).length ∧ sites.Pairwise Site.Before ∧
      (∀ site, site ∈ sites ↔ ∃ block rule group, site.Holds nodes block rule group) ∧
      ∀ (index : Nat) (site : Site) block rule group, sites[index]? = some site →
        site.Holds nodes block rule group →
          (unitsOf nodes)[index]? = some
            { selector := selectorText group
              query := block.query
              rule := ⟨rule.position, group ++ [.leaf rule.position (.whitespace [' '])], rule.body⟩
              index := index
              origins := none }) ∧
    (∀ block ∈ mediaBlocks nodes, ∀ rule ∈ block.rules,
      FallsInto rule.prelude (splitSelectors rule.prelude)) ∧
    ∀ more, unitsOf (nodes ++ more) = unitsOf nodes ++ (unitsOf more).map fun unit =>
      { unit with index := (unitsOf nodes).length + unit.index } := by
  refine ⟨⟨(sited nodes).map Prod.fst, ?_, ?_, ?_, ?_⟩,
    fun _ _ rule _ => fallsInto_splitSelectors rule.prelude, unitsOf_append nodes⟩
  · rw [unitsOf_eq_mapIdx, List.length_map, List.length_mapIdx]
  · exact List.pairwise_map.mpr (pairwise_sited nodes)
  · intro site
    rw [List.mem_map]
    constructor
    · rintro ⟨found, hfound, rfl⟩
      obtain ⟨block, rule, group, hholds, -⟩ := mem_sited.mp hfound
      exact ⟨block, rule, group, hholds⟩
    · rintro ⟨block, rule, group, hholds⟩
      exact ⟨(site, ⟨block.query, rule, group⟩), mem_sited.mpr ⟨block, rule, group, hholds, rfl⟩, rfl⟩
  · intro index site block rule group hsite hholds
    rw [List.getElem?_map, Option.map_eq_some_iff] at hsite
    obtain ⟨found, hfound, rfl⟩ := hsite
    obtain ⟨block', rule', group', hholds', hpiece⟩ := mem_sited.mp (List.mem_of_getElem? hfound)
    obtain ⟨rfl, rfl, rfl⟩ := hholds.unique hholds'
    rw [unitsOf_eq_mapIdx, List.getElem?_mapIdx, hfound, Option.map_some, hpiece]
    rfl

/-- Two media blocks with other nodes around and inside them. -/
def mixedSource : Text :=
  "p{q:r}@media x{.a , .b{c:d}@page{e:f}g{h:i}}@import j;@media y{k{l:m}}"

/-- Its units, one of which stands at the second group of a rule, and the units of the source with itself
behind it. -/
theorem units_expand_mixed :
    ∃ nodes, parse mixedSource = .ok nodes ∧
      (unitsOf nodes).map StyleUnit.query = ["x", "x", "x", "y"] ∧
      (unitsOf nodes).map StyleUnit.selector = [".a", ".b", "g", "k"] ∧
      (∃ block rule group, (⟨1, 0, 1⟩ : Site).Holds nodes block rule group ∧
        FallsInto rule.prelude (splitSelectors rule.prelude) ∧
        ∃ unit ∈ unitsOf nodes, unit.selector = selectorText group) ∧
      (unitsOf (nodes ++ nodes)).map StyleUnit.index = [0, 1, 2, 3, 4, 5, 6, 7] := by
  have hread : (parse mixedSource).map (fun nodes =>
      ((unitsOf nodes).map StyleUnit.query, (unitsOf nodes).map StyleUnit.selector,
        (unitsOf nodes).map StyleUnit.index, (⟨1, 0, 1⟩ : Site).isTaken nodes)) =
      .ok (["x", "x", "x", "y"], [".a", ".b", "g", "k"], [0, 1, 2, 3], true) := by decide +kernel
  obtain ⟨nodes, hnodes, hunits⟩ := exists_of_map_eq_ok hread
  simp only [Prod.mk.injEq] at hunits
  obtain ⟨hqueries, hselectors, hindices, htaken⟩ := hunits
  obtain ⟨block, rule, group, hholds⟩ := Site.isTaken_eq_true_iff.mp htaken
  obtain ⟨⟨sites, -, -, hsites, hunit⟩, hfalls, happend⟩ := units_expand nodes
  obtain ⟨index, hindex⟩ := List.mem_iff_getElem?.mp ((hsites _).mpr ⟨_, _, _, hholds⟩)
  have hmade := List.mem_of_getElem? (hunit _ _ _ _ _ hindex hholds)
  refine ⟨nodes, hnodes, hqueries, hselectors, ⟨block, rule, group, hholds, ?_, _, hmade, rfl⟩, ?_⟩
  · obtain ⟨node, hnode, hblock⟩ := Option.bind_eq_some_iff.mp hholds.block_eq
    obtain ⟨inner, hinner, hrule⟩ := Option.bind_eq_some_iff.mp hholds.rule_eq
    exact hfalls block (List.mem_filterMap.mpr ⟨node, List.mem_of_getElem? hnode, hblock⟩) rule
      (List.mem_filterMap.mpr ⟨inner, List.mem_of_getElem? hinner, hrule⟩)
  · have hlength : (unitsOf nodes).length = 4 := by
      simpa using congrArg List.length hindices
    have hraised : ((unitsOf nodes).map fun unit => 4 + unit.index) = [4, 5, 6, 7] := by
      simpa [List.map_map, Function.comp_def] using congrArg (List.map (4 + ·)) hindices
    rw [happend, List.map_append, hindices, List.map_map, hlength]
    exact congrArg ([0, 1, 2, 3] ++ ·) hraised

end StyleOrigin
