import StyleOrigin.Media.Block
import StyleOrigin.Proofs.Css.Nodes
import StyleOrigin.Proofs.Css.Tidy

/-! # The query of a media block

The query of a block is the text of its condition with the white space squeezed, and squeezing does not
know where a token begins. Where the condition is tidy, reading the query brings its tokens back, up to
white space and comments, and blocks with one query have one condition. A string with two spaces in it is
not tidy, and there both fail.

* `wellRead_prelude`: what holds of the condition of a block of a source.
* `MediaBlock.KeepsMeaning`, `MediaBlock.IsTidy`: the law and where it holds.
* `query_keeps_meaning`: the queries of tidy blocks.
* `exists_query_without_meaning`: a block that is not tidy.
-/
set_option autoImplicit false

namespace StyleOrigin

open Css

/-! ## The condition of a block -/

theorem mediaBlock_eq_some {node : Node} {block : MediaBlock} (h : node.mediaBlock? = some block) :
    ∃ keyword, node = .atRule ⟨block.position, keyword, block.prelude, some block.body⟩ := by
  unfold Node.mediaBlock? at h
  split at h
  · split at h
    · obtain rfl := Option.some.inj h
      exact ⟨_, rfl⟩
    · exact absurd h (by simp)
  · exact absurd h (by simp)

/-- The condition of a block of a source can be written and read again. -/
theorem wellRead_prelude {text : Text} {nodes : List Node} (hparse : parse text = .ok nodes)
    {block : MediaBlock} (h : block ∈ mediaBlocks nodes) : WellRead block.prelude := by
  obtain ⟨ts, hts, rfl⟩ := exists_of_map_eq_ok hparse
  obtain ⟨hread, -⟩ := wellRead_of_tokens hts
  obtain ⟨node, hnode, hmedia⟩ := List.mem_filterMap.mp h
  obtain ⟨keyword, rfl⟩ := mediaBlock_eq_some hmedia
  obtain ⟨front, opener, place, back, hstands⟩ := standsIn_of_mem_nodesFrom.1 _ hnode _ rfl
  let behind : List Token := .group place (.bracket .curly) block.body :: back
  have hparts : ts = (front ++ [opener]) ++ (block.prelude ++ behind) := by simp [hstands, behind]
  have hpart : block.prelude <:+: ts := ⟨front ++ [opener], behind, by simp [hparts]⟩
  refine ⟨hread.sound.part hpart, fun token htoken => Bool.eq_false_iff.mpr fun hliteral => ?_,
    fun lexeme hlexeme => hread.short lexeme (flat_subset (fun _ hmem => hpart.subset hmem) hlexeme)⟩
  -- The block stands behind the last token, and it begins no line.
  have hchain := hread.sound.chain
  rw [hparts] at hchain
  have hlead := (List.isChain_append.mp (List.isChain_append.mp hchain).2.1).2.2 token htoken _ rfl hliteral
  exact absurd hlead (by simp [Token.startsWithLineFeed])

/-! ## The query -/

namespace MediaBlock

/-- Reading the query of a block brings the tokens of its condition, up to white space, comments and
places. -/
def KeepsMeaning (block : MediaBlock) : Prop :=
  ∃ after, tokens true block.query = .ok after ∧ essence after = essence block.prelude

/-- Each token of the condition of a block is written as what it is, and stays so when the text is
squeezed. -/
structure IsTidy (block : MediaBlock) : Prop where
  legible : legible block.prelude = true
  tidy : tidy none block.prelude = true

/-- Two blocks with one query that keep their meaning have the same condition, up to white space, comments
and places. -/
theorem KeepsMeaning.essence_eq {block other : MediaBlock} (h : block.KeepsMeaning)
    (hother : other.KeepsMeaning) (hquery : block.query = other.query) :
    essence block.prelude = essence other.prelude := by
  obtain ⟨after, hafter, hessence⟩ := h
  obtain ⟨after', hafter', hessence'⟩ := hother
  rw [hquery, hafter'] at hafter
  rw [← hessence, ← hessence', Except.ok.inj hafter]

theorem IsTidy.keepsMeaning {text : Text} {nodes : List Node} (hparse : parse text = .ok nodes)
    {block : MediaBlock} (hmem : block ∈ mediaBlocks nodes) (h : block.IsTidy) : block.KeepsMeaning :=
  exists_tokens_squeeze (wellRead_prelude hparse hmem) h.legible h.tidy true

end MediaBlock

/-- Reading the query of a tidy block of a source does not fail. It brings the tokens of the condition at
every depth, up to white space, comments and places. So two tidy blocks have one query only if their
conditions are the same, up to these. -/
theorem query_keeps_meaning (text : Text) (nodes : List Node) (hparse : parse text = .ok nodes) :
    (∀ block ∈ mediaBlocks nodes, block.IsTidy →
      ∃ after, tokens true block.query = .ok after ∧ essence after = essence block.prelude) ∧
    ∀ block ∈ mediaBlocks nodes, ∀ other ∈ mediaBlocks nodes, block.IsTidy → other.IsTidy →
      block.query = other.query → essence block.prelude = essence other.prelude :=
  ⟨fun _ hblock htidy => htidy.keepsMeaning hparse hblock,
    fun _ hblock _ hother htidy htidy' hquery =>
      (htidy.keepsMeaning hparse hblock).essence_eq (htidy'.keepsMeaning hparse hother) hquery⟩

/-- Two blocks whose conditions differ in white space only. They have two names that a comment keeps apart, a
string with a space in it and a name that begins with an escape. -/
def tidySource : Text :=
  "@media a/**/and  ( b :\"c d\" ),\\31 e{f{g:h}}@media a/**/and ( b  :\"c d\" ),\\31 e{i{j:k}}"

/-- Their query is the same, and says again what they are. -/
theorem query_keeps_meaning_tidy :
    ∃ nodes, parse tidySource = .ok nodes ∧
      ∃ block ∈ mediaBlocks nodes, ∃ other ∈ mediaBlocks nodes, block.position ≠ other.position ∧
        block.query = "a/**/and ( b :\"c d\" ),\\31 e" ∧ other.query = block.query ∧
        block.KeepsMeaning ∧ other.KeepsMeaning ∧ essence block.prelude = essence other.prelude := by
  have hread : (parse tidySource).map (fun nodes => (mediaBlocks nodes).map fun block =>
      (block.position.column, block.query, legible block.prelude, tidy none block.prelude)) =
      .ok [(1, "a/**/and ( b :\"c d\" ),\\31 e", true, true),
        (44, "a/**/and ( b :\"c d\" ),\\31 e", true, true)] := by decide +kernel
  obtain ⟨nodes, hnodes, hblocks⟩ := exists_of_map_eq_ok hread
  obtain ⟨block, others, hall, hblock, hothers⟩ := List.map_eq_cons_iff.mp hblocks
  obtain ⟨other, rest, rfl, hother, -⟩ := List.map_eq_cons_iff.mp hothers
  simp only [Prod.mk.injEq] at hblock hother
  have hmem : block ∈ mediaBlocks nodes := by simp [hall]
  have hmemOther : other ∈ mediaBlocks nodes := by simp [hall]
  have htidy : block.IsTidy := ⟨hblock.2.2.1, hblock.2.2.2⟩
  have htidyOther : other.IsTidy := ⟨hother.2.2.1, hother.2.2.2⟩
  have hquery : other.query = block.query := hother.2.1.trans hblock.2.1.symm
  obtain ⟨hkeeps, hsame⟩ := query_keeps_meaning tidySource nodes hnodes
  refine ⟨nodes, hnodes, block, hmem, other, hmemOther, fun heq => ?_, hblock.2.1, hquery,
    hkeeps block hmem htidy, hkeeps other hmemOther htidyOther,
    hsame block hmem other hmemOther htidy htidyOther hquery.symm⟩
  have hcolumn := congrArg Position.column heq
  rw [hblock.1, hother.1] at hcolumn
  exact absurd hcolumn (by decide)

/-- Two blocks whose conditions are different strings. -/
def stringSource : Text :=
  "@media \"a  b\"{.x{c:d}}@media \"a b\"{.y{e:f}}"

/-- Both have the query of the second one, which does not say what the first one is. -/
theorem exists_query_without_meaning :
    ∃ nodes, parse stringSource = .ok nodes ∧
      ∃ block ∈ mediaBlocks nodes, ∃ other ∈ mediaBlocks nodes, ¬ block.KeepsMeaning ∧
        block.query = other.query ∧ essence block.prelude ≠ essence other.prelude := by
  have hread : (parse stringSource).map (fun nodes => (mediaBlocks nodes).map fun block =>
      (block.query, flat (essence block.prelude))) =
      .ok [("\"a b\"", [.leaf (.string "a  b" true)]), ("\"a b\"", [.leaf (.string "a b" true)])] := by
    decide +kernel
  have hquery : (tokens true "\"a b\"").map (fun after => flat (essence after)) =
      .ok [.leaf (.string "a b" true)] := by decide +kernel
  obtain ⟨nodes, hnodes, hblocks⟩ := exists_of_map_eq_ok hread
  obtain ⟨block, others, hall, hblock, hothers⟩ := List.map_eq_cons_iff.mp hblocks
  obtain ⟨other, rest, rfl, hother, -⟩ := List.map_eq_cons_iff.mp hothers
  obtain ⟨hfirst, hessence⟩ := Prod.mk.inj hblock
  obtain ⟨hsecond, hessence'⟩ := Prod.mk.inj hother
  have hne : flat (essence block.prelude) ≠ flat (essence other.prelude) := by
    rw [hessence, hessence']
    decide
  refine ⟨nodes, hnodes, block, by simp [hall], other, by simp [hall], ?_, by rw [hfirst, hsecond],
    fun heq => hne (congrArg flat heq)⟩
  rintro ⟨after, hafter, heq⟩
  rw [hfirst] at hafter
  rw [hafter] at hquery
  have hsame : flat (essence after) = [.leaf (.string "a b" true)] := Except.ok.inj hquery
  rw [heq, hessence] at hsame
  exact absurd hsame (by decide)

end StyleOrigin
