import StyleOrigin.Media.Selector
import StyleOrigin.Proofs.Sequence

/-! # The selectors of a prelude

A comma cuts a prelude, and the selectors of the two sides are its selectors. So nothing of a prelude
is lost but its commas and the gaps around its selectors.

* `splitSelectors_append_comma`, `splitSelectors_of_not_comma`: a prelude with a comma, and one without.
* `IsSelector`, `isSelector_of_mem`: what a group is.
* `FallsInto`, `fallsInto_splitSelectors`: the groups of a prelude and what stands around them.
* `splitSelectors_append_gaps`: a group with gaps behind it has one selector, itself.
* `fallsInto_iff`: no other groups are those of a prelude.
-/
set_option autoImplicit false

namespace StyleOrigin

open Css

/-! ## One cut -/

theorem not_isComma_of_isGap {token : Token} (h : token.isGap = true) : isComma token = false := by
  unfold Token.isGap at h
  split at h
  · rfl
  · rfl
  · exact absurd h (by simp)

theorem splitSelectors_append_comma {comma : Token} (hcomma : isComma comma = true)
    (front back : List Token) :
    splitSelectors (front ++ comma :: back) = splitSelectors front ++ splitSelectors back := by
  rw [splitSelectors, splitWhere_append_cons hcomma, List.map_append, List.filter_append]
  rfl

theorem splitSelectors_of_not_comma {prelude : List Token}
    (h : ∀ token ∈ prelude, isComma token = false) :
    splitSelectors prelude =
      if trimWhere Token.isGap prelude = [] then [] else [trimWhere Token.isGap prelude] := by
  rw [splitSelectors, splitWhere_eq_singleton h]
  cases htrim : trimWhere Token.isGap prelude <;> simp [htrim]

/-- A prelude has no comma, or there is a first one. -/
theorem first_comma_cases (prelude : List Token) :
    (∀ token ∈ prelude, isComma token = false) ∨
      ∃ front comma back, prelude = front ++ comma :: back ∧ isComma comma = true ∧
        ∀ token ∈ front, isComma token = false := by
  induction prelude with
  | nil => exact .inl (by simp)
  | cons token rest ih =>
    cases htoken : isComma token with
    | true => exact .inr ⟨[], token, rest, rfl, htoken, by simp⟩
    | false =>
      obtain hnone | ⟨front, comma, back, rfl, hcomma, hfront⟩ := ih
      · exact .inl (List.forall_mem_cons.mpr ⟨htoken, hnone⟩)
      · exact .inr ⟨token :: front, comma, back, rfl, hcomma, List.forall_mem_cons.mpr ⟨htoken, hfront⟩⟩

/-! ## Groups -/

/-- What a group of a prelude is: tokens without a comma, with no gap at either end. -/
structure IsSelector (group : List Token) : Prop where
  ne_nil : group ≠ []
  commaFree : ∀ token ∈ group, isComma token = false
  head : ∀ token ∈ group.head?, token.isGap = false
  last : ∀ token ∈ group.getLast?, token.isGap = false

theorem isSelector_of_mem {prelude group : List Token} (h : group ∈ splitSelectors prelude) :
    IsSelector group := by
  obtain ⟨hmem, hne⟩ := List.mem_filter.mp h
  obtain ⟨piece, hpiece, rfl⟩ := List.mem_map.mp hmem
  obtain ⟨front, back, hparts, -, -⟩ := exists_trimWhere Token.isGap piece
  refine ⟨by simpa using hne, fun token htoken => ?_, fun token htoken => ?_, fun token htoken => ?_⟩
  · refine (not_cut_of_mem_splitWhere hpiece token ?_).1
    rw [hparts]
    simp [htoken]
  · exact not_drops_of_trimWhere (.inl htoken)
  · exact not_drops_of_trimWhere (.inr htoken)

/-- A group with gaps behind it is the one selector of both. -/
theorem splitSelectors_append_gaps {group gaps : List Token} (h : IsSelector group)
    (hgaps : ∀ token ∈ gaps, token.isGap = true) : splitSelectors (group ++ gaps) = [group] := by
  have hfree : ∀ token ∈ group ++ gaps, isComma token = false := by
    intro token htoken
    obtain htoken | htoken := List.mem_append.mp htoken
    · exact h.commaFree token htoken
    · exact not_isComma_of_isGap (hgaps token htoken)
  have htrim : trimWhere Token.isGap (group ++ gaps) = group := by
    rw [trimWhere_append_of_drops hgaps, trimWhere_eq_self h.head h.last]
  rw [splitSelectors_of_not_comma hfree, htrim, if_neg h.ne_nil]

theorem splitSelectors_concat_gap {group : List Token} (h : IsSelector group) {gap : Token}
    (hgap : gap.isGap = true) : splitSelectors (group ++ [gap]) = [group] :=
  splitSelectors_append_gaps h (by simpa using hgap)

/-! ## What stands around the groups -/

/-- A token that belongs to no group: a comma, or a part of a gap. -/
def IsBetween (token : Token) : Prop :=
  isComma token = true ∨ token.isGap = true

/-- A sequence of tokens falls into groups: around them stand commas and gaps, and behind the gap that
a group is followed by there is a comma, or the end. -/
inductive FallsInto : List Token → List (List Token) → Prop
  | nil {edge : List Token} (hedge : ∀ token ∈ edge, IsBetween token) : FallsInto edge []
  | cons {edge group rest : List Token} {groups : List (List Token)}
      (hedge : ∀ token ∈ edge, IsBetween token) (hgroup : IsSelector group)
      (hbehind : ∀ token ∈ (rest.dropWhile Token.isGap).head?, isComma token = true)
      (hrest : FallsInto rest groups) : FallsInto (edge ++ (group ++ rest)) (group :: groups)

theorem FallsInto.edge_append {edge rest : List Token} {groups : List (List Token)}
    (hedge : ∀ token ∈ edge, IsBetween token) (h : FallsInto rest groups) :
    FallsInto (edge ++ rest) groups := by
  have hboth {more : List Token} (hmore : ∀ token ∈ more, IsBetween token) :
      ∀ token ∈ edge ++ more, IsBetween token :=
    fun token htoken => (List.mem_append.mp htoken).elim (hedge token) (hmore token)
  cases h with
  | nil hmore => exact .nil (hboth hmore)
  | cons hmore hgroup hbehind hrest =>
    rw [← List.append_assoc]
    exact .cons (hboth hmore) hgroup hbehind hrest

/-- A piece without a comma in front of a comma, or of the end. -/
theorem FallsInto.piece_append {piece rest : List Token} {groups : List (List Token)}
    (hpiece : ∀ token ∈ piece, isComma token = false)
    (hbehind : ∀ token ∈ rest.head?, isComma token = true) (h : FallsInto rest groups) :
    FallsInto (piece ++ rest) (splitSelectors piece ++ groups) := by
  obtain ⟨front, back, hparts, hfront, hback⟩ := exists_trimWhere Token.isGap piece
  have hgap {edge : List Token} (hedge : ∀ token ∈ edge, token.isGap = true) :
      ∀ token ∈ edge, IsBetween token := fun token htoken => .inr (hedge token htoken)
  have hrest := h.edge_append (hgap hback)
  have hsplit := splitSelectors_of_not_comma hpiece
  have hwhole : piece ++ rest = front ++ (trimWhere Token.isGap piece ++ (back ++ rest)) := by
    simpa using congrArg (· ++ rest) hparts
  by_cases hempty : trimWhere Token.isGap piece = []
  · rw [hsplit, if_pos hempty, hwhole, hempty]
    exact hrest.edge_append (hgap hfront)
  · rw [if_neg hempty] at hsplit
    have hgroup : IsSelector (trimWhere Token.isGap piece) :=
      isSelector_of_mem (hsplit ▸ List.mem_singleton_self _)
    have hdrop : (back ++ rest).dropWhile Token.isGap = rest := by
      rw [List.dropWhile_append_of_pos hback]
      cases rest with
      | nil => rfl
      | cons comma more =>
        have hcomma : comma.isGap = false := by
          refine Bool.eq_false_iff.mpr fun hgap => ?_
          simp [not_isComma_of_isGap hgap] at hbehind
        rw [List.dropWhile_cons_of_neg (by simp [hcomma])]
    rw [hsplit, hwhole]
    exact .cons (hgap hfront) hgroup (by rwa [hdrop]) hrest

/-- A prelude falls into its selectors. -/
theorem fallsInto_splitSelectors (prelude : List Token) :
    FallsInto prelude (splitSelectors prelude) := by
  induction hlength : prelude.length using Nat.strong_induction_on generalizing prelude with
  | _ length ih =>
    obtain hnone | ⟨front, comma, back, rfl, hcomma, hfront⟩ := first_comma_cases prelude
    · have hnil : FallsInto [] [] := .nil (by simp)
      simpa using hnil.piece_append hnone (by simp)
    · have hback := ih back.length (by simp at hlength; omega) back rfl
      have hcut : ∀ token ∈ [comma], IsBetween token := by simpa using .inl hcomma
      have hcommaBack : FallsInto (comma :: back) (splitSelectors back) := hback.edge_append hcut
      rw [splitSelectors_append_comma hcomma]
      exact hcommaBack.piece_append hfront (by simpa using hcomma)

/-! ## One way to fall into groups -/

theorem splitSelectors_cons_comma {comma : Token} (hcomma : isComma comma = true) (rest : List Token) :
    splitSelectors (comma :: rest) = splitSelectors rest :=
  splitSelectors_append_comma hcomma [] rest

theorem splitSelectors_cons_gap {gap : Token} (hgap : gap.isGap = true) (rest : List Token) :
    splitSelectors (gap :: rest) = splitSelectors rest := by
  obtain ⟨piece, pieces, hrest, hcons⟩ := splitWhere_cons_of_not_cut (not_isComma_of_isGap hgap) rest
  have hdrops : ∀ token ∈ [gap], token.isGap = true := by simpa using hgap
  have htrim : trimWhere Token.isGap (gap :: piece) = trimWhere Token.isGap piece :=
    trimWhere_of_drops_append hdrops
  rw [splitSelectors, splitSelectors, hcons, hrest, List.map_cons, List.map_cons, htrim]

/-- Commas and gaps in front of a prelude bring no selector. -/
theorem splitSelectors_edge_append {edge : List Token} (hedge : ∀ token ∈ edge, IsBetween token)
    (rest : List Token) : splitSelectors (edge ++ rest) = splitSelectors rest := by
  induction edge with
  | nil => rfl
  | cons token edge ih =>
    obtain ⟨htoken, hedge⟩ := List.forall_mem_cons.mp hedge
    rw [List.cons_append]
    obtain hcomma | hgap := htoken
    · rw [splitSelectors_cons_comma hcomma, ih hedge]
    · rw [splitSelectors_cons_gap hgap, ih hedge]

theorem splitSelectors_group_append {group rest : List Token} (hgroup : IsSelector group)
    (hbehind : ∀ token ∈ (rest.dropWhile Token.isGap).head?, isComma token = true) :
    splitSelectors (group ++ rest) = group :: splitSelectors rest := by
  have hgaps : ∀ token ∈ rest.takeWhile Token.isGap, token.isGap = true :=
    fun token htoken => List.mem_takeWhile_imp htoken
  have hbetween : ∀ token ∈ rest.takeWhile Token.isGap, IsBetween token :=
    fun token htoken => .inr (hgaps token htoken)
  rw [← List.takeWhile_append_dropWhile (p := Token.isGap) (l := rest),
    splitSelectors_edge_append hbetween, ← List.append_assoc]
  cases hrest : rest.dropWhile Token.isGap with
  | nil =>
    rw [List.append_nil, splitSelectors_append_gaps hgroup hgaps]
    rfl
  | cons comma more =>
    have hcomma : isComma comma = true := hbehind comma (by rw [hrest]; rfl)
    rw [splitSelectors_append_comma hcomma, splitSelectors_append_gaps hgroup hgaps,
      splitSelectors_cons_comma hcomma, List.singleton_append]

/-- There is one way for a prelude to fall into groups. -/
theorem fallsInto_iff {prelude : List Token} {groups : List (List Token)} :
    FallsInto prelude groups ↔ splitSelectors prelude = groups := by
  constructor
  · intro h
    induction h with
    | @nil edge hedge =>
      rw [← List.append_nil edge, splitSelectors_edge_append hedge]
      rfl
    | cons hedge hgroup hbehind _ ih =>
      rw [splitSelectors_edge_append hedge, splitSelectors_group_append hgroup hbehind, ih]
  · rintro rfl
    exact fallsInto_splitSelectors prelude

end StyleOrigin
