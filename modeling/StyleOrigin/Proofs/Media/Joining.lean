import StyleOrigin.Proofs.Media.Selectors

/-! # Splitting and joining

Splitting a prelude undoes joining selectors with commas, whatever gaps stand around the commas. The
other way round, the selectors of a prelude are what its stretches between commas are trimmed to. Only
the commas that stand in the prelude itself cut it: what groups of tokens hold is moved along unread.

* `Joined`: selectors one behind the other, with commas between them.
* `Joined.fallsInto`: joined selectors fall into the selectors that were joined.
* `Token.mapContent`, `splitSelectors_map_mapContent`: other content in the groups of a prelude.
* `splitting_inverts_joining`: what the selectors of a prelude are, and which prelude has given ones.
-/
set_option autoImplicit false

namespace StyleOrigin

open Css

/-! ## Joining -/

/-- Selectors are joined: a comma stands between any two neighbours, and each selector has gaps in front
of it and behind it. -/
inductive Joined : List (List Token) → List Token → Prop
  | nil : Joined [] []
  | last {front group back : List Token} (hfront : ∀ token ∈ front, token.isGap = true)
      (hback : ∀ token ∈ back, token.isGap = true) : Joined [group] (front ++ (group ++ back))
  | cons {front group back tokens next : List Token} {groups : List (List Token)} {comma : Token}
      (hfront : ∀ token ∈ front, token.isGap = true) (hback : ∀ token ∈ back, token.isGap = true)
      (hcomma : isComma comma = true) (hrest : Joined (next :: groups) tokens) :
      Joined (group :: next :: groups) (front ++ (group ++ (back ++ comma :: tokens)))

theorem Joined.fallsInto {groups : List (List Token)} {tokens : List Token} (h : Joined groups tokens)
    (hgroups : ∀ group ∈ groups, IsSelector group) : FallsInto tokens groups := by
  have hbetween {gaps : List Token} (hgaps : ∀ token ∈ gaps, token.isGap = true) :
      ∀ token ∈ gaps, IsBetween token := fun token htoken => .inr (hgaps token htoken)
  induction h with
  | nil => exact .nil (by simp)
  | last hfront hback =>
    obtain ⟨hgroup, -⟩ := List.forall_mem_cons.mp hgroups
    refine .cons (hbetween hfront) hgroup ?_ (.nil (hbetween hback))
    rw [List.dropWhile_eq_nil_iff.mpr hback]
    simp
  | @cons front group back tokens next groups comma hfront hback hcomma _ ih =>
    obtain ⟨hgroup, hrest⟩ := List.forall_mem_cons.mp hgroups
    have hedge : ∀ token ∈ back ++ [comma], IsBetween token := by
      intro token htoken
      obtain htoken | htoken := List.mem_append.mp htoken
      · exact hbetween hback token htoken
      · exact .inl (List.mem_singleton.mp htoken ▸ hcomma)
    have htail : FallsInto (back ++ comma :: tokens) (next :: groups) := by
      simpa using (ih hrest).edge_append hedge
    refine .cons (hbetween hfront) hgroup ?_ htail
    have hstop : comma.isGap = false :=
      Bool.eq_false_iff.mpr fun hgap => by simp [not_isComma_of_isGap hgap] at hcomma
    rw [List.dropWhile_append_of_pos hback, List.dropWhile_cons_of_neg (by simp [hstop])]
    simpa using hcomma

/-! ## Other content -/

/-- A prelude is cut where its commas and gaps are, whatever else becomes of its tokens. -/
theorem splitSelectors_map {f : Token → Token} (hcomma : ∀ token, isComma (f token) = isComma token)
    (hgap : ∀ token, (f token).isGap = token.isGap) (prelude : List Token) :
    splitSelectors (prelude.map f) = (splitSelectors prelude).map (List.map f) := by
  have htrim : trimWhere Token.isGap ∘ List.map f = List.map f ∘ trimWhere Token.isGap :=
    funext fun piece => trimWhere_map hgap piece
  have hempty : ((!·.isEmpty) : List Token → Bool) ∘ List.map f = (!·.isEmpty) :=
    funext fun piece => by cases piece <;> rfl
  rw [splitSelectors, splitWhere_map hcomma, List.map_map, htrim, ← List.map_map, List.filter_map,
    hempty]
  rfl

/-- A token with other content, if it is a group. -/
def Css.Token.mapContent (rewrite : List Token → List Token) : Token → Token
  | .leaf position value => .leaf position value
  | .group position opening content => .group position opening (rewrite content)

section MapContent
variable (rewrite : List Token → List Token)

theorem isComma_mapContent (token : Token) : isComma (token.mapContent rewrite) = isComma token := by
  cases token <;> rfl

theorem isGap_mapContent (token : Token) : (token.mapContent rewrite).isGap = token.isGap := by
  cases token <;> rfl

/-- The content of groups has no part in where a prelude is cut. -/
theorem splitSelectors_map_mapContent (prelude : List Token) :
    splitSelectors (prelude.map (Token.mapContent rewrite)) =
      (splitSelectors prelude).map (List.map (Token.mapContent rewrite)) :=
  splitSelectors_map (isComma_mapContent rewrite) (isGap_mapContent rewrite) prelude

end MapContent

/-! ## The law -/

/-- The selectors of a prelude are its stretches between commas, trimmed of gaps, without those of which
nothing is left. So the prelude falls into its selectors and what stands between them, which it does in
no other way, and other content in its groups is found again in its selectors. Selectors that are joined
are the selectors of what they are joined to. -/
theorem splitting_inverts_joining (prelude : List Token) :
    (∀ group ∈ splitSelectors prelude, IsSelector group) ∧
    (∃ stretches trimmed, CutInto isComma prelude stretches ∧
      List.Forall₂ (TrimsTo Token.isGap) stretches trimmed ∧
      splitSelectors prelude = trimmed.filter (!·.isEmpty)) ∧
    (∀ groups, FallsInto prelude groups ↔ splitSelectors prelude = groups) ∧
    (∀ rewrite, splitSelectors (prelude.map (Token.mapContent rewrite)) =
      (splitSelectors prelude).map (List.map (Token.mapContent rewrite))) ∧
    ∀ groups, (∀ group ∈ groups, IsSelector group) → Joined groups prelude →
      splitSelectors prelude = groups := by
  refine ⟨fun group => isSelector_of_mem, ⟨splitWhere isComma prelude,
    (splitWhere isComma prelude).map (trimWhere Token.isGap), cutInto_iff.mpr rfl, ?_, rfl⟩,
    fun groups => fallsInto_iff, fun rewrite => splitSelectors_map_mapContent rewrite prelude, ?_⟩
  · exact List.forall₂_map_right_iff.mpr (List.forall₂_same.mpr fun stretch _ => trimsTo_iff.mpr rfl)
  · exact fun groups hgroups hjoined => fallsInto_iff.mp (hjoined.fallsInto hgroups)

/-- A selector with a comma in the argument of a function. -/
def nestedSelector : List Token :=
  [.leaf ⟨1, 1⟩ (.literal ":"), .group ⟨1, 2⟩ (.function "is") [.leaf ⟨1, 5⟩ (.literal ",")]]

/-- A selector of two names. -/
def descendantSelector : List Token :=
  [.leaf ⟨1, 12⟩ (.ident "a"), .leaf ⟨1, 13⟩ (.whitespace " "), .leaf ⟨1, 14⟩ (.ident "b")]

/-- The two with a space in front of the comma between them and a comment behind it. -/
def joinedPrelude : List Token :=
  nestedSelector ++ .leaf ⟨1, 7⟩ (.whitespace " ") :: .leaf ⟨1, 8⟩ (.literal ",") ::
    .leaf ⟨1, 9⟩ (.comment "-") :: descendantSelector

/-- The comma in the argument cuts nothing, and the comma between the two selectors does. -/
theorem splitting_inverts_joining_nested :
    (∀ group ∈ [nestedSelector, descendantSelector], IsSelector group) ∧
      Joined [nestedSelector, descendantSelector] joinedPrelude ∧
      splitSelectors joinedPrelude = [nestedSelector, descendantSelector] := by
  have hnested : IsSelector nestedSelector :=
    ⟨by decide, by decide, by simp [nestedSelector, Token.isGap], by simp [nestedSelector, Token.isGap]⟩
  have hdescendant : IsSelector descendantSelector :=
    ⟨by decide, by decide, by simp [descendantSelector, Token.isGap],
      by simp [descendantSelector, Token.isGap]⟩
  have hgroups : ∀ group ∈ [nestedSelector, descendantSelector], IsSelector group := by
    simpa using ⟨hnested, hdescendant⟩
  have hlast : Joined [descendantSelector] (.leaf ⟨1, 9⟩ (.comment "-") :: descendantSelector) :=
    @Joined.last [.leaf ⟨1, 9⟩ (.comment "-")] _ [] (by simp [Token.isGap]) (by simp)
  have hjoined : Joined [nestedSelector, descendantSelector] joinedPrelude :=
    @Joined.cons [] _ [.leaf ⟨1, 7⟩ (.whitespace " ")] _ _ _ (.leaf ⟨1, 8⟩ (.literal ",")) (by simp)
      (by simp [Token.isGap]) rfl hlast
  obtain ⟨-, -, -, -, hsplit⟩ := splitting_inverts_joining joinedPrelude
  exact ⟨hgroups, hjoined, hsplit _ hgroups hjoined⟩

end StyleOrigin
