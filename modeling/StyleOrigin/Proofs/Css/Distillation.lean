import StyleOrigin.Proofs.Css.Rereading

/-! # What reading again leaves of tokens

Reading again keeps tokens up to their positions, their comments, the grouping of white space and the
spelling of units. Distilling drops just that.

* `Token.distil`, `distil`: tokens without what reading again may change.
* `nestFrom_flat`: the lexemes of well-nested tokens are nested into these tokens again.
* `distil_nestFrom`: distilling after nesting is nesting after distilling.
* `writeTokensFrom_distil`: distilled tokens are written alike.
-/
set_option autoImplicit false

namespace StyleOrigin.Css

/-! ## Distilled tokens -/

mutual

/-- A token without what reading again may change. -/
def Token.distil : Token → List Token
  | .leaf _ value => value.distil.map (.leaf .start)
  | .group _ opening content => [.group .start opening (distil content)]

/-- A sequence of tokens without what reading again may change. -/
def distil : List Token → List Token
  | [] => []
  | token :: rest => token.distil ++ distil rest

end

theorem distil_append (first second : List Token) :
    distil (first ++ second) = distil first ++ distil second := by
  induction first with
  | nil => rfl
  | cons token rest ih => simp [distil, ih]

theorem distil_singleton (token : Token) : distil [token] = token.distil := by
  simp [distil]

/-! ## Nesting -/

section Steps
variable (groups : List OpenGroup) (content : List Token) (rest : List (Position × Lexeme))

theorem nestFrom_nil : nestFrom groups content [] =
    (groups.foldl (fun content group => group.finish content) content).reverse := by
  cases groups <;> rfl

theorem nestFrom_leaf (position : Position) (value : Leaf) :
    nestFrom groups content ((position, .leaf value) :: rest) =
      nestFrom groups (.leaf position value :: content) rest := by
  cases groups <;> rfl

theorem nestFrom_opens (position : Position) (opening : Opening) :
    nestFrom groups content ((position, .opens opening) :: rest) =
      nestFrom (⟨position, opening, content⟩ :: groups) [] rest := by
  cases groups <;> rfl

end Steps

/-- Lexemes at the start of a source. -/
def placed (lexemes : List Lexeme) : List (Position × Lexeme) :=
  lexemes.map (Position.start, ·)

theorem nestFrom_leaves (groups : List OpenGroup) (content : List Token) (values : List Leaf)
    (rest : List (Position × Lexeme)) :
    nestFrom groups content (placed (values.map .leaf) ++ rest) =
      nestFrom groups ((values.map (Token.leaf .start)).reverse ++ content) rest := by
  induction values generalizing content with
  | nil => rfl
  | cons value values ih =>
    have hstep : nestFrom groups content (placed ((value :: values).map .leaf) ++ rest) =
        nestFrom groups (.leaf .start value :: content) (placed (values.map .leaf) ++ rest) :=
      nestFrom_leaf groups content _ .start value
    rw [hstep, ih]
    simp

theorem placed_append (first second : List Lexeme) :
    placed (first ++ second) = placed first ++ placed second := by
  simp [placed]

/-- The innermost open group is not ended by the unmatched closers of a sequence. -/
def Unended (groups : List OpenGroup) (tokens : List Token) : Prop :=
  ∀ group ∈ groups.head?, ∀ token ∈ tokens, token.isUnmatched group.opening.closedBy = false

theorem Unended.tail {groups : List OpenGroup} {token : Token} {rest : List Token}
    (h : Unended groups (token :: rest)) : Unended groups rest :=
  fun group hgroup next hnext => h group hgroup next (List.mem_cons_of_mem _ hnext)

theorem nestFrom_unmatched {groups : List OpenGroup} {bracket : Bracket} {position : Position}
    {rest : List Token} (h : Unended groups (.leaf position (.flaw (.unmatched bracket)) :: rest))
    (content : List Token) (more : List (Position × Lexeme)) :
    nestFrom groups content ((.start, .closes bracket) :: more) =
      nestFrom groups (.leaf .start (.flaw (.unmatched bracket)) :: content) more := by
  cases groups with
  | nil => rfl
  | cons group groups =>
    have hne : group.opening.closedBy ≠ bracket := by
      have hother := h group rfl _ List.mem_cons_self
      simp only [Token.isUnmatched, beq_eq_false_iff_ne] at hother
      exact hother.symm
    rw [nestFrom, if_neg hne]

theorem nestFrom_flat {tokens : List Token} (hsound : SoundAll tokens) {groups : List OpenGroup}
    (hgroups : Unended groups tokens) (content : List Token) (rest : List (Position × Lexeme)) :
    nestFrom groups content (placed ((flat tokens).flatMap Lexeme.distil) ++ rest) =
      nestFrom groups ((distil tokens).reverse ++ content) rest := by
  induction tokens using tokens_induction generalizing groups content rest with
  | nil => rfl
  | leaf position value more ih =>
    have hmore := fun content => ih hsound.tail hgroups.tail content rest
    rw [flat, Token.flat, List.flatMap_append, List.flatMap_singleton, placed_append,
      List.append_assoc, distil, Token.distil]
    by_cases hunmatched : ∃ bracket, value = .flaw (.unmatched bracket)
    · obtain ⟨bracket, rfl⟩ := hunmatched
      have hstep := nestFrom_unmatched hgroups content
        (placed ((flat more).flatMap Lexeme.distil) ++ rest)
      exact hstep.trans (by rw [hmore]; simp [Leaf.distil])
    · rw [distil_leaf fun bracket hvalue => hunmatched ⟨bracket, hvalue⟩, nestFrom_leaves, hmore]
      simp
  | group position opening inside more ihinside ih =>
    obtain ⟨hopening, hinside⟩ := (hsound.each _ List.mem_cons_self).of_group
    have hmore := fun content => ih hsound.tail hgroups.tail content rest
    have hended : Unended (⟨.start, opening, content⟩ :: groups) inside := by
      intro group hgroup
      obtain rfl : (⟨.start, opening, content⟩ : OpenGroup) = group := by simpa using hgroup
      exact hopening.closed
    have hbody := ihinside hinside hended []
      ((.start, .closes opening.closedBy) :: (placed ((flat more).flatMap Lexeme.distil) ++ rest))
    have hopen : nestFrom groups content (placed ((flat (.group position opening inside ::
        more)).flatMap Lexeme.distil) ++ rest) =
        nestFrom (⟨.start, opening, content⟩ :: groups) []
          (placed ((flat inside).flatMap Lexeme.distil) ++ (.start, .closes opening.closedBy) ::
            (placed ((flat more).flatMap Lexeme.distil) ++ rest)) := by
      simp only [flat, Token.flat, List.cons_append, List.flatMap_cons, List.flatMap_append,
        List.append_assoc, placed_append]
      cases groups <;> rfl
    rw [hopen, hbody, nestFrom, if_pos rfl, OpenGroup.finish, hmore]
    simp [distil, Token.distil]

theorem nest_flat {tokens : List Token} (hsound : SoundAll tokens) :
    nest (placed ((flat tokens).flatMap Lexeme.distil)) = distil tokens := by
  have hended : Unended [] tokens := by simp [Unended]
  have h := nestFrom_flat hsound hended [] []
  rw [List.append_nil, List.append_nil] at h
  rw [nest, h, nestFrom]
  simp

/-! ## Distilling and nesting -/

def distilReversed (tokens : List Token) : List Token :=
  (distil tokens.reverse).reverse

theorem distilReversed_cons (token : Token) (rest : List Token) :
    distilReversed (token :: rest) = token.distil.reverse ++ distilReversed rest := by
  simp [distilReversed, distil_append, distil_singleton]

def OpenGroup.distil (group : OpenGroup) : OpenGroup :=
  ⟨.start, group.opening, distilReversed group.before⟩

theorem OpenGroup.distil_finish (group : OpenGroup) (content : List Token) :
    distilReversed (group.finish content) = group.distil.finish (distilReversed content) := by
  rw [OpenGroup.finish, distilReversed_cons, Token.distil, OpenGroup.finish, OpenGroup.distil]
  simp only [distilReversed, List.reverse_reverse]
  rfl

theorem distilReversed_finishAll (groups : List OpenGroup) (content : List Token) :
    distilReversed (groups.foldl (fun content group => group.finish content) content) =
      (groups.map OpenGroup.distil).foldl (fun content group => group.finish content)
        (distilReversed content) := by
  induction groups generalizing content with
  | nil => rfl
  | cons group groups ih =>
    rw [List.foldl_cons, ih, OpenGroup.distil_finish, List.map_cons, List.foldl_cons]

/-- Distilling after nesting is nesting after distilling. -/
theorem distil_nestFrom {lexemes : List (Position × Lexeme)}
    (hplain : ∀ found ∈ lexemes, ∀ bracket, found.2 ≠ .leaf (.flaw (.unmatched bracket)))
    (groups : List OpenGroup) (content : List Token) :
    distil (nestFrom groups content lexemes) =
      nestFrom (groups.map OpenGroup.distil) (distilReversed content)
        (placed ((lexemes.map (·.2)).flatMap Lexeme.distil)) := by
  induction lexemes generalizing groups content with
  | nil =>
    have h := congrArg List.reverse (distilReversed_finishAll groups content)
    rw [distilReversed, List.reverse_reverse] at h
    rw [nestFrom_nil, h]
    exact (nestFrom_nil _ _).symm
  | cons found rest ih =>
    obtain ⟨position, lexeme⟩ := found
    have ih := ih fun next hnext => hplain next (List.mem_cons_of_mem _ hnext)
    rw [List.map_cons, List.flatMap_cons, placed_append]
    cases lexeme with
    | leaf value =>
      have hvalue : ∀ bracket, value ≠ .flaw (.unmatched bracket) := fun bracket heq =>
        hplain _ List.mem_cons_self bracket (congrArg Lexeme.leaf heq)
      rw [nestFrom_leaf, ih, distil_leaf hvalue, nestFrom_leaves, distilReversed_cons, Token.distil]
    | opens opening =>
      rw [nestFrom_opens, ih]
      exact (nestFrom_opens _ _ _ _ _).symm
    | closes bracket =>
      cases groups with
      | nil =>
        rw [nestFrom, ih, distilReversed_cons]
        rfl
      | cons group groups =>
        by_cases hends : group.opening.closedBy = bracket
        · rw [nestFrom, if_pos hends, ih, OpenGroup.distil_finish]
          exact (if_pos hends).symm
        · rw [nestFrom, if_neg hends, ih, distilReversed_cons]
          exact (if_neg hends).symm

/-! ## Writing distilled tokens -/

/-- A sequence of tokens without comments, at any depth. -/
def CommentFree (tokens : List Token) : Prop :=
  ∀ lexeme ∈ flat tokens, lexeme.isComment = false

theorem CommentFree.of_leaf {position : Position} {value : Leaf} {rest : List Token}
    (h : CommentFree (.leaf position value :: rest)) :
    Lexeme.isComment (.leaf value) = false ∧ CommentFree rest :=
  ⟨h _ (by simp [flat, Token.flat]), fun lexeme hlexeme => h lexeme (by simp [flat, hlexeme])⟩

theorem CommentFree.of_group {position : Position} {opening : Opening} {content rest : List Token}
    (h : CommentFree (.group position opening content :: rest)) :
    CommentFree content ∧ CommentFree rest :=
  ⟨fun lexeme hlexeme => h lexeme (by simp [flat, Token.flat, hlexeme]),
    fun lexeme hlexeme => h lexeme (by simp [flat, hlexeme])⟩

theorem CommentFree.of_subset {tokens part : List Token} (h : CommentFree tokens)
    (hpart : ∀ token ∈ part, token ∈ tokens) : CommentFree part :=
  fun lexeme hlexeme => h lexeme (flat_subset hpart hlexeme)

theorem CommentFree.append {front back : List Token} (hfront : CommentFree front)
    (hback : CommentFree back) : CommentFree (front ++ back) := by
  intro lexeme hlexeme
  rw [flat_append] at hlexeme
  exact (List.mem_append.mp hlexeme).elim (hfront lexeme) (hback lexeme)

/-- The content of a block among sound tokens without comments is such itself. -/
theorem plain_content {position : Position} {opening : Opening} {content tokens : List Token}
    (hsound : SoundAll tokens) (hfree : CommentFree tokens)
    (h : .group position opening content ∈ tokens) : SoundAll content ∧ CommentFree content :=
  ⟨(hsound.each _ h).of_group.2, fun lexeme hlexeme => hfree lexeme (flat_content h hlexeme)⟩

/-- The single characters of white space. -/
def spaces (gap : Text) : List Token :=
  gap.map fun c => .leaf .start (.whitespace [c])

theorem distil_whitespace (position : Position) (gap : Text) :
    (Token.leaf position (.whitespace gap)).distil = spaces gap := by
  simp [Token.distil, Leaf.distil, spaces]

theorem kind_whitespace (position : Position) (gap : Text) :
    (Token.leaf position (.whitespace gap)).kind = .other := rfl

theorem writeTokensFrom_spaces (gap : Text) (rest : List Token) :
    writeTokensFrom (some .other) (spaces gap ++ rest) = gap ++ writeTokensFrom (some .other) rest := by
  induction gap with
  | nil => rfl
  | cons c cs ih =>
    have hcons : spaces (c :: cs) ++ rest = .leaf .start (.whitespace [c]) :: (spaces cs ++ rest) := rfl
    rw [hcons, writeTokensFrom, separator_other]
    exact congrArg (c :: ·) ih

theorem separator_whitespace (before : Option Kind) (c : Char) (cs : Text) (position : Position) :
    separator before (.leaf .start (.whitespace [c])) =
      separator before (.leaf position (.whitespace (c :: cs))) := by
  have hline : (Token.leaf .start (.whitespace [c])).startsWithLineFeed =
      (Token.leaf position (.whitespace (c :: cs))).startsWithLineFeed := by
    by_cases hc : c = '\n'
    · subst hc
      rfl
    · simp [Token.startsWithLineFeed, hc]
  unfold separator
  cases before with
  | none => rfl
  | some kind =>
    simp only [Token.kind, hline]
    rfl

/-- Two tokens look alike to a writer. -/
structure Token.Alike (token other : Token) : Prop where
  write : token.write = other.write
  kind : token.kind = other.kind
  lineFeed : token.startsWithLineFeed = other.startsWithLineFeed
  unclosed : token.endsUnclosed = other.endsUnclosed

/-- A leaf distils to its white space in single characters, or to one leaf that looks alike. -/
theorem distil_leaf_cases {value : Leaf} (hsound : value.Sound)
    (hcomment : Lexeme.isComment (.leaf value) = false) (position : Position) :
    (∃ c cs, value = .whitespace (c :: cs)) ∨
      ∃ settled : Leaf, value.distil = [settled] ∧
        (Token.leaf .start settled).Alike (.leaf position value) := by
  cases value with
  | whitespace gap =>
    obtain ⟨c, cs, rfl⟩ := List.exists_cons_of_ne_nil hsound.1
    exact .inl ⟨c, cs, rfl⟩
  | comment text => exact absurd hcomment (by simp [Lexeme.isComment])
  | dimension numeral unit =>
    refine .inr ⟨_, rfl, ⟨?_, rfl, rfl, rfl⟩⟩
    simp only [Token.write, Leaf.write, encodeUnit_settledUnit]
  | flaw fault => cases fault <;> exact .inr ⟨_, rfl, ⟨rfl, rfl, rfl, rfl⟩⟩
  | _ => exact .inr ⟨_, rfl, ⟨rfl, rfl, rfl, rfl⟩⟩

theorem separator_alike {token other : Token} (h : token.Alike other) (before : Option Kind) :
    separator before token = separator before other := by
  unfold separator
  cases before with
  | none => rfl
  | some kind => simp only [h.kind, h.lineFeed]

theorem lastEndsUnclosed_append {front tokens : List Token} (hne : tokens ≠ []) :
    lastEndsUnclosed (front ++ tokens) = lastEndsUnclosed tokens := by
  induction front with
  | nil => rfl
  | cons token rest ih =>
    obtain ⟨next, more, hcons⟩ := List.exists_cons_of_ne_nil (List.append_ne_nil_of_right_ne_nil rest hne)
    rw [List.cons_append, hcons, lastEndsUnclosed, ← hcons, ih]
    simp

theorem distil_ne_nil {token : Token} {rest : List Token} (hsound : SoundAll (token :: rest))
    (hfree : CommentFree (token :: rest)) : distil (token :: rest) ≠ [] := by
  cases token with
  | group position opening content => simp [distil, Token.distil]
  | leaf position value =>
    obtain ⟨c, cs, rfl⟩ | ⟨settled, hsettled, _⟩ := distil_leaf_cases
      (hsound.each _ List.mem_cons_self).of_leaf hfree.of_leaf.1 position
    · simp [distil, Token.distil, Leaf.distil]
    · simp [distil, Token.distil, hsettled]

theorem lastEndsUnclosed_spaces (gap : Text) : lastEndsUnclosed (spaces gap) = false := by
  induction gap with
  | nil => rfl
  | cons c cs ih =>
    cases cs with
    | nil => rfl
    | cons d ds => exact ih

theorem lastEndsUnclosed_distil {tokens : List Token} (hsound : SoundAll tokens)
    (hfree : CommentFree tokens) : lastEndsUnclosed (distil tokens) = lastEndsUnclosed tokens := by
  induction tokens using tokens_induction with
  | nil => rfl
  | leaf position value rest ih =>
    have ih := ih hsound.tail hfree.of_leaf.2
    cases rest with
    | cons next more =>
      rw [distil, lastEndsUnclosed_append (distil_ne_nil hsound.tail hfree.of_leaf.2), ih]
      rfl
    | nil =>
      obtain ⟨c, cs, rfl⟩ | ⟨settled, hsettled, halike⟩ := distil_leaf_cases
        (hsound.each _ List.mem_cons_self).of_leaf hfree.of_leaf.1 position
      · rw [distil_singleton, distil_whitespace]
        exact lastEndsUnclosed_spaces (c :: cs)
      · rw [distil_singleton, Token.distil, hsettled]
        exact halike.unclosed
  | group position opening content rest ihcontent ih =>
    have ih := ih hsound.tail hfree.of_group.2
    cases rest with
    | cons next more =>
      rw [distil, lastEndsUnclosed_append (distil_ne_nil hsound.tail hfree.of_group.2), ih]
      rfl
    | nil =>
      have hcontent := ihcontent (hsound.each _ List.mem_cons_self).of_group.2 hfree.of_group.1
      rw [distil_singleton, Token.distil]
      cases opening with
      | bracket kind => rfl
      | function name => exact hcontent

theorem alike_distil_group {content : List Token} (hsound : SoundAll content)
    (hfree : CommentFree content) (hwrite : writeTokensFrom none (distil content) =
      writeTokensFrom none content) (position : Position) (opening : Opening) :
    (Token.group .start opening (distil content)).Alike (.group position opening content) := by
  have hlast := lastEndsUnclosed_distil hsound hfree
  cases opening with
  | bracket kind => exact ⟨by rw [Token.write, Token.write, hwrite], by cases kind <;> rfl, rfl, rfl⟩
  | function name => exact ⟨by rw [Token.write, Token.write, hwrite, hlast], rfl, rfl, hlast⟩

/-- Distilled tokens are written alike. -/
theorem writeTokensFrom_distil {tokens : List Token} (hsound : SoundAll tokens)
    (hfree : CommentFree tokens) (before : Option Kind) :
    writeTokensFrom before (distil tokens) = writeTokensFrom before tokens := by
  induction tokens using tokens_induction generalizing before with
  | nil => rfl
  | leaf position value rest ih =>
    have ih := ih hsound.tail hfree.of_leaf.2
    obtain ⟨c, cs, rfl⟩ | ⟨settled, hsettled, halike⟩ := distil_leaf_cases
      (hsound.each _ List.mem_cons_self).of_leaf hfree.of_leaf.1 position
    · have hspaces : distil (.leaf position (.whitespace (c :: cs)) :: rest) =
          .leaf .start (.whitespace [c]) :: (spaces cs ++ distil rest) := by
        rw [distil, distil_whitespace]
        rfl
      rw [hspaces, writeTokensFrom, separator_whitespace before c cs position, kind_whitespace,
        writeTokensFrom_spaces, ih, writeTokensFrom, kind_whitespace]
      simp [Token.write, Leaf.write]
    · have hcons : distil (.leaf position value :: rest) = .leaf .start settled :: distil rest := by
        rw [distil, Token.distil, hsettled]
        rfl
      rw [hcons, writeTokensFrom, writeTokensFrom, separator_alike halike, halike.write, halike.kind,
        ih]
  | group position opening content rest ihcontent ih =>
    have ih := ih hsound.tail hfree.of_group.2
    have hinside := (hsound.each _ List.mem_cons_self).of_group.2
    have halike := alike_distil_group hinside hfree.of_group.1
      (ihcontent hinside hfree.of_group.1 none) position opening
    have hcons : distil (.group position opening content :: rest) =
        .group .start opening (distil content) :: distil rest := rfl
    rw [hcons, writeTokensFrom, writeTokensFrom, separator_alike halike, halike.write, halike.kind, ih]

end StyleOrigin.Css
