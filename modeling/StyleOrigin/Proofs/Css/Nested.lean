import StyleOrigin.Proofs.Css.Distillation
import StyleOrigin.Proofs.Css.Lexing

/-! # What nesting brings

The tokens of a source text are its lexemes with brackets matched. What holds of the lexemes therefore
holds of the tokens, and no group holds a closer that would have ended it.

* `unread`: the lexemes that tokens were made from.
* `unread_nest`: nesting keeps the lexemes, and closes what the end of the source left open.
* `Token.Closed`: no group holds a closer of its own.
* `wellRead_of_tokens`: what holds of the tokens of a source text.
-/
set_option autoImplicit false

namespace StyleOrigin.Css

/-! ## Lexemes of tokens -/

/-- A lexeme as it was read: the flaw of an unmatched closer was that closer. -/
def Lexeme.asRead : Lexeme → Lexeme
  | .leaf (.flaw (.unmatched bracket)) => .closes bracket
  | lexeme => lexeme

/-- The lexemes that tokens were made from. -/
def unread (tokens : List Token) : List Lexeme :=
  (flat tokens).map Lexeme.asRead

theorem unread_append (first second : List Token) :
    unread (first ++ second) = unread first ++ unread second := by
  rw [unread, flat_append, List.map_append]
  rfl

theorem unread_leaf (position : Position) (value : Leaf) (rest : List Token) :
    unread (.leaf position value :: rest) = (Lexeme.leaf value).asRead :: unread rest := by
  simp [unread, flat, Token.flat]

theorem unread_group (position : Position) (opening : Opening) (content rest : List Token) :
    unread (.group position opening content :: rest) =
      .opens opening :: (unread content ++ .closes opening.closedBy :: unread rest) := by
  simp [unread, flat, Token.flat, Lexeme.asRead]

/-- The lexemes read so far, when groups are open. -/
def opened : List OpenGroup → List Token → List Lexeme
  | [], content => unread content.reverse
  | group :: groups, content =>
    opened groups group.before ++ .opens group.opening :: unread content.reverse

theorem opened_cons (groups : List OpenGroup) (token : Token) (content : List Token) :
    opened groups (token :: content) = opened groups content ++ unread [token] := by
  cases groups <;> simp [opened, unread_append]

theorem opened_flaw (groups : List OpenGroup) (position : Position) (bracket : Bracket)
    (content : List Token) :
    opened groups (.leaf position (.flaw (.unmatched bracket)) :: content) =
      opened groups content ++ [.closes bracket] := by
  rw [opened_cons, unread_leaf]
  rfl

theorem opened_finish (group : OpenGroup) (groups : List OpenGroup) (content : List Token) :
    opened groups (group.finish content) =
      opened (group :: groups) content ++ [.closes group.opening.closedBy] := by
  rw [OpenGroup.finish, opened_cons, unread_group, opened]
  simp [unread, flat]

def AllClose (lexemes : List Lexeme) : Prop :=
  ∀ lexeme ∈ lexemes, ∃ bracket, lexeme = .closes bracket

theorem unread_finishAll (groups : List OpenGroup) (content : List Token) :
    ∃ closers, AllClose closers ∧
      unread (groups.foldl (fun content group => group.finish content) content).reverse =
        opened groups content ++ closers := by
  induction groups generalizing content with
  | nil => exact ⟨[], by simp [AllClose], by simp [opened]⟩
  | cons group groups ih =>
    obtain ⟨closers, hclosers, heq⟩ := ih (group.finish content)
    refine ⟨.closes group.opening.closedBy :: closers, ?_, ?_⟩
    · intro lexeme hlexeme
      obtain rfl | hlexeme := List.mem_cons.mp hlexeme
      · exact ⟨_, rfl⟩
      · exact hclosers lexeme hlexeme
    · rw [List.foldl_cons, heq, opened_finish]
      simp

/-- Lexemes as a reader brings them, without the flaw of an unmatched closer. -/
def Plain (lexemes : List (Position × Lexeme)) : Prop :=
  ∀ found ∈ lexemes, ∀ bracket, found.2 ≠ .leaf (.flaw (.unmatched bracket))

theorem Plain.tail {found : Position × Lexeme} {rest : List (Position × Lexeme)}
    (h : Plain (found :: rest)) : Plain rest :=
  fun next hnext => h next (List.mem_cons_of_mem _ hnext)

theorem asRead_leaf {value : Leaf} (h : ∀ bracket, value ≠ .flaw (.unmatched bracket)) :
    (Lexeme.leaf value).asRead = .leaf value := by
  unfold Lexeme.asRead
  split
  · rename_i heq
    exact absurd (Lexeme.leaf.inj heq) (h _)
  · rfl

/-- Nesting keeps the lexemes, and closes what the end of the source left open. -/
theorem unread_nestFrom {lexemes : List (Position × Lexeme)} (hplain : Plain lexemes)
    (groups : List OpenGroup) (content : List Token) :
    ∃ closers, AllClose closers ∧ unread (nestFrom groups content lexemes) =
      opened groups content ++ (lexemes.map (·.2) ++ closers) := by
  induction lexemes generalizing groups content with
  | nil =>
    obtain ⟨closers, hclosers, heq⟩ := unread_finishAll groups content
    exact ⟨closers, hclosers, by cases groups <;> exact heq⟩
  | cons found rest ih =>
    obtain ⟨position, lexeme⟩ := found
    have ih := fun groups content => ih hplain.tail groups content
    cases lexeme with
    | leaf value =>
      obtain ⟨closers, hclosers, heq⟩ := ih groups (.leaf position value :: content)
      have hvalue := asRead_leaf fun bracket h =>
        hplain _ List.mem_cons_self bracket (congrArg Lexeme.leaf h)
      refine ⟨closers, hclosers, ?_⟩
      have hstep : nestFrom groups content ((position, .leaf value) :: rest) =
          nestFrom groups (.leaf position value :: content) rest := by
        cases groups <;> rfl
      rw [hstep, heq, opened_cons, unread_leaf, hvalue]
      simp [unread, flat]
    | opens opening =>
      obtain ⟨closers, hclosers, heq⟩ := ih (⟨position, opening, content⟩ :: groups) []
      refine ⟨closers, hclosers, ?_⟩
      have hstep : nestFrom groups content ((position, .opens opening) :: rest) =
          nestFrom (⟨position, opening, content⟩ :: groups) [] rest := by
        cases groups <;> rfl
      rw [hstep, heq, opened]
      simp [unread, flat]
    | closes bracket =>
      cases groups with
      | nil =>
        obtain ⟨closers, hclosers, heq⟩ := ih [] (.leaf position (.flaw (.unmatched bracket)) :: content)
        exact ⟨closers, hclosers, by rw [nestFrom, heq, opened_flaw]; simp⟩
      | cons group groups =>
        by_cases hends : group.opening.closedBy = bracket
        · obtain ⟨closers, hclosers, heq⟩ := ih groups (group.finish content)
          refine ⟨closers, hclosers, ?_⟩
          rw [nestFrom, if_pos hends, heq, opened_finish, hends]
          simp
        · obtain ⟨closers, hclosers, heq⟩ := ih (group :: groups)
            (.leaf position (.flaw (.unmatched bracket)) :: content)
          exact ⟨closers, hclosers, by rw [nestFrom, if_neg hends, heq, opened_flaw]; simp⟩

theorem unread_nest {lexemes : List (Position × Lexeme)} (hplain : Plain lexemes) :
    ∃ closers, AllClose closers ∧ unread (nest lexemes) = lexemes.map (·.2) ++ closers :=
  unread_nestFrom hplain [] []

/-! ## Closers that end no group -/

/-- No group at or inside a token holds a closer that would have ended it. -/
inductive Token.Closed : Token → Prop
  | leaf (position : Position) (value : Leaf) : Closed (.leaf position value)
  | group (position : Position) {opening : Opening} {content : List Token}
      (hown : ∀ token ∈ content, token.isUnmatched opening.closedBy = false)
      (h : ∀ token ∈ content, Closed token) : Closed (.group position opening content)

/-- No open group, and none in front of one, holds a closer that would have ended it. -/
def AllClosed : List OpenGroup → List Token → Prop
  | [], content => ∀ token ∈ content, token.Closed
  | group :: groups, content =>
    (∀ token ∈ content, token.Closed ∧ token.isUnmatched group.opening.closedBy = false) ∧
      AllClosed groups group.before

theorem AllClosed.cons {groups : List OpenGroup} {content : List Token} {token : Token}
    (h : AllClosed groups content) (htoken : token.Closed)
    (hown : ∀ group ∈ groups.head?, token.isUnmatched group.opening.closedBy = false) :
    AllClosed groups (token :: content) := by
  cases groups with
  | nil => exact List.forall_mem_cons.mpr ⟨htoken, h⟩
  | cons group groups => exact ⟨List.forall_mem_cons.mpr ⟨⟨htoken, hown group rfl⟩, h.1⟩, h.2⟩

theorem AllClosed.finish {group : OpenGroup} {groups : List OpenGroup} {content : List Token}
    (h : AllClosed (group :: groups) content) : AllClosed groups (group.finish content) := by
  have hgroup : Token.Closed (.group group.position group.opening content.reverse) :=
    .group _ (fun token htoken => (h.1 token (List.mem_reverse.mp htoken)).2)
      fun token htoken => (h.1 token (List.mem_reverse.mp htoken)).1
  exact h.2.cons hgroup fun _ _ => rfl

theorem closed_finishAll {groups : List OpenGroup} {content : List Token}
    (h : AllClosed groups content) :
    ∀ token ∈ groups.foldl (fun content group => group.finish content) content, token.Closed := by
  induction groups generalizing content with
  | nil => exact h
  | cons group groups ih => exact ih h.finish

/-- Nesting puts no closer into a group that it would have ended. -/
theorem closed_nestFrom {lexemes : List (Position × Lexeme)} (hplain : Plain lexemes)
    {groups : List OpenGroup} {content : List Token} (h : AllClosed groups content) :
    ∀ token ∈ nestFrom groups content lexemes, token.Closed := by
  induction lexemes generalizing groups content with
  | nil =>
    intro token htoken
    have hmem : token ∈ groups.foldl (fun content group => group.finish content) content := by
      cases groups <;> exact List.mem_reverse.mp htoken
    exact closed_finishAll h token hmem
  | cons found rest ih =>
    obtain ⟨position, lexeme⟩ := found
    cases lexeme with
    | leaf value =>
      have hstep : nestFrom groups content ((position, .leaf value) :: rest) =
          nestFrom groups (.leaf position value :: content) rest := by
        cases groups <;> rfl
      rw [hstep]
      refine ih hplain.tail (h.cons (.leaf position value) fun group _ => ?_)
      unfold Token.isUnmatched
      split
      · rename_i heq
        obtain ⟨_, rfl⟩ := Token.leaf.inj heq
        exact absurd rfl (hplain _ List.mem_cons_self _)
      · rfl
    | opens opening =>
      have hstep : nestFrom groups content ((position, .opens opening) :: rest) =
          nestFrom (⟨position, opening, content⟩ :: groups) [] rest := by
        cases groups <;> rfl
      rw [hstep]
      exact ih hplain.tail ⟨by simp, h⟩
    | closes bracket =>
      have hflaw : Token.Closed (.leaf position (.flaw (.unmatched bracket))) := .leaf _ _
      cases groups with
      | nil => exact ih hplain.tail (h.cons hflaw (by simp))
      | cons group groups =>
        rw [nestFrom]
        split
        · exact ih hplain.tail h.finish
        · rename_i hends
          refine ih hplain.tail (h.cons hflaw fun other hother => ?_)
          obtain rfl : group = other := by simpa using hother
          simpa [Token.isUnmatched] using fun heq => hends heq.symm

theorem Token.Closed.of_group {position : Position} {opening : Opening} {content : List Token}
    (h : Token.Closed (.group position opening content)) :
    (∀ token ∈ content, token.isUnmatched opening.closedBy = false) ∧
      ∀ token ∈ content, token.Closed := by
  cases h with
  | group _ hown hcontent => exact ⟨hown, hcontent⟩

/-! ## Sound tokens -/

theorem Lexed.of_append {first second : List Lexeme} (h : Lexed (first ++ second)) :
    Lexed second := by
  induction first with
  | nil => exact h
  | cons lexeme rest ih => exact ih h.2

theorem startsWithLineFeed_of_beginsLine {token : Token} {rest : List Token} {after : List Lexeme}
    (h : beginsLine (unread (token :: rest) ++ after) = true) : token.startsWithLineFeed = true := by
  cases token with
  | group position opening content =>
    rw [unread_group] at h
    exact absurd h (by simp [beginsLine])
  | leaf position value =>
    rw [unread_leaf, List.cons_append] at h
    unfold beginsLine at h
    split at h
    · rename_i heq
      have hvalue := (List.cons.inj heq).1
      unfold Lexeme.asRead at hvalue
      split at hvalue
      · exact absurd hvalue (by simp)
      · obtain rfl := Lexeme.leaf.inj hvalue
        rfl
    · exact absurd h (by simp)

def Lexeme.isQuoted : Lexeme → Bool
  | .leaf (.string _ _) => true
  | .leaf (.flaw .badString) => true
  | _ => false

theorem beginsQuoted_cons (lexeme : Lexeme) (rest : List Lexeme) :
    beginsQuoted (lexeme :: rest) = true → lexeme.isQuoted = true ∨
      (∃ gap, lexeme = .leaf (.whitespace gap)) ∧ ∃ next ∈ rest.head?, next.isQuoted = true := by
  unfold beginsQuoted
  split
  · rename_i heq
    exact fun _ => .inl (by rw [(List.cons.inj heq).1]; rfl)
  · rename_i heq
    exact fun _ => .inl (by rw [(List.cons.inj heq).1]; rfl)
  · rename_i heq
    obtain ⟨rfl, rfl⟩ := List.cons.inj heq
    exact fun _ => .inr ⟨⟨_, rfl⟩, _, rfl, rfl⟩
  · rename_i heq
    obtain ⟨rfl, rfl⟩ := List.cons.inj heq
    exact fun _ => .inr ⟨⟨_, rfl⟩, _, rfl, rfl⟩
  · exact fun h => absurd h (by simp)

theorem exists_cons_unread (token : Token) (rest : List Token) :
    ∃ lexeme more, unread (token :: rest) = lexeme :: more ∧
      (lexeme.isQuoted = true → token.isQuoted = true) ∧
      ((∃ gap, lexeme = .leaf (.whitespace gap)) → token.isSpace = true ∧ more = unread rest) := by
  cases token with
  | group position opening content =>
    refine ⟨_, _, unread_group _ _ _ _, fun h => absurd h (by simp [Lexeme.isQuoted]), ?_⟩
    rintro ⟨gap, heq⟩
    exact absurd heq (by simp)
  | leaf position value =>
    refine ⟨_, _, unread_leaf _ _ _, ?_, ?_⟩
    · unfold Lexeme.asRead
      split
      · exact fun h => absurd h (by simp [Lexeme.isQuoted])
      · unfold Lexeme.isQuoted
        split <;> simp_all [Token.isQuoted]
    · rintro ⟨gap, heq⟩
      unfold Lexeme.asRead at heq
      split at heq
      · exact absurd heq (by simp)
      · obtain rfl := Lexeme.leaf.inj heq
        exact ⟨rfl, rfl⟩

theorem startsQuoted_of_beginsQuoted {content : List Token} {bracket : Bracket}
    {after : List Lexeme} (h : beginsQuoted (unread content ++ .closes bracket :: after) = true) :
    startsQuoted content = true := by
  cases content with
  | nil => exact absurd h (by simp [unread, flat, beginsQuoted])
  | cons token rest =>
    obtain ⟨lexeme, more, hcons, hquoted, hspace⟩ := exists_cons_unread token rest
    rw [hcons, List.cons_append] at h
    rw [startsQuoted]
    obtain hlexeme | ⟨hgap, next, hnext, hnextQuoted⟩ := beginsQuoted_cons _ _ h
    · simp [hquoted hlexeme]
    · obtain ⟨htoken, rfl⟩ := hspace hgap
      cases rest with
      | nil =>
        obtain rfl : Lexeme.closes bracket = next := by simpa [unread, flat] using hnext
        exact absurd hnextQuoted (by simp [Lexeme.isQuoted])
      | cons other others =>
        obtain ⟨first, _, hother, hotherQuoted, _⟩ := exists_cons_unread other others
        rw [hother] at hnext
        obtain rfl : first = next := by simpa using hnext
        simp [htoken, hotherQuoted hnextQuoted]

/-- Tokens are sound when they were made from the lexemes of a text. -/
theorem sound_of_unread {tokens : List Token} {after : List Lexeme}
    (hlexed : Lexed (unread tokens ++ after)) (hclosed : ∀ token ∈ tokens, token.Closed) :
    SoundAll tokens ∧
      ∀ token ∈ tokens.getLast?, token.isLiteral ['\\'] = true → beginsLine after = true := by
  induction tokens using tokens_induction generalizing after with
  | nil => exact ⟨⟨by simp, .nil⟩, by simp⟩
  | leaf position value rest ih =>
    rw [unread_leaf] at hlexed
    obtain ⟨hholds, hrest⟩ := hlexed
    obtain ⟨hsound, hlast⟩ := ih hrest fun token htoken => hclosed token (List.mem_cons_of_mem _ htoken)
    have hvalue : value.Sound := by
      by_cases hunmatched : ∃ bracket, value = .flaw (.unmatched bracket)
      · obtain ⟨bracket, rfl⟩ := hunmatched
        trivial
      · have h := hholds.sound
        rw [asRead_leaf fun bracket heq => hunmatched ⟨bracket, heq⟩] at h
        exact h.1
    have hlead : (Token.leaf position value).isLiteral ['\\'] = true →
        beginsLine (unread rest ++ after) = true := by
      intro hliteral
      unfold Token.isLiteral at hliteral
      split at hliteral
      · rename_i heq
        obtain ⟨_, rfl⟩ := Token.leaf.inj heq
        rw [beq_iff_eq] at hliteral
        subst hliteral
        exact hholds.lead rfl
      · exact absurd hliteral (by simp)
    refine ⟨⟨List.forall_mem_cons.mpr ⟨.leaf position hvalue, hsound.each⟩,
      List.isChain_cons.mpr ⟨fun next hnext hliteral => ?_, hsound.chain⟩⟩, ?_⟩
    · obtain ⟨more, rfl⟩ := List.head?_eq_some_iff.mp hnext
      exact startsWithLineFeed_of_beginsLine (hlead hliteral)
    · refine forall_mem_getLast?_cons (fun hnil hliteral => ?_) hlast
      subst hnil
      exact hlead hliteral
  | group position opening content rest ihcontent ih =>
    rw [unread_group, List.cons_append, List.append_assoc, List.cons_append] at hlexed
    obtain ⟨hholds, hrest⟩ := hlexed
    obtain ⟨hown, hcontent⟩ := (hclosed _ List.mem_cons_self).of_group
    obtain ⟨hinside, hends⟩ := ihcontent hrest hcontent
    obtain ⟨hsound, hlast⟩ := ih hrest.of_append.2 fun token htoken =>
      hclosed token (List.mem_cons_of_mem _ htoken)
    have hopening : opening.Holds content := by
      refine ⟨?_, hown, fun token htoken => Bool.eq_false_iff.mpr fun hliteral => ?_⟩
      · rintro name rfl
        obtain ⟨hne, hnul⟩ := hholds.sound
        exact ⟨hne, hnul, fun hurl => startsQuoted_of_beginsQuoted (hholds.quote name rfl hurl)⟩
      · exact absurd (hends token htoken hliteral) (by simp [beginsLine])
    refine ⟨⟨List.forall_mem_cons.mpr ⟨.group position hopening hinside.chain hinside.each,
      hsound.each⟩, List.isChain_cons.mpr ⟨fun _ _ hliteral => ?_, hsound.chain⟩⟩, ?_⟩
    · exact absurd hliteral (by simp [Token.isLiteral])
    · refine forall_mem_getLast?_cons (fun _ hliteral => ?_) hlast
      exact absurd hliteral (by simp [Token.isLiteral])

/-! ## The tokens of a source text -/

theorem beginsLine_append {lexemes more : List Lexeme} (h : beginsLine lexemes = true) :
    beginsLine (lexemes ++ more) = true := by
  unfold beginsLine at h
  split at h
  · rfl
  · exact absurd h (by simp)

theorem beginsLine_filter {lexemes : List Lexeme} {keep : Bool} (h : beginsLine lexemes = true) :
    beginsLine (lexemes.filter fun lexeme => keep || !lexeme.isComment) = true := by
  unfold beginsLine at h
  split at h
  · simp [Lexeme.isComment, beginsLine]
  · exact absurd h (by simp)

theorem beginsQuoted_append {lexemes more : List Lexeme} (h : beginsQuoted lexemes = true) :
    beginsQuoted (lexemes ++ more) = true := by
  unfold beginsQuoted at h
  split at h
  · rfl
  · rfl
  · rfl
  · rfl
  · exact absurd h (by simp)

theorem beginsQuoted_filter {lexemes : List Lexeme} {keep : Bool} (h : beginsQuoted lexemes = true) :
    beginsQuoted (lexemes.filter fun lexeme => keep || !lexeme.isComment) = true := by
  unfold beginsQuoted at h
  split at h
  · simp [Lexeme.isComment, beginsQuoted]
  · simp [Lexeme.isComment, beginsQuoted]
  · simp [Lexeme.isComment, beginsQuoted]
  · simp [Lexeme.isComment, beginsQuoted]
  · exact absurd h (by simp)

theorem Lexed.append_closers {lexemes closers : List Lexeme} (h : Lexed lexemes)
    (hclosers : AllClose closers) : Lexed (lexemes ++ closers) := by
  induction lexemes with
  | nil =>
    induction closers with
    | nil => trivial
    | cons closer closers ih =>
      refine .bracket (.inr (hclosers _ List.mem_cons_self)) (ih fun lexeme hlexeme => ?_)
      exact hclosers lexeme (List.mem_cons_of_mem _ hlexeme)
  | cons lexeme rest ih =>
    refine ⟨⟨h.1.sound, fun hlead => ?_, fun name hname hurl => ?_⟩, ih h.2⟩
    · exact beginsLine_append (h.1.lead hlead)
    · exact beginsQuoted_append (h.1.quote name hname hurl)

theorem Lexed.filter {lexemes : List Lexeme} (h : Lexed lexemes) (keep : Bool) :
    Lexed (lexemes.filter fun lexeme => keep || !lexeme.isComment) := by
  induction lexemes with
  | nil => trivial
  | cons lexeme rest ih =>
    have hrest := ih h.2
    rw [List.filter_cons]
    split
    · refine ⟨⟨h.1.sound, fun hlead => ?_, fun name hname hurl => ?_⟩, hrest⟩
      · exact beginsLine_filter (h.1.lead hlead)
      · exact beginsQuoted_filter (h.1.quote name hname hurl)
    · exact hrest

theorem Lexed.sound_of_mem {lexemes : List Lexeme} (h : Lexed lexemes) {lexeme : Lexeme}
    (hmem : lexeme ∈ lexemes) : lexeme.Sound := by
  induction lexemes with
  | nil => exact absurd hmem (by simp)
  | cons first rest ih =>
    obtain rfl | hmem := List.mem_cons.mp hmem
    · exact h.1.sound
    · exact ih h.2 hmem

theorem plain_of_lexed {lexemes : List (Position × Lexeme)} (hlexed : Lexed (lexemes.map (·.2))) :
    Plain lexemes := by
  rintro ⟨position, lexeme⟩ hfound bracket rfl
  have hsound := hlexed.sound_of_mem (List.mem_map_of_mem hfound)
  exact hsound.2 bracket rfl

/-- What holds of the tokens of a source text. -/
structure WellRead (tokens : List Token) : Prop where
  sound : SoundAll tokens
  ends : ∀ token ∈ tokens.getLast?, token.isLiteral ['\\'] = false
  short : ∀ lexeme ∈ flat tokens, lexeme.overlong? = none

theorem WellRead.append {front back : List Token} (hfront : WellRead front) (hback : WellRead back) :
    WellRead (front ++ back) where
  sound := hfront.sound.append hback.sound hfront.ends
  ends token htoken := by
    rw [List.getLast?_append] at htoken
    cases hlast : back.getLast? with
    | none => exact hfront.ends token (by simpa [hlast] using htoken)
    | some last => exact hback.ends token (by simpa [hlast] using htoken)
  short lexeme hlexeme := by
    rw [flat_append] at hlexeme
    exact (List.mem_append.mp hlexeme).elim (hfront.short lexeme) (hback.short lexeme)

theorem overlong_asRead (lexeme : Lexeme) : lexeme.asRead.overlong? = lexeme.overlong? := by
  unfold Lexeme.asRead
  split <;> rfl

/-- Lexemes are nested to tokens that can be written again. -/
theorem wellRead_nest {lexemes : List (Position × Lexeme)} (hlexed : Lexed (lexemes.map (·.2)))
    (hshort : ∀ found ∈ lexemes, found.2.overlong? = none) : WellRead (nest lexemes) := by
  have hplain := plain_of_lexed hlexed
  obtain ⟨closers, hclosers, hunread⟩ := unread_nest hplain
  have hall : Lexed (unread (nest lexemes)) := by
    rw [hunread]
    exact hlexed.append_closers hclosers
  rw [← List.append_nil (unread _)] at hall
  have hstart : AllClosed [] [] := by simp [AllClosed]
  obtain ⟨hsound, hlast⟩ := sound_of_unread hall (closed_nestFrom hplain hstart)
  refine ⟨hsound, fun token htoken => Bool.eq_false_iff.mpr fun hliteral => ?_, ?_⟩
  · exact absurd (hlast token htoken hliteral) (by simp [beginsLine])
  · intro lexeme hlexeme
    have hmem : lexeme.asRead ∈ unread (nest lexemes) := List.mem_map_of_mem hlexeme
    rw [hunread] at hmem
    rw [← overlong_asRead]
    obtain hmem | hmem := List.mem_append.mp hmem
    · obtain ⟨found, hfound, heq⟩ := List.mem_map.mp hmem
      rw [← heq]
      exact hshort found hfound
    · obtain ⟨bracket, heq⟩ := hclosers _ hmem
      rw [heq]
      rfl

/-- Lexemes without comments are nested to tokens without comments. -/
theorem commentFree_nest {lexemes : List (Position × Lexeme)} (hplain : Plain lexemes)
    (hfree : ∀ found ∈ lexemes, found.2.isComment = false) : CommentFree (nest lexemes) := by
  obtain ⟨closers, hclosers, hunread⟩ := unread_nest hplain
  intro lexeme hlexeme
  refine Bool.eq_false_iff.mpr fun hcomment => ?_
  obtain ⟨text, rfl⟩ : ∃ text, lexeme = .leaf (.comment text) := by
    unfold Lexeme.isComment at hcomment
    split at hcomment
    · exact ⟨_, rfl⟩
    · exact absurd hcomment (by simp)
  have hmem : Lexeme.leaf (.comment text) ∈ unread (nest lexemes) :=
    List.mem_map.mpr ⟨_, hlexeme, rfl⟩
  rw [hunread] at hmem
  obtain hmem | hmem := List.mem_append.mp hmem
  · obtain ⟨found, hfound, heq⟩ := List.mem_map.mp hmem
    have := hfree found hfound
    rw [heq] at this
    exact absurd this (by simp [Lexeme.isComment])
  · obtain ⟨bracket, heq⟩ := hclosers _ hmem
    exact absurd heq (by simp)

theorem map_snd_lexemes (keep : Bool) (source : Text) :
    ((lexemes source).filter fun found => keep || !found.2.isComment).map (·.2) =
      (lexemesOf (cleaned source)).filter fun lexeme => keep || !lexeme.isComment := by
  have h := map_snd_lexemesFrom 0 .start (cleaned source)
  rw [List.drop_zero] at h
  rw [← h, List.filter_map]
  rfl

/-- What holds of the tokens of a source text. -/
theorem wellRead_of_tokens {keep : Bool} {source : Text} {ts : List Token}
    (h : tokens keep source = .ok ts) : WellRead ts ∧ (keep = false → CommentFree ts) := by
  simp only [tokens] at h
  split at h
  · exact absurd h (by simp)
  · rename_i hshort
    obtain rfl := Except.ok.inj h
    have hclean : ∀ c ∈ cleaned source, isClean c = true := fun c => isClean_of_mem_cleaned
    have hlexed := (lexed_lexemesOf hclean).filter keep
    rw [← map_snd_lexemes] at hlexed
    refine ⟨wellRead_nest hlexed fun found hfound => ?_, ?_⟩
    · exact List.findSome?_eq_none_iff.mp hshort found (List.mem_filter.mp hfound).1
    · rintro rfl
      refine commentFree_nest (plain_of_lexed hlexed) fun found hfound => ?_
      simpa using (List.mem_filter.mp hfound).2

end StyleOrigin.Css
