import StyleOrigin.Css.Nesting
import StyleOrigin.Proofs.Css.Neighbours

/-! # Sequences of tokens read back

What is written for a sound and legible sequence of tokens is read back as the lexemes of these tokens,
up to comments, the grouping of white space and the spelling of units.

* `tokens_induction`: induction over a sequence of tokens and over the contents of its groups.
* `flat`: the lexemes of a sequence of tokens.
* `gather_writeTokens`: a sequence of tokens read back.
-/
set_option autoImplicit false

namespace StyleOrigin.Css

/-! ## Sequences and their lexemes -/

/-- Induction over a sequence of tokens: over its tokens, and over the content of each group. -/
@[elab_as_elim]
theorem tokens_induction {motive : List Token → Prop} (nil : motive [])
    (leaf : ∀ position value rest, motive rest → motive (.leaf position value :: rest))
    (group : ∀ position opening content rest, motive content → motive rest →
      motive (.group position opening content :: rest)) : ∀ tokens, motive tokens
  | [] => nil
  | .leaf position value :: rest =>
    leaf position value rest (tokens_induction nil leaf group rest)
  | .group position opening content :: rest =>
    group position opening content rest (tokens_induction nil leaf group content)
      (tokens_induction nil leaf group rest)

mutual

def Token.flat : Token → List Lexeme
  | .leaf _ value => [.leaf value]
  | .group _ opening content => .opens opening :: (flat content ++ [.closes opening.closedBy])

def flat : List Token → List Lexeme
  | [] => []
  | token :: rest => token.flat ++ flat rest

end

theorem flat_append (first second : List Token) : flat (first ++ second) = flat first ++ flat second := by
  induction first with
  | nil => rfl
  | cons token rest ih => simp [flat, ih]

theorem mem_flat {tokens : List Token} {lexeme : Lexeme} :
    lexeme ∈ flat tokens ↔ ∃ token ∈ tokens, lexeme ∈ token.flat := by
  induction tokens with
  | nil => simp [flat]
  | cons token rest ih => simp [flat, ih]

theorem flat_subset {part tokens : List Token} (h : ∀ token ∈ part, token ∈ tokens) {lexeme : Lexeme}
    (hlexeme : lexeme ∈ flat part) : lexeme ∈ flat tokens := by
  obtain ⟨token, htoken, hmem⟩ := mem_flat.mp hlexeme
  exact mem_flat.mpr ⟨token, h token htoken, hmem⟩

theorem flat_content {position : Position} {opening : Opening} {content tokens : List Token}
    (h : .group position opening content ∈ tokens) {lexeme : Lexeme} (hlexeme : lexeme ∈ flat content) :
    lexeme ∈ flat tokens :=
  mem_flat.mpr ⟨_, h, List.mem_cons_of_mem _ (List.mem_append_left _ hlexeme)⟩

/-! ## Functions -/

theorem lastEndsUnclosed_of_legible {tokens : List Token} (h : legible tokens = true) :
    lastEndsUnclosed tokens = false := by
  induction tokens using tokens_induction with
  | nil => rfl
  | leaf position value rest ih =>
    obtain ⟨hvalue, _, _, hrest⟩ := legible_cons h
    cases rest with
    | cons next more => exact ih hrest
    | nil =>
      rw [lastEndsUnclosed]
      unfold Token.endsUnclosed
      split
      · rename_i heq
        obtain ⟨_, rfl⟩ := Token.leaf.inj heq
        exact absurd hvalue (by simp [Token.isLegible, Leaf.isLegible])
      · rename_i heq
        exact absurd heq (by simp)
      · rfl
  | group position opening content rest ihcontent ih =>
    obtain ⟨hcontent, _, _, hrest⟩ := legible_cons h
    cases rest with
    | cons next more => exact ih hrest
    | nil =>
      rw [lastEndsUnclosed]
      cases opening with
      | bracket bracket => rfl
      | function name => exact ihcontent hcontent

theorem dropWhile_whitespace_append {gap : Text} (h : ∀ c ∈ gap, isWhitespace c = true) {c : Char}
    (hc : isWhitespace c = false) (rest : Text) :
    (gap ++ c :: rest).dropWhile isWhitespace = c :: rest := by
  rw [List.dropWhile_append_of_pos h, List.dropWhile_cons_of_neg (by simp [hc])]

theorem exists_cons_of_isQuoted {token : Token} (hquoted : token.isQuoted = true)
    (hlegible : token.isLegible = true) (rest : Text) :
    ∃ tail, token.write ++ rest = '"' :: tail ∧ token.kind = .other := by
  unfold Token.isQuoted at hquoted
  split at hquoted
  · exact ⟨_, rfl, rfl⟩
  · exact absurd hlegible (by simp [Token.isLegible, Leaf.isLegible])
  · exact absurd hquoted (by decide)

theorem Token.Sound.of_leaf {position : Position} {value : Leaf}
    (h : Token.Sound (.leaf position value)) : value.Sound := by
  cases h with
  | leaf _ hvalue => exact hvalue

theorem Token.Sound.of_group {position : Position} {opening : Opening} {content : List Token}
    (h : Token.Sound (.group position opening content)) : opening.Holds content ∧ SoundAll content := by
  cases h with
  | group _ hopening hchain hcontent => exact ⟨hopening, hcontent, hchain⟩

theorem SoundAll.lineFeed_head {token : Token} {rest : List Token} (h : SoundAll (token :: rest)) :
    some token.kind = some (.literal ['\\']) → ∀ next ∈ rest.head?, next.startsWithLineFeed = true :=
  fun hkind next hnext =>
    ((List.isChain_cons.mp h.chain).1 next hnext).lineFeed (Option.some.inj hkind)

/-- What is written in front of a token that a lone backslash may not lead is read as nothing. -/
theorem Lenient.gather_separator_append {α : Type} {f : Lexeme → List α} (hf : Lenient f)
    {before : Option Kind} {token : Token}
    (hbefore : before = some (.literal ['\\']) → token.startsWithLineFeed = true) (rest : Text) :
    gather f (separator before token ++ rest) = gather f rest := by
  cases before with
  | none => rfl
  | some kind =>
    rw [separator_eq fun hkind => hbefore (congrArg some hkind)]
    split
    · have hempty : ¬ ['*', '/'] <:+: ([] : Text) := by simp
      have hcomment : gather f ("/**/" ++ rest) = f (.leaf (.comment [])) ++ gather f rest :=
        (reads_comment hempty rest).gather_leaf
      rw [hcomment, hf.comment, List.nil_append]
    · rfl

theorem head_of_startsQuoted {content : List Token} (hquoted : startsQuoted content = true)
    (hsound : SoundAll content) (hlegible : legible content = true) (rest : Text) :
    ((writeTokensFrom none content ++ rest).dropWhile isWhitespace).head? = some '"' := by
  have hmark : isWhitespace '"' = false := by decide
  cases content with
  | nil => exact absurd hquoted (by decide)
  | cons token more =>
    obtain ⟨htoken, _, _, hmore⟩ := legible_cons hlegible
    simp only [startsQuoted, Bool.or_eq_true, Bool.and_eq_true] at hquoted
    rw [writeTokensFrom, separator, List.nil_append, List.append_assoc]
    rcases hquoted with hquoted | ⟨hspace, hnext⟩
    · obtain ⟨tail, htail, _⟩ := exists_cons_of_isQuoted hquoted htoken
        (writeTokensFrom (some token.kind) more ++ rest)
      rw [htail, List.dropWhile_cons_of_neg (by simp [hmark])]
      rfl
    · obtain ⟨next, others, rfl, hnext⟩ : ∃ next others, more = next :: others ∧
          next.isQuoted = true := by
        cases more with
        | nil => exact absurd hnext (by decide)
        | cons next others => exact ⟨next, others, rfl, hnext⟩
      obtain ⟨position, gap, rfl⟩ : ∃ position gap, token = .leaf position (.whitespace gap) := by
        unfold Token.isSpace at hspace
        split at hspace
        · exact ⟨_, _, rfl⟩
        · exact absurd hspace (by decide)
      obtain ⟨tail, htail, hkind⟩ := exists_cons_of_isQuoted hnext (legible_cons hmore).1
        (writeTokensFrom (some next.kind) others ++ rest)
      have hgap := (hsound.each _ List.mem_cons_self).of_leaf.2
      have hleads := (List.isChain_cons_cons.mp hsound.chain).1
      rw [writeTokensFrom, separator_eq hleads.lineFeed, hkind, needsComment_other,
        if_neg Bool.false_ne_true, List.nil_append, ← hkind, List.append_assoc, htail]
      rw [Token.write, Leaf.write, dropWhile_whitespace_append hgap hmark]
      rfl

/-- What is written in front of the content of a group. -/
def Opening.write : Opening → Text
  | .bracket kind => [kind.opener]
  | .function name => encodeIdent name ++ ['(']

/-- What is written for a group whose content does not end in an unclosed string. -/
theorem write_group_of_closed {content : List Token} (h : lastEndsUnclosed content = false)
    (position : Position) (opening : Opening) :
    (Token.group position opening content).write =
      opening.write ++ (writeTokensFrom none content ++ [opening.closedBy.closer]) := by
  cases opening with
  | bracket bracket => rfl
  | function name =>
    rw [Token.write, h, if_neg Bool.false_ne_true, Opening.write, List.append_assoc, List.append_assoc]
    rfl

theorem write_group {position : Position} {opening : Opening} {content : List Token}
    (hlegible : legible content = true) :
    (Token.group position opening content).write =
      opening.write ++ (writeTokensFrom none content ++ [opening.closedBy.closer]) :=
  write_group_of_closed (lastEndsUnclosed_of_legible hlegible) position opening

theorem reads_opening {opening : Opening} {content : List Token} (hopening : opening.Holds content)
    (hsound : SoundAll content) (hlegible : legible content = true) (rest : Text) :
    Reads opening.write [.opens opening] (writeTokensFrom none content ++ rest) := by
  cases opening with
  | bracket bracket => exact reads_opener bracket _
  | function name =>
    obtain ⟨hne, _, hurl⟩ := hopening.named name rfl
    exact reads_function hne fun hname => head_of_startsQuoted (hurl hname) hsound hlegible rest

theorem isCloser_closer (bracket : Bracket) (rest : Text) :
    ∀ c ∈ (bracket.closer :: rest).head?, isCloser c = true := by
  intro c hc
  obtain rfl : bracket.closer = c := by simpa using hc
  cases bracket <;> decide

/-- The text of a sound and legible sequence is read back in front of a closing bracket. -/
theorem gather_writeTokens {α : Type} {f : Lexeme → List α} (hf : Lenient f) {tokens : List Token}
    {before : Option Kind} {closing : Text}
    (hsound : SoundAll tokens) (hlegible : legible tokens = true)
    (hsees : ∀ value, .leaf value ∈ flat tokens → SeesSettled f value)
    (hlast : ∀ token ∈ tokens.getLast?, token.isLiteral ['\\'] = false)
    (hfirst : before = some (.literal ['\\']) → ∀ token ∈ tokens.head?, token.startsWithLineFeed = true)
    (hclosing : ∀ c ∈ closing.head?, isCloser c = true) :
    gather f (writeTokensFrom before tokens ++ closing) = (flat tokens).flatMap f ++ gather f closing := by
  induction tokens using tokens_induction generalizing before closing with
  | nil => rfl
  | leaf position value rest ih =>
    obtain ⟨hvalue, _, _, hrest⟩ := legible_cons hlegible
    have hread := hf.gather_write_append (hsound.each _ List.mem_cons_self).of_leaf hvalue
      (hsees value (by simp [flat, Token.flat])) (Leaf.endsBefore hsound hlegible hlast hclosing)
    have hnext := ih hsound.tail hrest (fun value hvalue => hsees value (by simp [flat, hvalue]))
      (fun token htoken => hlast token (mem_getLast?_cons htoken)) (hsound.lineFeed_head) hclosing
    rw [writeTokensFrom, Token.write, List.append_assoc, List.append_assoc,
      hf.gather_separator_append fun h => hfirst h _ rfl, hread, hnext, flat, Token.flat,
      List.flatMap_append, List.flatMap_singleton, List.append_assoc]
  | group position opening content rest ihcontent ih =>
    obtain ⟨hcontent, _, _, hrest⟩ := legible_cons hlegible
    obtain ⟨hopening, hinside⟩ := (hsound.each _ List.mem_cons_self).of_group
    have hnext := ih hsound.tail hrest (fun value hvalue => hsees value (by simp [flat, hvalue]))
      (fun token htoken => hlast token (mem_getLast?_cons htoken)) (hsound.lineFeed_head) hclosing
    have hcloser := reads_closer opening.closedBy (writeTokensFrom
      (some (Token.group position opening content).kind) rest ++ closing)
    have hbody := @ihcontent none _ hinside hcontent
      (fun value hvalue => hsees value (by simp [flat, Token.flat, hvalue])) hopening.ends (by simp)
      (isCloser_closer opening.closedBy (writeTokensFrom
        (some (Token.group position opening content).kind) rest ++ closing))
    have hopener := reads_opening hopening hinside hcontent
      (opening.closedBy.closer :: (writeTokensFrom
        (some (Token.group position opening content).kind) rest ++ closing))
    rw [writeTokensFrom, List.append_assoc, List.append_assoc,
      hf.gather_separator_append fun h => hfirst h _ rfl, write_group hcontent]
    simp only [List.append_assoc, List.singleton_append]
    rw [hopener.gather_append, hbody]
    have hend := hcloser.gather_append (f := f)
    rw [List.singleton_append] at hend
    rw [hend, hnext, flat, Token.flat]
    simp

end StyleOrigin.Css
