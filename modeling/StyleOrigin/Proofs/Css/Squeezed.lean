import StyleOrigin.Proofs.Css.Essence

/-! # Squeezed tokens

Where one space stands for each run of white space between tokens, the tokens have the same essence, and
they are legible if they were.

* `squeezed`: tokens with one space for each run of white space.
* `spaced_induction`: induction over tokens that tells white space from other leaves.
* `essence_squeezed`, `mem_flat_squeezed`: what the space does not change.
* `startsWithin_squeezed`, `legible_squeezed`: squeezed tokens are legible.
-/
set_option autoImplicit false

namespace StyleOrigin.Css

/-! ## One space for a run -/

/-- One space. -/
def singleSpace : Token :=
  .leaf .start (.whitespace [' '])

/-- Tokens with a space in front, unless white space stands there already. In front of the last end there is
none. -/
def spaced (last : Bool) : List Token → List Token
  | [] => if last then [] else [singleSpace]
  | token :: rest => if token.isSpace then token :: rest else singleSpace :: token :: rest

mutual

/-- A token with one space for each run of white space in it. -/
def Token.squeezed : Token → Token
  | .leaf position value => .leaf position value
  | .group position opening content => .group position opening (squeezed false content)

/-- A sequence of tokens with one space for each run of white space, and with none at the end if it is the
last end. -/
def squeezed (last : Bool) : List Token → List Token
  | [] => []
  | token :: rest =>
    if token.isSpace then spaced last (squeezed last rest) else token.squeezed :: squeezed last rest

end

theorem squeezed_space (last : Bool) (position : Position) (gap : Text) (rest : List Token) :
    squeezed last (.leaf position (.whitespace gap) :: rest) = spaced last (squeezed last rest) := by
  rw [squeezed, if_pos (by rfl)]

theorem squeezed_leaf (last : Bool) {position : Position} {value : Leaf}
    (h : (Token.leaf position value).isSpace = false) (rest : List Token) :
    squeezed last (.leaf position value :: rest) = .leaf position value :: squeezed last rest := by
  rw [squeezed, if_neg (by simp [h]), Token.squeezed]

theorem squeezed_group (last : Bool) (position : Position) (opening : Opening)
    (content rest : List Token) :
    squeezed last (.group position opening content :: rest) =
      .group position opening (squeezed false content) :: squeezed last rest := by
  rw [squeezed, if_neg (by simp [Token.isSpace]), Token.squeezed]

theorem isSpace_iff {token : Token} :
    token.isSpace = true ↔ ∃ position gap, token = .leaf position (.whitespace gap) := by
  unfold Token.isSpace
  split
  · simp
  · rename_i hne
    simpa using fun position gap heq => hne position gap heq

/-- Induction over a sequence of tokens that tells white space from other leaves. -/
@[elab_as_elim]
theorem spaced_induction {motive : List Token → Prop} (nil : motive [])
    (space : ∀ position gap rest, motive rest → motive (.leaf position (.whitespace gap) :: rest))
    (leaf : ∀ position value rest, (Token.leaf position value).isSpace = false → motive rest →
      motive (.leaf position value :: rest))
    (group : ∀ position opening content rest, motive content → motive rest →
      motive (.group position opening content :: rest)) (tokens : List Token) : motive tokens := by
  induction tokens using tokens_induction with
  | nil => exact nil
  | group position opening content rest ihcontent ih => exact group position opening content rest ihcontent ih
  | leaf position value rest ih =>
    cases hspace : (Token.leaf position value).isSpace with
    | false => exact leaf position value rest hspace ih
    | true =>
      obtain ⟨_, gap, heq⟩ := isSpace_iff.mp hspace
      obtain ⟨rfl, rfl⟩ := Token.leaf.inj heq
      exact space position gap rest ih

/-- The tokens with a space in front: one more, or the same. -/
theorem spaced_cases (last : Bool) (tokens : List Token) :
    spaced last tokens = singleSpace :: tokens ∧ (tokens = [] → last = false) ∧
        (∀ token ∈ tokens.head?, token.isSpace = false) ∨
      spaced last tokens = tokens ∧ (tokens = [] → last = true) ∧
        ∀ token ∈ tokens.head?, token.isSpace = true := by
  cases tokens with
  | nil => cases last <;> simp [spaced]
  | cons token rest =>
    cases htoken : token.isSpace with
    | true => exact .inr ⟨by simp [spaced, htoken], by simp, by simpa using htoken⟩
    | false => exact .inl ⟨by simp [spaced, htoken], by simp, by simpa using htoken⟩

theorem mem_spaced {last : Bool} {tokens : List Token} {token : Token} (h : token ∈ spaced last tokens) :
    token ∈ tokens ∨ token = singleSpace := by
  obtain ⟨heq, -⟩ | ⟨heq, -⟩ := spaced_cases last tokens
  · rw [heq] at h
    exact (List.mem_cons.mp h).symm
  · exact .inl (heq ▸ h)

/-! ## What the space does not change -/

theorem essence_spaced (last : Bool) (tokens : List Token) :
    essence (spaced last tokens) = essence tokens := by
  obtain ⟨heq, -⟩ | ⟨heq, -⟩ := spaced_cases last tokens
  · rw [heq]
    rfl
  · rw [heq]

theorem essence_squeezed (last : Bool) (tokens : List Token) :
    essence (squeezed last tokens) = essence tokens := by
  induction tokens using spaced_induction generalizing last with
  | nil => rfl
  | space position gap rest ih =>
    rw [squeezed_space, essence_spaced, ih]
    rfl
  | leaf position value rest hspace ih => rw [squeezed_leaf last hspace, essence, essence, ih]
  | group position opening content rest ihcontent ih =>
    rw [squeezed_group, essence, essence, ih, Token.essence, Token.essence, ihcontent]

/-- The lexemes of squeezed tokens are lexemes of the tokens, or single spaces. -/
theorem mem_flat_squeezed {last : Bool} {tokens : List Token} {lexeme : Lexeme}
    (h : lexeme ∈ flat (squeezed last tokens)) :
    lexeme ∈ flat tokens ∨ lexeme = .leaf (.whitespace [' ']) := by
  induction tokens using spaced_induction generalizing last with
  | nil => exact .inl h
  | space position gap rest ih =>
    rw [squeezed_space] at h
    have hrest (hmem : lexeme ∈ flat (squeezed last rest)) := (ih hmem).imp_left fun hin =>
      show lexeme ∈ flat (.leaf position (.whitespace gap) :: rest) by simp [flat, hin]
    obtain ⟨heq, -⟩ | ⟨heq, -⟩ := spaced_cases last (squeezed last rest)
    · rw [heq, flat] at h
      obtain h | h := List.mem_append.mp h
      · exact .inr (List.mem_singleton.mp h)
      · exact hrest h
    · exact hrest (heq ▸ h)
  | leaf position value rest hspace ih =>
    rw [squeezed_leaf last hspace, flat] at h
    rw [flat]
    obtain h | h := List.mem_append.mp h
    · exact .inl (List.mem_append_left _ h)
    · exact (ih h).imp_left (List.mem_append_right _)
  | group position opening content rest ihcontent ih =>
    rw [squeezed_group, flat, Token.flat, List.cons_append] at h
    rw [flat, Token.flat, List.cons_append]
    obtain rfl | h := List.mem_cons.mp h
    · exact .inl List.mem_cons_self
    obtain h | h := List.mem_append.mp h
    · obtain h | h := List.mem_append.mp h
      · exact (ihcontent h).imp_left fun hin => by simp [hin]
      · exact .inl (by simp [List.mem_singleton.mp h])
    · exact (ih h).imp_left fun hin => by simp [hin]

theorem isSpace_squeezed (token : Token) : token.squeezed.isSpace = token.isSpace := by
  cases token <;> rfl

/-- The first squeezed token is one space if the first token is white space, and stands for the first token
if it is not. -/
theorem head_squeezed {last : Bool} {tokens : List Token} {token : Token}
    (h : token ∈ (squeezed last tokens).head?) :
    token = singleSpace ∧ (∀ first ∈ tokens.head?, first.isSpace = true) ∨
      ∃ first rest, tokens = first :: rest ∧ first.isSpace = false ∧ token = first.squeezed := by
  induction tokens using spaced_induction with
  | nil => exact absurd h (by simp [squeezed])
  | space position gap rest ih =>
    rw [squeezed_space] at h
    refine .inl ⟨?_, by simp [Token.isSpace]⟩
    obtain ⟨heq, -⟩ | ⟨heq, -, hspace⟩ := spaced_cases last (squeezed last rest)
    · rw [heq] at h
      simpa using h.symm
    · rw [heq] at h
      obtain ⟨hsingle, -⟩ | ⟨first, _, -, hfirst, rfl⟩ := ih h
      · exact hsingle
      · have := hspace _ h
        simp [isSpace_squeezed, hfirst] at this
  | leaf position value rest hspace _ =>
    rw [squeezed_leaf last hspace] at h
    exact .inr ⟨_, rest, rfl, hspace, by simpa [Token.squeezed] using h.symm⟩
  | group position opening content rest _ _ =>
    rw [squeezed_group] at h
    exact .inr ⟨_, rest, rfl, rfl, by simpa [Token.squeezed] using h.symm⟩

/-! ## Squeezed tokens are legible -/

theorem lastEndsUnclosed_cons {token : Token} {rest : List Token} (htoken : token.endsUnclosed = false)
    (hrest : lastEndsUnclosed rest = false) : lastEndsUnclosed (token :: rest) = false := by
  cases rest with
  | nil => simpa [lastEndsUnclosed] using htoken
  | cons next more => simpa [lastEndsUnclosed] using hrest

theorem Leaf.endsUnclosed_of_legible {value : Leaf} (h : value.isLegible = true) (position : Position) :
    (Token.leaf position value).endsUnclosed = false := by
  unfold Token.endsUnclosed
  split
  · rename_i heq
    obtain ⟨_, rfl⟩ := Token.leaf.inj heq
    exact absurd h (by decide)
  · rename_i heq
    exact absurd heq (by simp)
  · rfl

theorem lastEndsUnclosed_squeezed {tokens : List Token} (h : legible tokens = true) (last : Bool) :
    lastEndsUnclosed (squeezed last tokens) = false := by
  induction tokens using spaced_induction generalizing last with
  | nil => rfl
  | space position gap rest ih =>
    have hrest := ih (legible_cons h).2.2.2 last
    rw [squeezed_space]
    obtain ⟨heq, -⟩ | ⟨heq, -⟩ := spaced_cases last (squeezed last rest)
    · rw [heq]
      exact lastEndsUnclosed_cons rfl hrest
    · rwa [heq]
  | leaf position value rest hspace ih =>
    rw [squeezed_leaf last hspace]
    exact lastEndsUnclosed_cons (Leaf.endsUnclosed_of_legible (legible_cons h).1 position)
      (ih (legible_cons h).2.2.2 last)
  | group position opening content rest ihcontent ih =>
    rw [squeezed_group]
    refine lastEndsUnclosed_cons ?_ (ih (legible_cons h).2.2.2 last)
    cases opening with
    | bracket bracket => rfl
    | function name => exact ihcontent (legible_cons h).1 false

theorem kind_squeezed (token : Token) : token.squeezed.kind = token.kind := by
  cases token with
  | leaf position value => rfl
  | group position opening content =>
    cases opening with
    | bracket bracket => cases bracket <;> rfl
    | function name => rfl

theorem separator_squeezed (before : Option Kind) (token : Token) :
    separator before token.squeezed = separator before token := by
  cases token with
  | leaf position value => rfl
  | group position opening content =>
    have hkind := kind_squeezed (.group position opening content)
    unfold separator
    rw [hkind]
    rfl

theorem writeTokensFrom_squeezed_group {content : List Token} (h : legible content = true) (last : Bool)
    (before : Option Kind) (position : Position) (opening : Opening) (rest : List Token) :
    writeTokensFrom before (squeezed last (.group position opening content :: rest)) =
      separator before (.group position opening content) ++ (opening.write ++
        (writeTokensFrom none (squeezed false content) ++ (opening.closedBy.closer ::
          writeTokensFrom (some (Token.group position opening content).kind) (squeezed last rest)))) := by
  have hseparator := separator_squeezed before (.group position opening content)
  have hkind := kind_squeezed (.group position opening content)
  rw [Token.squeezed] at hseparator hkind
  rw [squeezed_group, writeTokensFrom, hseparator, hkind,
    write_group_of_closed (lastEndsUnclosed_squeezed h false)]
  simp only [List.append_assoc, List.singleton_append]

theorem head_writeTokensFrom_singleSpace (before : Option Kind) (rest : List Token) (closing : Text) :
    ∀ c ∈ (writeTokensFrom before (singleSpace :: rest) ++ closing).head?, c = '\n' ∨ c = ' ' := by
  intro c hc
  rw [writeTokensFrom] at hc
  obtain hnone | ⟨-, hfeed⟩ := separator_cases (show singleSpace.kind = .other from rfl) before
  · rw [hnone] at hc
    exact .inr (by simpa [singleSpace, Token.write, Leaf.write] using hc.symm)
  · rw [hfeed] at hc
    exact .inl (by simpa using hc.symm)

/-- Behind white space, squeezed tokens begin with one space, unless they are at their end. -/
theorem squeezed_space_cases (last : Bool) (position : Position) (gap : Text) (rest : List Token) :
    (squeezed last (.leaf position (.whitespace gap) :: rest) = [] ∧ squeezed last rest = [] ∧
        last = true) ∨
      ∃ others, squeezed last (.leaf position (.whitespace gap) :: rest) = singleSpace :: others ∧
        (squeezed last rest = singleSpace :: others ∨
          squeezed last rest = others ∧ (others = [] → last = false) ∧
            ∀ token ∈ others.head?, token.isSpace = false) := by
  rw [squeezed_space]
  obtain ⟨heq, hhead⟩ | ⟨heq, hnil, hspace⟩ := spaced_cases last (squeezed last rest)
  · exact .inr ⟨_, heq, .inr ⟨rfl, hhead⟩⟩
  · cases hrest : squeezed last rest with
    | nil => exact .inl ⟨by rw [← hrest, heq, hrest], rfl, hnil hrest⟩
    | cons first others =>
      have hfirst : first ∈ (squeezed last rest).head? := by simp [hrest]
      obtain ⟨rfl, -⟩ | ⟨_, _, -, hnot, rfl⟩ := head_squeezed hfirst
      · exact .inr ⟨others, by rw [← hrest, heq, hrest], .inl rfl⟩
      · have := hspace _ hfirst
        simp [isSpace_squeezed, hnot] at this

/-- What squeezed tokens begin with, as far as a leaf looks that may run on into them, the tokens begin with
too. -/
theorem startsWithin_squeezed {tokens : List Token} (hsound : SoundAll tokens)
    (hlegible : legible tokens = true) (last : Bool) (before : Option Kind) {closing other : Text}
    (hlast : last = true → closing = []) (hclosing : StartsWithin closing other) :
    StartsWithin (writeTokensFrom before (squeezed last tokens) ++ closing)
      (writeTokensFrom before tokens ++ other) := by
  induction tokens using spaced_induction generalizing last before closing other with
  | nil => exact hclosing
  | space position gap rest ih =>
    refine startsWithin_of_head (fun c hc => ?_) _
    obtain ⟨hnil, -, hend⟩ | ⟨others, hcons, -⟩ := squeezed_space_cases last position gap rest
    · rw [hnil, hlast hend] at hc
      exact absurd hc (by simp [writeTokensFrom])
    · rw [hcons] at hc
      obtain rfl | rfl := head_writeTokensFrom_singleSpace before others closing c hc
      · decide
      · decide
  | leaf position value rest hspace ih =>
    have hrest := ih hsound.tail (legible_cons hlegible).2.2.2 last
      (some (Token.leaf position value).kind) hlast hclosing
    rw [squeezed_leaf last hspace, writeTokensFrom, writeTokensFrom]
    simp only [List.append_assoc]
    exact (hrest.append_left _).append_left _
  | group position opening content rest ihcontent ih =>
    have hinside := (hsound.each _ List.mem_cons_self).of_group.2
    have hcontent : legible content = true := (legible_cons hlegible).1
    have hrest := ih hsound.tail (legible_cons hlegible).2.2.2 last
      (some (Token.group position opening content).kind) hlast hclosing
    have hbody := ihcontent hinside hcontent false none (by simp)
      (hrest.append_left [opening.closedBy.closer])
    rw [writeTokensFrom_squeezed_group hcontent, writeTokensFrom, write_group hcontent]
    simp only [List.append_assoc, List.cons_append] at hbody ⊢
    exact (hbody.append_left opening.write).append_left _

theorem look_squeezed (token : Token) : token.squeezed.look = token.look := by
  cases token with
  | leaf position value => rfl
  | group position opening content => exact kind_squeezed (.group position opening content)

theorem standsApart_squeezed {token : Token} {rest : List Token}
    (h : token.standsApart rest = true) (last : Bool) : token.standsApart (squeezed last rest) = true := by
  cases hrest : squeezed last rest with
  | nil => rfl
  | cons next others =>
    rw [Token.standsApart]
    obtain ⟨rfl, -⟩ | ⟨first, more, rfl, -, rfl⟩ := head_squeezed (by rw [hrest]; rfl : next ∈ _)
    · rw [show singleSpace.look = .other from rfl, needsComment_other]
      exact Bool.or_true _
    · rwa [kind_squeezed, look_squeezed]

theorem legible_singleSpace_cons {rest : List Token} (h : legible rest = true) :
    legible (singleSpace :: rest) = true := by
  have happart : singleSpace.standsApart rest = true := by
    cases rest with
    | nil => rfl
    | cons next more =>
      rw [Token.standsApart, show singleSpace.kind = .other from rfl, not_needsComment_other,
        not_needsComment_other]
      rfl
  rw [legible, happart, h]
  rfl

/-- Squeezed tokens are legible. -/
theorem legible_squeezed {tokens : List Token} (hsound : SoundAll tokens)
    (hlegible : legible tokens = true) (last : Bool) : legible (squeezed last tokens) = true := by
  induction tokens using spaced_induction generalizing last with
  | nil => rfl
  | space position gap rest ih =>
    have hrest := ih hsound.tail (legible_cons hlegible).2.2.2 last
    obtain ⟨hnil, -⟩ | ⟨others, hcons, hsame | ⟨hsame, -⟩⟩ := squeezed_space_cases last position gap rest
    · rw [hnil]
      rfl
    · rwa [hcons, ← hsame]
    · rw [hcons]
      exact legible_singleSpace_cons (hsame ▸ hrest)
  | leaf position value rest hspace ih =>
    have hrest := ih hsound.tail (legible_cons hlegible).2.2.2 last
    obtain ⟨hvalue, hruns, hapart, hmore⟩ := legible_cons hlegible
    have hwithin := startsWithin_squeezed hsound.tail hmore last
      (some (Token.leaf position value).kind) (fun _ => rfl) fun _ _ h => h
    rw [List.append_nil, List.append_nil] at hwithin
    have hruns : (Token.leaf position value).runsOn _ = false := Leaf.runsOn_of_startsWithin hwithin hruns
    rw [squeezed_leaf last hspace, legible, hvalue, hruns, standsApart_squeezed hapart last, hrest]
    rfl
  | group position opening content rest ihcontent ih =>
    have hrest := ih hsound.tail (legible_cons hlegible).2.2.2 last
    have hinside := ihcontent (hsound.each _ List.mem_cons_self).of_group.2 (legible_cons hlegible).1 false
    have hapart := standsApart_squeezed (legible_cons hlegible).2.2.1 last
    have hkind := kind_squeezed (.group position opening content)
    rw [Token.squeezed] at hkind
    have happart : (Token.group position opening (squeezed false content)).standsApart
        (squeezed last rest) = true := by
      cases hnext : squeezed last rest with
      | nil => rfl
      | cons next others =>
        rw [hnext] at hapart
        rwa [Token.standsApart, hkind]
    rw [squeezed_group, legible, Token.isLegible, hinside, happart, hrest]
    rfl

end StyleOrigin.Css
