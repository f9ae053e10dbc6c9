import StyleOrigin.Proofs.Css.Squeezed
import StyleOrigin.Proofs.Css.Unseen
import StyleOrigin.Proofs.Text.Squeezing

/-! # Tidy tokens

Squeezing the text of tokens changes nothing but the white space between them, if it leaves the text of
each other token as it is. Then the squeezed text is the text of the squeezed tokens, and reading it
brings the essence of the tokens back.

* `Leaf.isTidy`, `tidy`: the tokens that stay as they are when their text is squeezed.
* `soundAll_squeezed`, `wellRead_squeezed`: squeezed tokens are such as a source has.
* `squeeze_writeTokens`: the squeezed text of tidy tokens.
* `exists_tokens_squeeze`: reading it.
-/
set_option autoImplicit false

namespace StyleOrigin.Css

open Text (isBlank squeeze squeezeBehind withSpace isFirm)

/-! ## Tidy tokens -/

/-- Whether a leaf comes back as it is from a squeezed text in which a given character stands behind it. Of
a lone backslash the line end is lost, and of a letter E that is a unit the size. -/
def Leaf.isTidy (next : Option Char) : Leaf → Bool
  | .whitespace _ => true
  | .literal ['\\'] => false
  | .dimension numeral unit =>
    settledUnit unit == unit && isFirm next (Leaf.write (.dimension numeral unit))
  | value => isFirm next value.write

mutual

/-- Whether a token comes back as it is from a squeezed text, up to white space. -/
def Token.isTidy (next : Option Char) : Token → Bool
  | .leaf _ value => value.isTidy next
  | .group _ opening content =>
    squeeze opening.write == opening.write && tidy (some opening.closedBy.closer) content

/-- Whether tokens come back as they are from a squeezed text, up to white space. -/
def tidy (next : Option Char) : List Token → Bool
  | [] => true
  | token :: rest =>
    token.isTidy ((writeTokensFrom (some token.kind) rest).head?.or next) && tidy next rest

end

theorem tidy_cons {next : Option Char} {token : Token} {rest : List Token}
    (h : tidy next (token :: rest) = true) :
    token.isTidy ((writeTokensFrom (some token.kind) rest).head?.or next) = true ∧
      tidy next rest = true := by
  simpa [tidy] using h

theorem tidy_group {next : Option Char} {position : Position} {opening : Opening} {content : List Token}
    (h : (Token.group position opening content).isTidy next = true) :
    squeeze opening.write = opening.write ∧ tidy (some opening.closedBy.closer) content = true := by
  simpa [Token.isTidy] using h

theorem Leaf.isFirm_of_isTidy {value : Leaf} {next : Option Char} (h : value.isTidy next = true)
    (position : Position) (hspace : (Token.leaf position value).isSpace = false) :
    isFirm next value.write = true := by
  unfold Leaf.isTidy at h
  split at h
  · exact absurd hspace (by simp [Token.isSpace])
  · exact absurd h (by simp)
  · exact (Bool.and_eq_true_iff.mp h).2
  · exact h

theorem Token.not_backslash_of_isTidy {token : Token} {next : Option Char}
    (h : token.isTidy next = true) : token.isLiteral ['\\'] = false := by
  refine Bool.eq_false_iff.mpr fun hliteral => ?_
  unfold Token.isLiteral at hliteral
  split at hliteral
  · rw [beq_iff_eq] at hliteral
    subst hliteral
    exact absurd h (by simp [Token.isTidy, Leaf.isTidy])
  · exact absurd hliteral (by simp)

theorem settledUnits_of_tidy {tokens : List Token} {next : Option Char} (h : tidy next tokens = true) :
    SettledUnits tokens := by
  induction tokens using tokens_induction generalizing next with
  | nil => intro _ _ hmem; exact absurd hmem (by simp [flat])
  | leaf position value rest ih =>
    obtain ⟨hvalue, hrest⟩ := tidy_cons h
    intro numeral unit hmem
    rw [flat, Token.flat] at hmem
    obtain hmem | hmem := List.mem_append.mp hmem
    · obtain rfl := Lexeme.leaf.inj (List.mem_singleton.mp hmem)
      have := (Bool.and_eq_true_iff.mp hvalue).1
      exact beq_iff_eq.mp this
    · exact ih hrest numeral unit hmem
  | group position opening content rest ihcontent ih =>
    obtain ⟨hgroup, hrest⟩ := tidy_cons h
    intro numeral unit hmem
    rw [flat, Token.flat] at hmem
    obtain hmem | hmem := List.mem_append.mp hmem
    · exact ihcontent (tidy_group hgroup).2 numeral unit (by simpa using hmem)
    · exact ih hrest numeral unit hmem

/-! ## Squeezed tokens are sound -/

theorem SoundAll.cons_of_not_backslash {token : Token} {rest : List Token} (h : SoundAll rest)
    (htoken : token.Sound) (hliteral : token.isLiteral ['\\'] = false) : SoundAll (token :: rest) where
  each := List.forall_mem_cons.mpr ⟨htoken, h.each⟩
  chain := List.isChain_cons.mpr ⟨fun _ _ hbackslash => absurd hbackslash (by simp [hliteral]), h.chain⟩

theorem sound_singleSpace : singleSpace.Sound :=
  .leaf .start ⟨by simp, by decide⟩

theorem mem_squeezed {last : Bool} {tokens : List Token} {token : Token}
    (h : token ∈ squeezed last tokens) :
    token = singleSpace ∨ ∃ first ∈ tokens, token = first.squeezed := by
  induction tokens using spaced_induction with
  | nil => exact absurd h (by simp [squeezed])
  | space position gap rest ih =>
    rw [squeezed_space] at h
    obtain h | h := mem_spaced h
    · exact (ih h).imp_right List.exists_mem_cons_of_exists
    · exact .inl h
  | leaf position value rest hspace ih =>
    rw [squeezed_leaf last hspace] at h
    obtain rfl | h := List.mem_cons.mp h
    · exact .inr ⟨_, List.mem_cons_self, rfl⟩
    · exact (ih h).imp_right List.exists_mem_cons_of_exists
  | group position opening content rest _ ih =>
    rw [squeezed_group] at h
    obtain rfl | h := List.mem_cons.mp h
    · exact .inr ⟨_, List.mem_cons_self, by rw [Token.squeezed]⟩
    · exact (ih h).imp_right List.exists_mem_cons_of_exists

theorem isLiteral_squeezed (token : Token) (text : Text) :
    token.squeezed.isLiteral text = token.isLiteral text := by
  cases token <;> rfl

theorem isUnmatched_squeezed (token : Token) (bracket : Bracket) :
    token.squeezed.isUnmatched bracket = token.isUnmatched bracket := by
  cases token <;> rfl

theorem isQuoted_squeezed (token : Token) : token.squeezed.isQuoted = token.isQuoted := by
  cases token <;> rfl

theorem not_isSpace_of_isQuoted {token : Token} (h : token.isQuoted = true) : token.isSpace = false := by
  unfold Token.isQuoted at h
  split at h
  · rfl
  · rfl
  · exact absurd h (by simp)

theorem squeezed_cons_of_not_isSpace {last : Bool} {token : Token} (h : token.isSpace = false)
    (rest : List Token) : squeezed last (token :: rest) = token.squeezed :: squeezed last rest := by
  rw [squeezed, if_neg (by simp [h])]

theorem startsQuoted_squeezed {tokens : List Token} (h : startsQuoted tokens = true) :
    startsQuoted (squeezed false tokens) = true := by
  cases tokens with
  | nil => exact absurd h (by decide)
  | cons token rest =>
    simp only [startsQuoted, Bool.or_eq_true, Bool.and_eq_true] at h
    obtain hquoted | ⟨hspace, hnext⟩ := h
    · rw [squeezed_cons_of_not_isSpace (not_isSpace_of_isQuoted hquoted), startsQuoted,
        isQuoted_squeezed, hquoted]
      rfl
    · cases rest with
      | nil => exact absurd hnext (by decide)
      | cons next others =>
        have hquoted : next.isQuoted = true := by simpa using hnext
        have hnot := not_isSpace_of_isQuoted hquoted
        have hcons : squeezed false (token :: next :: others) =
            singleSpace :: next.squeezed :: squeezed false others := by
          rw [squeezed, if_pos hspace, squeezed_cons_of_not_isSpace hnot, spaced, isSpace_squeezed,
            if_neg (by simp [hnot])]
        rw [hcons]
        simp [startsQuoted, isQuoted_squeezed, hquoted, singleSpace, Token.isSpace]

/-- A property that squeezing keeps and that a space has holds of all squeezed tokens. -/
theorem forall_mem_squeezed {holds : Token → Prop} {tokens : List Token}
    (h : ∀ token ∈ tokens, holds token) (hspace : holds singleSpace)
    (hkeeps : ∀ token, holds token → holds token.squeezed) (last : Bool) :
    ∀ token ∈ squeezed last tokens, holds token := by
  intro token htoken
  obtain rfl | ⟨first, hfirst, rfl⟩ := mem_squeezed htoken
  · exact hspace
  · exact hkeeps first (h first hfirst)

theorem not_backslash_of_tidy {tokens : List Token} {next : Option Char} (h : tidy next tokens = true) :
    ∀ token ∈ tokens, token.isLiteral ['\\'] = false := by
  induction tokens with
  | nil => simp
  | cons token rest ih =>
    obtain ⟨htoken, hrest⟩ := tidy_cons h
    exact List.forall_mem_cons.mpr ⟨Token.not_backslash_of_isTidy htoken, ih hrest⟩

theorem not_backslash_squeezed {tokens : List Token} {next : Option Char} (h : tidy next tokens = true)
    (last : Bool) : ∀ token ∈ squeezed last tokens, token.isLiteral ['\\'] = false :=
  forall_mem_squeezed (not_backslash_of_tidy h) rfl (fun token hnot => by rwa [isLiteral_squeezed]) last

theorem Opening.Holds.squeezed {opening : Opening} {content : List Token} (h : opening.Holds content)
    {next : Option Char} (htidy : tidy next content = true) :
    opening.Holds (squeezed false content) where
  named name hname :=
    have ⟨hne, hnul, hurl⟩ := h.named name hname
    ⟨hne, hnul, fun heq => startsQuoted_squeezed (hurl heq)⟩
  closed := forall_mem_squeezed h.closed rfl (fun token hnot => by rwa [isUnmatched_squeezed]) false
  ends token htoken := not_backslash_squeezed htidy false token (List.mem_of_getLast? htoken)

theorem soundAll_squeezed {tokens : List Token} (hsound : SoundAll tokens) {next : Option Char}
    (htidy : tidy next tokens = true) (last : Bool) : SoundAll (squeezed last tokens) := by
  induction tokens using spaced_induction generalizing last next with
  | nil => exact hsound
  | space position gap rest ih =>
    have hrest := ih hsound.tail (tidy_cons htidy).2 last
    rw [squeezed_space]
    obtain ⟨heq, -⟩ | ⟨heq, -⟩ := spaced_cases last (squeezed last rest)
    · rw [heq]
      exact hrest.cons_of_not_backslash sound_singleSpace rfl
    · rwa [heq]
  | leaf position value rest hspace ih =>
    obtain ⟨hvalue, hrest⟩ := tidy_cons htidy
    rw [squeezed_leaf last hspace]
    exact (ih hsound.tail hrest last).cons_of_not_backslash (hsound.each _ List.mem_cons_self)
      (Token.not_backslash_of_isTidy hvalue)
  | group position opening content rest ihcontent ih =>
    obtain ⟨hgroup, hrest⟩ := tidy_cons htidy
    obtain ⟨hopening, hinside⟩ := (hsound.each _ List.mem_cons_self).of_group
    have hcontent := (tidy_group hgroup).2
    have hsqueezed := ihcontent hinside hcontent false
    rw [squeezed_group]
    exact (ih hsound.tail hrest last).cons_of_not_backslash
      (.group position (hopening.squeezed hcontent) hsqueezed.chain hsqueezed.each) rfl

theorem wellRead_squeezed {tokens : List Token} (hread : WellRead tokens) {next : Option Char}
    (htidy : tidy next tokens = true) (last : Bool) : WellRead (squeezed last tokens) where
  sound := soundAll_squeezed hread.sound htidy last
  ends token htoken := not_backslash_squeezed htidy last token (List.mem_of_getLast? htoken)
  short lexeme hlexeme := by
    obtain hlexeme | rfl := mem_flat_squeezed hlexeme
    · exact hread.short lexeme hlexeme
    · rfl

/-! ## The squeezed text -/

theorem Leaf.write_ne_nil {value : Leaf} (hsound : value.Sound) (hlegible : value.isLegible = true) :
    value.write ≠ [] := by
  cases value with
  | whitespace text => exact hsound.1
  | literal text =>
    obtain hlong | ⟨c, -, -, rfl⟩ := hsound
    · rintro rfl
      exact absurd hlong (by decide)
    · simp [Leaf.write]
  | ident name => exact encodeIdent_ne_nil hsound.1
  | number numeral => exact hsound.ne_nil
  | percentage numeral => simp [Leaf.write]
  | dimension numeral unit => simp [Leaf.write, hsound.1.ne_nil]
  | flaw fault =>
    cases fault with
    | badUrl => decide
    | unmatched bracket => exact List.cons_ne_nil _ _
    | _ => exact absurd hlegible (by decide)
  | unicodeRange first last =>
    rw [Leaf.write, writeUnicodeRange_eq]
    simp
  | _ => simp [Leaf.write]

theorem Opening.write_ne_nil (opening : Opening) : opening.write ≠ [] := by
  cases opening <;> simp [Opening.write]

/-- What is written for a tidy token other than white space begins with no blank, squeezed or not. -/
theorem Token.head_write_of_tidy {token : Token} {next : Option Char} (hsound : token.Sound)
    (hlegible : token.isLegible = true) (htidy : token.isTidy next = true)
    (hspace : token.isSpace = false) :
    ∃ c, isBlank c = false ∧ token.write.head? = some c ∧ token.squeezed.write.head? = some c := by
  have hhead {front : Text} (hne : front ≠ []) (h : ∀ c ∈ front.head?, isBlank c = false) :
      ∃ c, isBlank c = false ∧ ∀ back, (front ++ back).head? = some c := by
    obtain ⟨c, cs, rfl⟩ := List.exists_cons_of_ne_nil hne
    exact ⟨c, h c rfl, fun _ => rfl⟩
  cases token with
  | leaf position value =>
    have hfirm : isFirm next value.write = true := Leaf.isFirm_of_isTidy htidy position hspace
    obtain ⟨c, hc, h⟩ := hhead (Leaf.write_ne_nil hsound.of_leaf hlegible) (Text.head_of_isFirm hfirm)
    have hwrite := h []
    rw [List.append_nil] at hwrite
    exact ⟨c, hc, hwrite, hwrite⟩
  | group position opening content =>
    obtain ⟨c, hc, h⟩ := hhead opening.write_ne_nil (Text.head_of_squeeze_eq (tidy_group htidy).1)
    refine ⟨c, hc, ?_, ?_⟩
    · rw [write_group hlegible]
      exact h _
    · rw [Token.squeezed, write_group_of_closed (lastEndsUnclosed_squeezed hlegible false)]
      exact h _

theorem isBlank_closer (bracket : Bracket) : isBlank bracket.closer = false := by
  cases bracket <;> decide

/-- What is written in front of a token that no lone backslash leads stays when it is squeezed. -/
theorem squeezeBehind_separator_append {before : Option Kind} (hbefore : before ≠ some (.literal ['\\']))
    (token : Token) (rest : Text) :
    squeezeBehind (separator before token ++ rest) = separator before token ++ squeezeBehind rest := by
  cases before with
  | none => rfl
  | some kind =>
    rw [separator_eq fun hkind => absurd (congrArg some hkind) hbefore]
    split
    · exact Text.squeezeBehind_append (by decide) rest
    · rfl

theorem kind_ne_backslash {token : Token} (h : token.isLiteral ['\\'] = false) :
    some token.kind ≠ some (.literal ['\\']) :=
  fun heq => absurd (kind_eq_literal_iff.mp (Option.some.inj heq)) (by simp [h])

theorem writeTokensFrom_singleSpace {before : Option Kind} (h : before ≠ some (.literal ['\\']))
    (rest : List Token) : writeTokensFrom before (singleSpace :: rest) = ' ' :: writeTokensFrom none rest :=
  writeTokensFrom_whitespace h .start [' '] rest

/-- Where squeezed tokens and what closes them do not begin with white space, their text begins with no
blank. -/
theorem exists_cons_writeTokensFrom_squeezed {tokens : List Token} {next : Option Char} {last : Bool}
    {closing : Text} (hsound : SoundAll tokens) (hlegible : legible tokens = true)
    (htidy : tidy next tokens = true) (hclosing : ∀ c ∈ closing.head?, isBlank c = false)
    (hhead : ∀ token ∈ (squeezed last tokens).head?, token.isSpace = false)
    (hnil : squeezed last tokens = [] → closing ≠ []) :
    ∃ c rest, isBlank c = false ∧
      writeTokensFrom none (squeezed last tokens) ++ squeezeBehind closing = c :: rest := by
  cases hcases : squeezed last tokens with
  | nil =>
    obtain ⟨c, rest, rfl⟩ := List.exists_cons_of_ne_nil (hnil hcases)
    exact ⟨c, _, hclosing c rfl, Text.squeezeBehind_cons (hclosing c rfl) rest⟩
  | cons token more =>
    have hmem : token ∈ (squeezed last tokens).head? := by simp [hcases]
    obtain ⟨rfl, -⟩ | ⟨first, others, rfl, hfirst, rfl⟩ := head_squeezed hmem
    · exact absurd (hhead _ hmem) (by decide)
    · obtain ⟨c, hc, -, hwrite⟩ := Token.head_write_of_tidy (hsound.each _ List.mem_cons_self)
        (legible_cons hlegible).1 (tidy_cons htidy).1 hfirst
      obtain ⟨rest, hwrite⟩ := List.head?_eq_some_iff.mp hwrite
      exact ⟨c, _, hc, by rw [writeTokensFrom, hwrite]; rfl⟩

/-- Behind a character that is no blank, and in front of one or at the end, the text of tidy tokens is
squeezed to that of the squeezed tokens. -/
theorem squeezeBehind_writeTokensFrom {tokens : List Token} (hsound : SoundAll tokens)
    (hlegible : legible tokens = true) (closing : Text)
    (hclosing : ∀ c ∈ closing.head?, isBlank c = false) (htidy : tidy closing.head? tokens = true)
    (before : Option Kind) (hbefore : before ≠ some (.literal ['\\'])) :
    squeezeBehind (writeTokensFrom before tokens ++ closing) =
      writeTokensFrom before (squeezed closing.isEmpty tokens) ++ squeezeBehind closing := by
  induction tokens using spaced_induction generalizing before closing with
  | nil => rfl
  | space position gap rest ih =>
    have hmore : legible rest = true := (legible_cons hlegible).2.2.2
    have hrest := ih hsound.tail hmore closing hclosing (tidy_cons htidy).2 none (by simp)
    obtain ⟨hne, hgap⟩ := (hsound.each _ List.mem_cons_self).of_leaf
    rw [writeTokensFrom_whitespace hbefore, List.append_assoc,
      Text.squeezeBehind_blanks hne fun c hc => isBlank_of_cssWhitespace (hgap c hc), hrest]
    obtain ⟨hall, hnil, hend⟩ | ⟨others, hcons, hsame | ⟨hsame, hlast, hhead⟩⟩ :=
      squeezed_space_cases closing.isEmpty position gap rest
    · rw [hall, hnil, List.isEmpty_iff.mp hend]
      rfl
    · -- A space stands behind this white space already.
      rw [hcons, hsame, writeTokensFrom_singleSpace hbefore, writeTokensFrom_singleSpace (by simp)]
      rfl
    · subst hsame
      have hnil (hempty : squeezed closing.isEmpty rest = []) : closing ≠ [] :=
        fun heq => absurd (hlast hempty) (by simp [heq])
      obtain ⟨c, more, hc, hbegins⟩ := exists_cons_writeTokensFrom_squeezed hsound.tail hmore
        (tidy_cons htidy).2 hclosing hhead hnil
      rw [hcons, writeTokensFrom_singleSpace hbefore, List.cons_append, hbegins,
        Text.withSpace_of_not_blank (by simpa using hc), if_neg (by simp)]
  | leaf position value rest hspace ih =>
    obtain ⟨hvalue, hmore⟩ := tidy_cons htidy
    have hrest := ih hsound.tail (legible_cons hlegible).2.2.2 closing hclosing hmore _
      (kind_ne_backslash (Token.not_backslash_of_isTidy hvalue))
    have hfirm := Leaf.isFirm_of_isTidy hvalue position hspace
    rw [squeezed_leaf _ hspace, writeTokensFrom, writeTokensFrom]
    simp only [List.append_assoc]
    rw [squeezeBehind_separator_append hbefore, Token.write,
      Text.squeezeBehind_append_of_isFirm hfirm (List.head?_append ..), hrest]
  | group position opening content rest ihcontent ih =>
    obtain ⟨hgroup, hmore⟩ := tidy_cons htidy
    obtain ⟨hopening, hinside⟩ := tidy_group hgroup
    have hcontent : legible content = true := (legible_cons hlegible).1
    have hrest := ih hsound.tail (legible_cons hlegible).2.2.2 closing hclosing hmore _
      (kind_ne_backslash (Token.not_backslash_of_isTidy hgroup))
    have hcloser := isBlank_closer opening.closedBy
    have hbody (text : Text) := ihcontent (hsound.each _ List.mem_cons_self).of_group.2 hcontent
      (opening.closedBy.closer :: text) (by simpa using hcloser) hinside none (by simp)
    have hstays : squeezeBehind opening.write = opening.write := by
      rw [← Text.squeeze_eq_squeezeBehind (Text.head_of_squeeze_eq hopening), hopening]
    rw [writeTokensFrom_squeezed_group hcontent, writeTokensFrom, write_group hcontent]
    simp only [List.append_assoc, List.cons_append, List.nil_append]
    rw [squeezeBehind_separator_append hbefore, Text.squeezeBehind_append hstays, hbody,
      Text.squeezeBehind_cons hcloser, hrest]
    rfl

/-! ## From the first token on -/

/-- Tokens without the white space at their start. -/
def unspaced (tokens : List Token) : List Token :=
  tokens.dropWhile Token.isSpace

theorem unspaced_space (position : Position) (gap : Text) (rest : List Token) :
    unspaced (.leaf position (.whitespace gap) :: rest) = unspaced rest :=
  List.dropWhile_cons_of_pos rfl

theorem unspaced_eq_self {token : Token} (h : token.isSpace = false) (rest : List Token) :
    unspaced (token :: rest) = token :: rest :=
  List.dropWhile_cons_of_neg (by simp [h])

theorem unspaced_suffix (tokens : List Token) : unspaced tokens <:+ tokens :=
  List.dropWhile_suffix _

theorem head_unspaced (tokens : List Token) :
    ∀ token ∈ (unspaced tokens).head?, token.isSpace = false := by
  intro token htoken
  have h := List.head?_dropWhile_not Token.isSpace tokens
  rw [show tokens.dropWhile Token.isSpace = unspaced tokens from rfl, htoken] at h
  simpa using h

theorem essence_unspaced (tokens : List Token) : essence (unspaced tokens) = essence tokens := by
  induction tokens using spaced_induction with
  | nil => rfl
  | space position gap rest ih => rwa [unspaced_space]
  | leaf position value rest hspace _ => rw [unspaced_eq_self hspace]
  | group position opening content rest _ _ => rw [unspaced_eq_self rfl]

theorem squeeze_unspaced {tokens : List Token} (hsound : SoundAll tokens) :
    squeeze (writeTokens (unspaced tokens)) = squeeze (writeTokens tokens) := by
  induction tokens using spaced_induction with
  | nil => rfl
  | space position gap rest ih =>
    have hgap := (hsound.each _ List.mem_cons_self).of_leaf.2
    rw [unspaced_space, ih hsound.tail, writeTokens, writeTokens, writeTokensFrom_whitespace (by simp),
      Text.squeeze_blanks fun c hc => isBlank_of_cssWhitespace (hgap c hc)]
  | leaf position value rest hspace _ => rw [unspaced_eq_self hspace]
  | group position opening content rest _ _ => rw [unspaced_eq_self rfl]

theorem legible_of_suffix {tokens part : List Token} (h : legible tokens = true) (hpart : part <:+ tokens) :
    legible part = true := by
  obtain ⟨front, rfl⟩ := hpart
  induction front with
  | nil => exact h
  | cons token front ih => exact ih (legible_cons h).2.2.2

theorem tidy_of_suffix {tokens part : List Token} {next : Option Char} (h : tidy next tokens = true)
    (hpart : part <:+ tokens) : tidy next part = true := by
  obtain ⟨front, rfl⟩ := hpart
  induction front with
  | nil => exact h
  | cons token front ih => exact ih (tidy_cons h).2

theorem WellRead.of_suffix {tokens part : List Token} (h : WellRead tokens) (hpart : part <:+ tokens) :
    WellRead part where
  sound := h.sound.part hpart.isInfix
  ends token htoken := by
    obtain ⟨front, rfl⟩ := hpart
    exact h.ends token (by rw [List.getLast?_append, htoken]; rfl)
  short lexeme hlexeme := h.short lexeme (flat_subset (fun _ hmem => hpart.subset hmem) hlexeme)

/-- The squeezed text of tidy tokens is the text of the squeezed tokens. -/
theorem squeeze_writeTokens {tokens : List Token} (hsound : SoundAll tokens)
    (hlegible : legible tokens = true) (htidy : tidy none tokens = true) :
    squeeze (writeTokens tokens) = writeTokens (squeezed true (unspaced tokens)) := by
  have hpart := unspaced_suffix tokens
  have hsound' := hsound.part hpart.isInfix
  have hlegible' := legible_of_suffix hlegible hpart
  have htidy' := tidy_of_suffix htidy hpart
  have hwhole : squeezeBehind (writeTokens (unspaced tokens)) =
      writeTokens (squeezed true (unspaced tokens)) := by
    have h := squeezeBehind_writeTokensFrom hsound' hlegible' [] (by simp) htidy' none (by simp)
    rw [List.append_nil, show squeezeBehind [] = [] from rfl, List.append_nil] at h
    exact h
  rw [← squeeze_unspaced hsound, ← hwhole]
  refine Text.squeeze_eq_squeezeBehind ?_
  cases hcases : unspaced tokens with
  | nil => simp [writeTokens, writeTokensFrom]
  | cons token rest =>
    rw [hcases] at hsound' hlegible' htidy'
    obtain ⟨c, hc, hwrite, -⟩ := Token.head_write_of_tidy (hsound'.each _ List.mem_cons_self)
      (legible_cons hlegible').1 (tidy_cons htidy').1 (head_unspaced tokens _ (by rw [hcases]; rfl))
    intro d hd
    rw [writeTokens, writeTokensFrom, separator, List.nil_append, List.head?_append, hwrite] at hd
    obtain rfl : c = d := by simpa using hd
    exact hc

/-- Squeezing the text of tidy and legible tokens and reading it again keeps their essence. -/
theorem exists_tokens_squeeze {before : List Token} (hread : WellRead before)
    (hlegible : legible before = true) (htidy : tidy none before = true) (keep : Bool) :
    ∃ after, tokens keep (squeeze (writeTokens before)) = .ok after ∧ essence after = essence before := by
  have hpart := unspaced_suffix before
  have hread' := hread.of_suffix hpart
  have htidy' := tidy_of_suffix htidy hpart
  have hunits : SettledUnits (squeezed true (unspaced before)) := fun numeral unit hmem => by
    obtain hmem | heq := mem_flat_squeezed hmem
    · exact settledUnits_of_tidy htidy' numeral unit hmem
    · exact absurd heq (by simp)
  have h := exists_tokens_essence (wellRead_squeezed hread' htidy' true)
    (legible_squeezed hread'.sound (legible_of_suffix hlegible hpart) true) hunits keep
  rwa [← squeeze_writeTokens hread.sound hlegible htidy, essence_squeezed, essence_unspaced] at h

end StyleOrigin.Css
