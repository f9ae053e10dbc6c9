import StyleOrigin.Proofs.Css.Nested

/-! # Tokens written and read again

What is written for the legible tokens of some source is read again, and is read as the same tokens up
to what distilling drops.

* `clean_writeTokensFrom`: what is written is read as it stands.
* `lenient_overlong`: the integers that are too long are seen by a lenient map.
* `exists_tokens_writeTokens`: tokens written and read again.
-/
set_option autoImplicit false

namespace StyleOrigin.Css

/-! ## Written texts are clean -/

/-- A text of clean characters. -/
def Clean (text : Text) : Prop :=
  ∀ c ∈ text, isClean c = true

instance (text : Text) : Decidable (Clean text) :=
  inferInstanceAs (Decidable (∀ c ∈ text, isClean c = true))

theorem Clean.append {first second : Text} (hfirst : Clean first) (hsecond : Clean second) :
    Clean (first ++ second) :=
  fun c hc => (List.mem_append.mp hc).elim (hfirst c) (hsecond c)

theorem Clean.cons {c : Char} {text : Text} (hc : isClean c = true) (htext : Clean text) :
    Clean (c :: text) :=
  List.forall_mem_cons.mpr ⟨hc, htext⟩

theorem Clean.flatMap {encode : Char → Text} {text : Text} (h : ∀ c ∈ text, Clean (encode c)) :
    Clean (text.flatMap encode) := by
  intro d hd
  obtain ⟨c, hc, hmem⟩ := List.mem_flatMap.mp hd
  exact h c hc d hmem

theorem clean_lineEndEscape {c : Char} (hc : c ≠ '\x00') {other : Text}
    (hother : isClean c = true → Clean other) : Clean ((lineEndEscape? c).getD other) := by
  unfold lineEndEscape?
  split
  · exact (by decide : Clean "\\A ")
  split
  · exact (by decide : Clean "\\D ")
  split
  · exact (by decide : Clean "\\C ")
  · rename_i hreturn hfeed
    exact hother (isClean_iff.mpr ⟨hc, hreturn, hfeed⟩)

theorem clean_escaped {c : Char} (hc : isClean c = true) : Clean ['\\', c] :=
  .cons (by decide) (.cons hc (by simp [Clean]))

theorem clean_singleton {c : Char} (hc : isClean c = true) : Clean [c] :=
  .cons hc (by simp [Clean])

theorem isClean_of_isNameChar {c : Char} (h : isNameChar c = true) : isClean c = true := by
  refine isClean_iff.mpr ⟨?_, ?_, ?_⟩ <;> rintro rfl <;> exact absurd h (by decide)

theorem clean_encodeName {name : Text} (h : '\x00' ∉ name) : Clean (encodeName name) := by
  refine .flatMap fun c hc => ?_
  have hnul : c ≠ '\x00' := fun heq => h (heq ▸ hc)
  unfold encodeNameChar
  split
  · rename_i hname
    exact clean_singleton (isClean_of_isNameChar hname)
  · exact clean_lineEndEscape hnul clean_escaped

theorem clean_encodeIdentStart {c : Char} (h : c ≠ '\x00') : Clean (encodeIdentStart c) := by
  unfold encodeIdentStart
  split
  · rename_i hstart
    exact clean_singleton (isClean_of_isNameChar (isNameChar_of_isNameStart hstart))
  · have hline := clean_lineEndEscape h clean_escaped
    split
    · rename_i heq
      rwa [heq] at hline
    · rename_i heq
      rw [heq] at hline
      split
      · rename_i hdigit
        have hall : ∀ d ∈ "0123456789".toList,
            Clean ('\\' :: Text.upper (Text.ofNatHex d.toNat) ++ [' ']) := by decide
        exact hall c (mem_digits_of_isDigit hdigit)
      · exact hline

theorem clean_encodeIdent {name : Text} (h : '\x00' ∉ name) : Clean (encodeIdent name) := by
  have htail : ∀ {rest : Text}, '\x00' ∉ rest → Clean (encodeIdentTail rest) := by
    intro rest hrest
    cases rest with
    | nil => simp [Clean, encodeIdentTail]
    | cons c cs =>
      obtain ⟨hc, hcs⟩ := notMem_cons.mp hrest
      exact (clean_encodeIdentStart hc.symm).append (clean_encodeName hcs)
  unfold encodeIdent
  split
  · decide
  · rename_i cs
    exact .cons (by decide) (.cons (by decide) (clean_encodeName (by simpa using h)))
  · exact .cons (by decide) (htail (by simpa using h))
  · exact htail h

theorem clean_encodeString {value : Text} (h : '\x00' ∉ value) : Clean (encodeString value) := by
  refine .flatMap fun c hc => ?_
  have hnul : c ≠ '\x00' := fun heq => h (heq ▸ hc)
  unfold encodeStringChar
  split
  · rename_i hmark
    have : c = '"' ∨ c = '\\' := by simpa using hmark
    rcases this with rfl | rfl <;> decide
  · exact clean_lineEndEscape hnul clean_singleton

theorem clean_encodeUrl {value : Text} (h : '\x00' ∉ value) : Clean (encodeUrl value) := by
  refine .flatMap fun c hc => ?_
  have hnul : c ≠ '\x00' := fun heq => h (heq ▸ hc)
  unfold encodeUrlChar
  split
  · rename_i hmark
    have : ((((c = '\'' ∨ c = '"') ∨ c = '\\') ∨ c = ' ') ∨ c = '(') ∨ c = ')' := by
      simpa using hmark
    rcases this with ((((rfl | rfl) | rfl) | rfl) | rfl) | rfl <;> decide
  split
  · exact (by decide : Clean "\\9 ")
  · exact clean_lineEndEscape hnul clean_singleton

theorem clean_encodeUnit {unit : Text} (h : '\x00' ∉ unit) : Clean (encodeUnit unit) := by
  unfold encodeUnit
  split
  · split
    · exact (by decide : Clean "\\65 ").append (clean_encodeName (notMem_cons.mp h).2)
    · exact clean_encodeIdent h
  · decide

theorem clean_digits {digits : Text} (h : ∀ d ∈ digits, d.isDigit = true) : Clean digits :=
  fun d hd => isClean_of_isNameChar (isNameChar_of_isDigit (h d hd))

theorem clean_sign {sign : Text} (h : IsSign sign) : Clean sign := by
  rcases h with rfl | rfl | rfl <;> decide

theorem IsNumeral.clean {numeral : Text} (h : IsNumeral numeral) : Clean numeral := by
  obtain ⟨sign, whole, fraction, exponent, hsign, hwhole, hfraction, hexponent, _, rfl⟩ := h
  refine (clean_sign hsign).append ((clean_digits hwhole).append (.append ?_ ?_))
  · obtain rfl | ⟨digits, _, hdigits, rfl⟩ := hfraction
    · decide
    · exact .cons (by decide) (clean_digits hdigits)
  · obtain rfl | ⟨e, sign, digits, he, hsign, _, hdigits, rfl⟩ := hexponent
    · decide
    · refine .cons ?_ ((clean_sign hsign).append (clean_digits hdigits))
      rcases he with rfl | rfl <;> decide

theorem clean_unicodeRange (first last : Nat) : Clean (writeUnicodeRange first last) := by
  have hhex : ∀ n, Clean (hexNumeral n) := fun n c hc =>
    isClean_of_isNameChar (isNameChar_of_isHexDigit (isHexDigit_of_mem_hexNumeral hc))
  rw [writeUnicodeRange_eq]
  refine (by decide : Clean "U+").append ((hhex first).append ?_)
  split
  · decide
  · exact .cons (by decide) (hhex last)

/-! ## Written tokens -/

theorem Leaf.clean_write {value : Leaf} (h : value.Sound) : Clean value.write := by
  cases value with
  | whitespace text =>
    intro c hc
    refine isClean_iff.mpr ⟨?_, ?_, ?_⟩ <;> rintro rfl <;> exact absurd (h.2 _ hc) (by decide)
  | literal text =>
    obtain hlong | ⟨c, _, hc, rfl⟩ := h
    · have hall : ∀ literal ∈ longLiterals, Clean literal := by decide
      exact hall text hlong
    · exact clean_singleton hc
  | comment text => exact (by decide : Clean "/*").append (.append h.2 (by decide : Clean "*/"))
  | ident name => exact clean_encodeIdent h.2
  | atKeyword name => exact .cons (by decide) (clean_encodeIdent h.2)
  | hash name isIdent =>
    cases isIdent with
    | true => exact .cons (by decide) (clean_encodeIdent h.2.1)
    | false => exact .cons (by decide) (clean_encodeName h.2.1)
  | string value closed =>
    cases closed <;> exact .cons (by decide) ((clean_encodeString h).append (by decide))
  | url value closed =>
    cases closed <;>
      exact (by decide : Clean "url(").append (.append (clean_encodeUrl h) (by decide))
  | number numeral => exact h.clean
  | percentage numeral => exact h.clean.append (by decide)
  | dimension numeral unit => exact h.1.clean.append (clean_encodeUnit h.2.2)
  | unicodeRange first last => exact clean_unicodeRange first last
  | flaw fault =>
    cases fault with
    | unmatched bracket => cases bracket <;> decide
    | _ => decide

theorem clean_separator (before : Option Kind) (token : Token) : Clean (separator before token) := by
  unfold separator
  split
  · decide
  split
  · decide
  split
  · decide
  · decide

/-- What is written for sound tokens is read as it stands. -/
theorem clean_writeTokensFrom {tokens : List Token} (h : SoundAll tokens) (before : Option Kind) :
    Clean (writeTokensFrom before tokens) := by
  induction tokens using tokens_induction generalizing before with
  | nil => exact (by decide : Clean [])
  | leaf position value rest ih =>
    have hvalue := Leaf.clean_write (h.each _ List.mem_cons_self).of_leaf
    exact .append ((clean_separator before _).append hvalue) (ih h.tail _)
  | group position opening content rest ihcontent ih =>
    obtain ⟨hopening, hcontent⟩ := (h.each _ List.mem_cons_self).of_group
    have hbody := ihcontent hcontent none
    refine .append (.append (clean_separator before _) ?_) (ih h.tail _)
    cases opening with
    | bracket bracket =>
      rw [Token.write]
      refine .cons ?_ (hbody.append ?_) <;> cases bracket <;> decide
    | function name =>
      rw [Token.write, List.append_assoc]
      refine (clean_encodeIdent (hopening.named name rfl).2.1).append ?_
      refine .cons (by decide) (hbody.append ?_)
      split <;> decide

/-! ## Tokens read again -/

theorem lenient_overlong : Lenient fun lexeme => lexeme.overlong?.toList where
  comment _ := rfl
  whitespace text := by
    have hnone : ∀ c ∈ text, (Lexeme.leaf (.whitespace [c])).overlong?.toList = [] := fun _ _ => rfl
    exact (List.flatMap_eq_nil_iff.mpr hnone).symm
  unmatched _ := rfl

theorem Lenient.flatMap_filter {α : Type} {f : Lexeme → List α} (hf : Lenient f) (keep : Bool)
    (lexemes : List Lexeme) :
    (lexemes.filter fun lexeme => keep || !lexeme.isComment).flatMap f = lexemes.flatMap f := by
  induction lexemes with
  | nil => rfl
  | cons lexeme rest ih =>
    rw [List.filter_cons]
    split
    · rw [List.flatMap_cons, List.flatMap_cons, ih]
    · rename_i hcomment
      obtain ⟨text, rfl⟩ : ∃ text, lexeme = .leaf (.comment text) := by
        cases keep with
        | true => exact absurd (Bool.true_or _) hcomment
        | false =>
          unfold Lexeme.isComment at hcomment
          split at hcomment
          · exact ⟨_, rfl⟩
          · exact absurd rfl hcomment
      rw [List.flatMap_cons, hf.comment, List.nil_append, ih]

/-- What a lenient map sees of the lexemes that are read from the text of legible tokens. -/
theorem Lenient.flatMap_lexemes {α : Type} {f : Lexeme → List α} (hf : Lenient f) {before : List Token}
    (hread : WellRead before) (hlegible : legible before = true)
    (hsees : ∀ value, .leaf value ∈ flat before → SeesSettled f value) :
    ((lexemes (writeTokens before)).map (·.2)).flatMap f = (flat before).flatMap f := by
  have hclean : cleaned (writeTokens before) = writeTokens before :=
    cleaned_eq_self (clean_writeTokensFrom hread.sound none)
  have hclosing : ∀ c ∈ ([] : Text).head?, isCloser c = true := by simp
  have hfirst : (none : Option Kind) = some (.literal ['\\']) →
      ∀ token ∈ before.head?, token.startsWithLineFeed = true := by simp
  have h := gather_writeTokens hf hread.sound hlegible hsees hread.ends hfirst hclosing
  rw [List.append_nil] at h
  have hlexemes : (lexemes (writeTokens before)).map (·.2) = lexemesOf (writeTokens before) := by
    rw [lexemes, hclean]
    exact map_snd_lexemesFrom 0 .start _
  rw [hlexemes]
  exact h.trans (List.append_nil _)

theorem lexed_writeTokens {before : List Token} (hread : WellRead before) :
    Lexed ((lexemes (writeTokens before)).map (·.2)) := by
  have hclean := clean_writeTokensFrom hread.sound none
  have hlexemes : (lexemes (writeTokens before)).map (·.2) = lexemesOf (writeTokens before) := by
    rw [lexemes, show cleaned (writeTokens before) = writeTokens before from cleaned_eq_self hclean]
    exact map_snd_lexemesFrom 0 .start _
  rw [hlexemes]
  exact lexed_lexemesOf hclean

/-- Legible tokens of a source are read again from their text, with or without comments, up to what
distilling drops. -/
theorem exists_tokens_writeTokens {before : List Token} (hread : WellRead before)
    (hlegible : legible before = true) (keep : Bool) :
    ∃ after, tokens keep (writeTokens before) = .ok after ∧ distil after = distil before := by
  have hshort : (lexemes (writeTokens before)).findSome? (·.2.overlong?) = none := by
    have hall := lenient_overlong.flatMap_lexemes hread hlegible fun _ _ _ _ heq => by subst heq; rfl
    refine List.findSome?_eq_none_iff.mpr fun found hfound => ?_
    have hnone : ∀ lexeme ∈ flat before, lexeme.overlong?.toList = [] := fun lexeme hlexeme => by
      rw [hread.short lexeme hlexeme, Option.toList_none]
    rw [List.flatMap_eq_nil_iff.mpr hnone, List.flatMap_eq_nil_iff] at hall
    exact Option.toList_eq_nil_iff.mp (hall found.2 (List.mem_map_of_mem hfound))
  refine ⟨nest ((lexemes (writeTokens before)).filter fun found => keep || !found.2.isComment), ?_, ?_⟩
  · simp [tokens, hshort]
  · have hkept : Plain ((lexemes (writeTokens before)).filter fun found => keep || !found.2.isComment) :=
      fun found hfound => plain_of_lexed (lexed_writeTokens hread) found (List.mem_filter.mp hfound).1
    have hfilter : ((lexemes (writeTokens before)).filter fun found => keep || !found.2.isComment).map
        (·.2) = ((lexemes (writeTokens before)).map (·.2)).filter fun lexeme =>
          keep || !lexeme.isComment := by
      rw [List.filter_map]
      rfl
    rw [nest, distil_nestFrom hkept, hfilter, lenient_distil.flatMap_filter,
      lenient_distil.flatMap_lexemes hread hlegible fun value _ => seesSettled_distil value]
    exact nest_flat hread.sound

end StyleOrigin.Css
