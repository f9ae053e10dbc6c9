import StyleOrigin.Proofs.Css.Scanning

/-! # What lexing brings

Every lexeme of a clean text can be written again, and two pairs of neighbours have a fixed order: a
lone backslash stands in front of a line feed, and a function that could be an address is one with a
quoted argument.

* `Lexeme.Holds`: what holds of a lexeme and of those behind it.
* `lexed_next`: one step of the reader.
* `lexed_lexemesOf`: all lexemes of a text.
-/
set_option autoImplicit false

namespace StyleOrigin.Css

/-! ## Sound lexemes -/

/-- What holds of a lexeme that reading brings. -/
def Lexeme.Sound : Lexeme → Prop
  | .leaf value => value.Sound ∧ ∀ bracket, value ≠ .flaw (.unmatched bracket)
  | .opens (.function name) => name ≠ [] ∧ '\x00' ∉ name
  | _ => True

def beginsQuoted : List Lexeme → Bool
  | .leaf (.string _ _) :: _ => true
  | .leaf (.flaw .badString) :: _ => true
  | .leaf (.whitespace _) :: .leaf (.string _ _) :: _ => true
  | .leaf (.whitespace _) :: .leaf (.flaw .badString) :: _ => true
  | _ => false

def beginsLine : List Lexeme → Bool
  | .leaf (.whitespace ('\n' :: _)) :: _ => true
  | _ => false

/-- What holds of a lexeme that reading brings, and of the lexemes behind it. -/
structure Lexeme.Holds (lexeme : Lexeme) (rest : List Lexeme) : Prop where
  sound : lexeme.Sound
  lead : lexeme = .leaf (.literal ['\\']) → beginsLine rest = true
  quote : ∀ name, lexeme = .opens (.function name) → Text.lower name = "url" →
    beginsQuoted rest = true

/-- What holds of the lexemes of a text. -/
def Lexed : List Lexeme → Prop
  | [] => True
  | lexeme :: rest => lexeme.Holds rest ∧ Lexed rest

/-! ## Steps with one leaf -/

theorem Lexed.leaf {value : Leaf} {rest : List Lexeme} (hsound : value.Sound)
    (hflaw : ∀ bracket, value ≠ .flaw (.unmatched bracket)) (hlead : value ≠ .literal ['\\'])
    (hrest : Lexed rest) : Lexed (.leaf value :: rest) :=
  ⟨⟨⟨hsound, hflaw⟩, fun heq => absurd (Lexeme.leaf.inj heq) hlead, by simp⟩, hrest⟩

theorem Lexed.bracket {lexeme : Lexeme} {rest : List Lexeme}
    (h : (∃ bracket, lexeme = .opens (.bracket bracket)) ∨ ∃ bracket, lexeme = .closes bracket)
    (hrest : Lexed rest) : Lexed (lexeme :: rest) := by
  rcases h with ⟨bracket, rfl⟩ | ⟨bracket, rfl⟩ <;> exact ⟨⟨trivial, by simp, by simp⟩, hrest⟩

variable {rest : List Lexeme}

theorem lexed_quotation {found : Quotation} {taken : Nat} {make : Text → Bool → Leaf}
    {unclosed bad : Flaw} (hmake : ∀ closed, (make found.value closed).Sound)
    (hflaw : ∀ closed bracket, make found.value closed ≠ .flaw (.unmatched bracket))
    (hlead : ∀ closed, make found.value closed ≠ .literal ['\\'])
    (hunclosed : ∀ bracket, unclosed ≠ .unmatched bracket) (hbad : ∀ bracket, bad ≠ .unmatched bracket)
    (hrest : Lexed rest) :
    Lexed ((Step.quotation found taken make unclosed bad).lexemes ++ rest) := by
  have hfault : ∀ fault : Flaw, (∀ bracket, fault ≠ .unmatched bracket) →
      Lexed (.leaf (.flaw fault) :: rest) := fun fault hfault =>
    .leaf trivial (fun bracket heq => hfault bracket (Leaf.flaw.inj heq)) (by simp) hrest
  unfold Step.quotation
  split
  · exact .leaf (hmake true) (hflaw true) (hlead true) hrest
  · exact .leaf (hmake false) (hflaw false) (hlead false) (hfault unclosed hunclosed)
  · exact hfault bad hbad

theorem lexed_string {text : Text} (hnul : '\x00' ∉ text) (mark : Char) (taken : Nat)
    (hrest : Lexed rest) :
    Lexed ((Step.quotation (scanString mark text) taken .string .unclosedString .badString).lexemes ++
      rest) :=
  lexed_quotation (fun _ => nul_notMem_scanString hnul mark) (by simp) (by simp) (by simp) (by simp)
    hrest

theorem lexed_url {text : Text} (hnul : '\x00' ∉ text) (taken : Nat) (hrest : Lexed rest) :
    Lexed ((Step.quotation (scanUrl text) taken .url .unclosedUrl .badUrl).lexemes ++ rest) :=
  lexed_quotation (fun _ => nul_notMem_scanUrl hnul) (by simp) (by simp) (by simp) (by simp) hrest

theorem lexed_longLiteral {text : Text} (h : text ∈ longLiterals) (hrest : Lexed rest) :
    Lexed ((Step.literal text).lexemes ++ rest) := by
  have hne : Leaf.literal text ≠ .literal ['\\'] := by
    rintro heq
    rw [Leaf.literal.inj heq] at h
    exact absurd h (by decide)
  exact .leaf (.inl h) (by simp) hne hrest

/-! ## Identifiers and numerals -/

theorem exists_quoted_leaf (found : Quotation) (tail : List Lexeme) :
    ∃ value more, (Step.quotation found 0 .string .unclosedString .badString).lexemes ++ tail =
      .leaf value :: more ∧ ((∃ text closed, value = .string text closed) ∨
        value = .flaw .badString) := by
  unfold Step.quotation
  split
  · exact ⟨_, _, rfl, .inl ⟨_, _, rfl⟩⟩
  · exact ⟨_, _, rfl, .inl ⟨_, _, rfl⟩⟩
  · exact ⟨_, _, rfl, .inr rfl⟩

theorem lexemesOf_quoted {mark : Char} (hmark : mark = '"' ∨ mark = '\'') (text : Text) :
    ∃ value more, lexemesOf (mark :: text) = .leaf value :: more ∧
      ((∃ text closed, value = .string text closed) ∨ value = .flaw .badString) := by
  have hnext : Lexeme.next mark text =
      Step.quotation (scanString mark text) 0 .string .unclosedString .badString := by
    rcases hmark with rfl | rfl <;> exact next_eq_mark (by decide) text
  rw [lexemesOf_cons, hnext]
  exact exists_quoted_leaf _ _

/-- In front of a quotation mark, white space apart, a string is read. -/
theorem beginsQuoted_lexemesOf {text : Text} {mark : Char} (hmark : mark = '"' ∨ mark = '\'')
    (h : (text.dropWhile isWhitespace).head? = some mark) : beginsQuoted (lexemesOf text) = true := by
  cases text with
  | nil => exact absurd h (by simp)
  | cons c cs =>
    by_cases hc : isWhitespace c = true
    · rw [List.dropWhile_cons_of_pos hc] at h
      obtain ⟨tail, htail⟩ := List.head?_eq_some_iff.mp h
      obtain ⟨value, more, hread, hvalue⟩ := lexemesOf_quoted hmark tail
      rw [lexemesOf_whitespace hc, htail, hread]
      rcases hvalue with ⟨_, _, rfl⟩ | rfl <;> rfl
    · rw [List.dropWhile_cons_of_neg hc] at h
      obtain rfl : c = mark := Option.some.inj h
      obtain ⟨value, more, hread, hvalue⟩ := lexemesOf_quoted hmark cs
      rw [hread]
      rcases hvalue with ⟨_, _, rfl⟩ | rfl <;> rfl

theorem lexed_ident {text : Text} (hnul : '\x00' ∉ text) (hident : startsIdent text = true)
    (hrest : Lexed (lexemesOf (text.drop ((Step.ident text).more + 1)))) :
    Lexed ((Step.ident text).lexemes ++ lexemesOf (text.drop ((Step.ident text).more + 1))) := by
  have hname := scanName_ne_nil_of_startsIdent hident
  have hnameNul := nul_notMem_scanName hnul
  revert hrest
  simp only [Step.ident]
  split
  · rename_i cs hround
    have hcs : text.drop ((scanName text).2 + 1) = cs := by
      rw [← List.drop_drop, hround]
      rfl
    split
    · exact lexed_url (fun hmem => hnul (List.mem_of_mem_drop (hcs ▸ hmem))) _
    · rename_i hbare
      intro hrest
      refine ⟨⟨⟨hname, hnameNul⟩, by simp, ?_⟩, hrest⟩
      intro name heq hurl
      obtain rfl : (scanName text).1 = name := Opening.function.inj (Lexeme.opens.inj heq)
      simp only [hurl, Bool.and_eq_true, decide_eq_true_eq, true_and, not_and, Decidable.not_not,
        ne_eq] at hbare
      show beginsQuoted (lexemesOf (text.drop ((scanName text).2 + 1))) = true
      rw [hcs]
      by_cases hdouble : (cs.dropWhile isWhitespace).head? = some '"'
      · exact beginsQuoted_lexemesOf (.inl rfl) hdouble
      · exact beginsQuoted_lexemesOf (.inr rfl) (hbare hdouble)
  · exact .leaf ⟨hname, hnameNul⟩ (by simp) (by simp)

theorem lexed_numeral {text numeral : Text} (hnul : '\x00' ∉ text)
    (hnumeral : scanNumeral text = some numeral) (hrest : Lexed rest) :
    Lexed ((Step.numeral text numeral).lexemes ++ rest) := by
  have hsound := isNumeral_of_scanNumeral hnumeral
  have hdrop : '\x00' ∉ text.drop numeral.length := fun hmem => hnul (List.mem_of_mem_drop hmem)
  simp only [Step.numeral]
  split
  · rename_i hident
    exact .leaf ⟨hsound, scanName_ne_nil_of_startsIdent hident, nul_notMem_scanName hdrop⟩ (by simp)
      (by simp) hrest
  · split
    · exact .leaf hsound (by simp) (by simp) hrest
    · exact .leaf hsound (by simp) (by simp) hrest

/-! ## Marks -/

theorem isClean_of_mem {c : Char} {cs : Text} (h : ∀ d ∈ c :: cs, isClean d = true) :
    '\x00' ∉ cs :=
  fun hmem => (isClean_iff.mp (h _ (List.mem_cons_of_mem c hmem))).1 rfl

theorem lexed_lone {c : Char} {cs : Text} (hclean : isClean c = true) (hlone : isLone c = true)
    (hident : startsIdent (c :: cs) = false) (hrest : Lexed (lexemesOf cs)) :
    Lexed ((Step.literal [c]).lexemes ++ lexemesOf cs) := by
  have hsound : Leaf.Sound (.literal [c]) := .inr ⟨c, hlone, hclean, rfl⟩
  refine ⟨⟨⟨hsound, by simp⟩, ?_, by simp⟩, hrest⟩
  intro heq
  obtain rfl : c = '\\' := by simpa using heq
  have hline : ∃ tail, cs = '\n' :: tail := by
    have hescape := (not_starts_of_not_startsIdent hident).2
    unfold startsEscape at hescape
    split at hescape
    · rename_i heq
      exact ⟨_, (List.cons.inj heq).2⟩
    · exact absurd hescape (by simp)
    · rename_i hne
      exact absurd rfl (hne cs)
  obtain ⟨tail, rfl⟩ := hline
  show beginsLine (lexemesOf ('\n' :: tail)) = true
  rw [lexemesOf_whitespace (by decide)]
  rfl

theorem lexed_mark {c : Char} {cs : Text} (hclean : ∀ d ∈ c :: cs, isClean d = true)
    (hspace : isWhitespace c = false) (hident : startsIdent (c :: cs) = false)
    (hdigit : c.isDigit = false) (hrest : Lexed (lexemesOf (cs.drop (Step.mark c cs).more))) :
    Lexed ((Step.mark c cs).lexemes ++ lexemesOf (cs.drop (Step.mark c cs).more)) := by
  have hnul := isClean_of_mem hclean
  have hc := hclean c List.mem_cons_self
  revert hrest
  unfold Step.mark
  split
  · split
    · rename_i hname
      exact .leaf ⟨scanName_ne_nil_of_startsIdent hname, nul_notMem_scanName hnul⟩ (by simp) (by simp)
    · exact lexed_lone hc (by decide) hident
  · split
    · rename_i hname
      have hne : (scanName cs).1 ≠ [] := by
        cases cs with
        | nil => exact absurd hname (by decide)
        | cons d ds => exact scanName_ne_nil (by simpa using hname)
      exact .leaf ⟨hne, nul_notMem_scanName hnul, fun hident =>
        startsLikeNumeral_scanName hident hname⟩ (by simp) (by simp)
    · exact lexed_lone hc (by decide) hident
  · exact .bracket (.inl ⟨_, rfl⟩)
  · exact .bracket (.inl ⟨_, rfl⟩)
  · exact .bracket (.inl ⟨_, rfl⟩)
  · exact .bracket (.inr ⟨_, rfl⟩)
  · exact .bracket (.inr ⟨_, rfl⟩)
  · exact .bracket (.inr ⟨_, rfl⟩)
  · exact lexed_string hnul _ _
  · exact lexed_string hnul _ _
  · rename_i cs
    obtain ⟨hends, hmem⟩ := sound_scanComment cs
    refine .leaf ⟨hends, fun d hd => hclean d ?_⟩ (by simp) (by simp)
    exact List.mem_cons_of_mem _ (List.mem_cons_of_mem _ (hmem d hd))
  · exact lexed_longLiteral (by decide)
  · exact lexed_longLiteral (by decide)
  · exact lexed_longLiteral (by decide)
  · exact lexed_longLiteral (by decide)
  · exact lexed_longLiteral (by decide)
  · exact lexed_longLiteral (by decide)
  · exact lexed_longLiteral (by decide)
  · rename_i hcurly hsquare hround hcurlyEnd hsquareEnd hroundEnd hdouble hsingle _ _ _ _ _ _ _ _
    have hstart := (not_starts_of_not_startsIdent hident).1
    have hlone : isLone c = true := by
      refine isLone_of_ne hspace hstart hdigit ?_
      simp only [List.forall_mem_cons]
      exact ⟨hcurly, hcurlyEnd, hsquare, hsquareEnd, hround, hroundEnd, hdouble, hsingle, by simp⟩
    exact lexed_lone hc hlone hident

/-! ## All lexemes -/

theorem scanNumeral_isSome_of_isDigit {c : Char} (h : c.isDigit = true) (cs : Text) :
    scanNumeral (c :: cs) ≠ none := by
  have hsign : scanSign (c :: cs) = [] := by
    have := isDigit_ne_sign h
    simp [scanSign, this]
  simp [scanNumeral, hsign, h]

/-- One step of the reader brings lexemes that can be written again. -/
theorem lexed_next {c : Char} {cs : Text} (hclean : ∀ d ∈ c :: cs, isClean d = true)
    (hrest : Lexed (lexemesOf (cs.drop (Lexeme.next c cs).more))) :
    Lexed ((Lexeme.next c cs).lexemes ++ lexemesOf (cs.drop (Lexeme.next c cs).more)) := by
  have hnul : '\x00' ∉ c :: cs := fun hmem => (isClean_iff.mp (hclean _ hmem)).1 rfl
  revert hrest
  unfold Lexeme.next
  split
  · rename_i hspace
    refine .leaf ⟨by simp, fun d hd => ?_⟩ (by simp) (by simp)
    obtain rfl | hd := List.mem_cons.mp hd
    · exact hspace
    · exact List.all_eq_true.mp List.all_takeWhile d hd
  split
  · exact .leaf (scanUnicodeRange_lt _) (by simp) (by simp)
  split
  · exact lexed_longLiteral (by decide)
  split
  · rename_i hident
    exact lexed_ident hnul hident
  split
  · rename_i hnumeral
    exact lexed_numeral hnul hnumeral
  · rename_i hspace _ _ hident _ hnumeral
    refine lexed_mark hclean (Bool.eq_false_iff.mpr hspace) (Bool.eq_false_iff.mpr hident) ?_
    exact Bool.eq_false_iff.mpr fun hdigit => scanNumeral_isSome_of_isDigit hdigit cs hnumeral

/-- The lexemes of a clean text can be written again. -/
theorem lexed_lexemesOf : ∀ {text : Text}, (∀ c ∈ text, isClean c = true) → Lexed (lexemesOf text)
  | [], _ => trivial
  | c :: cs, hclean => by
    rw [lexemesOf_cons]
    exact lexed_next hclean (lexed_lexemesOf fun d hd =>
      hclean d (List.mem_cons_of_mem c (List.mem_of_mem_drop hd)))
termination_by text => text.length
decreasing_by
  rw [List.length_drop, List.length_cons]
  omega

end StyleOrigin.Css
