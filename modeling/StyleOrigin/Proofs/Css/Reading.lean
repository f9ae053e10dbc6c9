import StyleOrigin.Css.Lexeme
import StyleOrigin.Proofs.Css.Numerals
import StyleOrigin.Proofs.Css.Quotations

/-! # Written pieces read back one by one

Each leaf, opening and closing bracket that can be written is read back as itself, and the reader goes
on right behind it, as long as what follows does not lengthen the piece.

* `lexemesOf`: the lexemes of a text without their positions.
* `Reads`: a text is read as some lexemes in front of a rest.
* `reads_ident`, `reads_hash_ident`, `reads_number`, `reads_string`, ...: one lemma for each kind of
  piece.
-/
set_option autoImplicit false

namespace StyleOrigin.Css

/-! ## Lexemes without positions -/

/-- The lexemes of a text, without their positions. -/
def lexemesOf (text : Text) : List Lexeme :=
  (lexemesFrom 0 .start text).map (·.2)

theorem map_snd_lexemesFrom (skip : Nat) (position : Position) (text : Text) :
    (lexemesFrom skip position text).map (·.2) = lexemesOf (text.drop skip) := by
  induction text generalizing skip position with
  | nil => cases skip <;> simp [lexemesOf, lexemesFrom]
  | cons c cs ih =>
    cases skip with
    | succ skip => exact ih skip _
    | zero =>
      rw [List.drop_zero, lexemesOf, lexemesFrom, lexemesFrom]
      simp only [List.map_append, ih, List.map_map]
      rfl

theorem lexemesOf_cons (c : Char) (cs : Text) :
    lexemesOf (c :: cs) =
      (Lexeme.next c cs).lexemes ++ lexemesOf (cs.drop (Lexeme.next c cs).more) := by
  rw [lexemesOf, lexemesFrom]
  simp only [List.map_append, map_snd_lexemesFrom, List.map_map]
  exact congrArg (· ++ _) (List.map_id _)

/-- A text in front of a rest is read as some lexemes, and reading goes on with the rest. -/
def Reads (text : Text) (lexemes : List Lexeme) (rest : Text) : Prop :=
  lexemesOf (text ++ rest) = lexemes ++ lexemesOf rest

theorem reads_of_next {c : Char} {cs rest : Text} {lexemes : List Lexeme}
    (h : Lexeme.next c (cs ++ rest) = ⟨lexemes, cs.length⟩) : Reads (c :: cs) lexemes rest := by
  rw [Reads, List.cons_append, lexemesOf_cons, h, List.drop_left]

/-- Reading at the start of a text that is not empty. -/
def nextOf : Text → Step
  | [] => ⟨[], 0⟩
  | c :: cs => Lexeme.next c cs

theorem reads_of_nextOf {text rest : Text} {lexemes : List Lexeme} (hne : text ≠ [])
    (h : nextOf (text ++ rest) = ⟨lexemes, text.length - 1⟩) : Reads text lexemes rest := by
  obtain ⟨c, cs, rfl⟩ := List.exists_cons_of_ne_nil hne
  exact reads_of_next h

/-! ## Which piece starts -/

theorem isWhitespace_eq_false_of_isNameChar {c : Char} (h : isNameChar c = true) :
    isWhitespace c = false := by
  refine Bool.eq_false_iff.mpr fun hspace => ?_
  have : (c = ' ' ∨ c = '\n') ∨ c = '\t' := by simpa [isWhitespace] using hspace
  rcases this with (rfl | rfl) | rfl <;> exact absurd h (by decide)

theorem head_of_startsName {c : Char} {cs : Text} (h : startsName (c :: cs) = true) :
    isNameStart c = true ∨ startsEscape (c :: cs) = true := by
  simpa [startsName] using h

theorem head_of_startsEscape {c : Char} {cs : Text} (h : startsEscape (c :: cs) = true) : c = '\\' := by
  unfold startsEscape at h
  split at h
  · exact absurd h (by simp)
  · rename_i heq
    exact (List.cons.inj heq).1
  · exact absurd h (by simp)

theorem head_of_startsIdent {c : Char} {cs : Text} (h : startsIdent (c :: cs) = true) :
    isNameChar c = true ∨ startsEscape (c :: cs) = true := by
  unfold startsIdent at h
  split at h
  · rename_i heq
    obtain ⟨rfl, _⟩ := List.cons.inj heq
    exact .inl (by decide)
  · rename_i heq
    obtain ⟨rfl, _⟩ := List.cons.inj heq
    exact .inl (by decide)
  · exact (head_of_startsName h).imp_left isNameChar_of_isNameStart

theorem isWhitespace_eq_false_of_startsIdent {c : Char} {cs : Text}
    (h : startsIdent (c :: cs) = true) : isWhitespace c = false := by
  rcases head_of_startsIdent h with hname | hescape
  · exact isWhitespace_eq_false_of_isNameChar hname
  · rw [head_of_startsEscape hescape]
    decide

theorem exists_of_startsClosingMark {text : Text} (h : startsClosingMark text = true) :
    ∃ rest, text = '-' :: '-' :: '>' :: rest := by
  unfold startsClosingMark at h
  split at h
  · exact ⟨_, rfl⟩
  · exact absurd h (by decide)

theorem startsIdent_of_startsClosingMark {text : Text} (h : startsClosingMark text = true) :
    startsIdent text = true := by
  obtain ⟨rest, rfl⟩ := exists_of_startsClosingMark h
  rfl

theorem nextOf_eq_ident {text : Text} (hident : startsIdent text = true)
    (hrange : startsUnicodeRange text = false) (hclosing : startsClosingMark text = false) :
    nextOf text = Step.ident text := by
  cases text with
  | nil => exact absurd hident (by decide)
  | cons c cs =>
    simp [nextOf, Lexeme.next, isWhitespace_eq_false_of_startsIdent hident, hrange, hclosing, hident]

theorem not_startsUnicodeRange {c : Char} (hU : c ≠ 'U') (hu : c ≠ 'u') (cs : Text) :
    startsUnicodeRange (c :: cs) = false := by
  unfold startsUnicodeRange
  split
  · rename_i heq
    obtain ⟨rfl, _⟩ := List.cons.inj heq
    simp [hU, hu]
  · rfl

/-- Whether a character starts neither white space nor a name nor a numeral, whatever follows it. -/
def isMark (c : Char) : Bool :=
  !(isWhitespace c || isNameChar c || c == '\\' || c == '+' || c == '.')

theorem next_eq_mark_of {c : Char} {cs : Text} (hspace : isWhitespace c = false)
    (hrange : startsUnicodeRange (c :: cs) = false) (hclosing : startsClosingMark (c :: cs) = false)
    (hident : startsIdent (c :: cs) = false) (hnumeral : scanNumeral (c :: cs) = none) :
    Lexeme.next c cs = Step.mark c cs := by
  simp [Lexeme.next, hspace, hrange, hclosing, hident, hnumeral]

theorem scanNumeral_eq_none {c : Char} (hsign : c ≠ '+' ∧ c ≠ '-') (hpoint : c ≠ '.')
    (hdigit : c.isDigit = false) (cs : Text) : scanNumeral (c :: cs) = none := by
  simp [scanNumeral, scanSign, scanFraction, hsign, hpoint, hdigit]

theorem next_eq_mark {c : Char} (h : isMark c = true) (cs : Text) :
    Lexeme.next c cs = Step.mark c cs := by
  simp only [isMark, Bool.not_eq_true', Bool.or_eq_false_iff, beq_eq_false_iff_ne] at h
  obtain ⟨⟨⟨⟨hspace, hname⟩, hbackslash⟩, hplus⟩, hpoint⟩ := h
  have hhyphen : c ≠ '-' := by rintro rfl; exact absurd hname (by decide)
  have hstart : isNameStart c = false :=
    Bool.eq_false_iff.mpr fun hstart => absurd (isNameChar_of_isNameStart hstart) (by simp [hname])
  have hdigit : c.isDigit = false :=
    Bool.eq_false_iff.mpr fun hdigit => absurd (isNameChar_of_isDigit hdigit) (by simp [hname])
  refine next_eq_mark_of hspace ?_ ?_ ?_ (scanNumeral_eq_none ⟨hplus, hhyphen⟩ hpoint hdigit cs)
  · refine not_startsUnicodeRange ?_ ?_ cs <;> rintro rfl <;> exact absurd hname (by decide)
  · simp [startsClosingMark, hhyphen]
  · simp [startsIdent, startsName, startsEscape, hhyphen, hstart, hbackslash]

/-! ## Names -/

theorem scanName_eq_of_stop {encoded name rest : Text}
    (h : scanName (encoded ++ rest) = (scanName rest).map (name ++ ·) (· + encoded.length))
    (hrest : continuesName rest = false) : scanName (encoded ++ rest) = (name, encoded.length) := by
  rw [h, scanName_of_not_continuesName hrest]
  simp

theorem not_continuesName_round (rest : Text) : continuesName ('(' :: rest) = false := by
  simp [continuesName, startsEscape]
  decide

theorem ne_nil_of_startsIdent {text : Text} (h : ∀ rest, startsIdent (text ++ rest) = true) :
    text ≠ [] := by
  rintro rfl
  exact absurd (h []) (by decide)

theorem encodeIdent_ne_nil {name : Text} (h : name ≠ []) : encodeIdent name ≠ [] :=
  ne_nil_of_startsIdent (startsIdent_encodeIdent h)

theorem reads_ident {name rest : Text} (hne : name ≠ []) (hrest : continuesName rest = false)
    (hround : ∀ c ∈ rest.head?, c ≠ '(')
    (hrange : startsUnicodeRange (encodeIdent name ++ rest) = false)
    (hclosing : startsClosingMark (encodeIdent name ++ rest) = false) :
    Reads (encodeIdent name) [.leaf (.ident name)] rest := by
  refine reads_of_nextOf (encodeIdent_ne_nil hne) ?_
  have hscan := scanName_eq_of_stop (scanName_encodeIdent name rest) hrest
  rw [nextOf_eq_ident (startsIdent_encodeIdent hne rest) hrange hclosing, Step.ident]
  simp only [hscan, List.drop_left]
  split
  · exact absurd rfl (hround '(' rfl)
  · rfl

/-- The name of a function ends where its bracket stands, so it takes no other mark with it. -/
theorem ne_round_of_scanName {name rest tail : Text} {d : Char} (start : Text) (hd : d ≠ '(')
    (htext : encodeIdent name ++ '(' :: rest = start ++ d :: tail)
    (hstart : ∀ c ∈ start, isNameChar c = true) (hstop : continuesName (d :: tail) = false) : False := by
  have hbare (c : Char) (hc : isNameChar c = true) (more : Text) :
      scanName (c :: more) = (scanName more).map (c :: ·) (· + 1) := by
    have hstands : Stands isNameChar [c] c := .inl ⟨hc, rfl⟩
    exact hstands.scanName_append more
  have hscan (more : Text) (hmore : ∀ c ∈ more, isNameChar c = true) :
      scanName (more ++ d :: tail) = (more, more.length) := by
    induction more with
    | nil => exact scanName_of_not_continuesName hstop
    | cons c cs ih =>
      rw [List.cons_append, hbare c (hmore c List.mem_cons_self),
        ih fun b hb => hmore b (List.mem_cons_of_mem c hb)]
      rfl
  have hlength : (encodeIdent name).length = start.length := by
    have hname := scanName_eq_of_stop (scanName_encodeIdent name ('(' :: rest))
      (not_continuesName_round rest)
    rw [htext, hscan start hstart] at hname
    exact (congrArg Prod.snd hname).symm
  exact hd (List.cons.inj (List.append_inj htext hlength).2).1.symm

theorem not_startsUnicodeRange_function (name rest : Text) :
    startsUnicodeRange (encodeIdent name ++ '(' :: rest) = false := by
  refine Bool.eq_false_iff.mpr fun hrange => ?_
  unfold startsUnicodeRange at hrange
  split at hrange
  · rename_i u d tail heq
    have hu : u = 'U' ∨ u = 'u' := by simpa using (Bool.and_eq_true_iff.mp hrange).1
    refine ne_round_of_scanName [u] (by decide) heq ?_ ?_
    · rcases hu with rfl | rfl <;> decide
    · simp [continuesName, startsEscape]
      decide
  · exact absurd hrange (by decide)

theorem not_startsClosingMark_function (name rest : Text) :
    startsClosingMark (encodeIdent name ++ '(' :: rest) = false := by
  refine Bool.eq_false_iff.mpr fun hclosing => ?_
  obtain ⟨tail, heq⟩ := exists_of_startsClosingMark hclosing
  refine ne_round_of_scanName ['-', '-'] (by decide) heq (by decide) ?_
  simp [continuesName, startsEscape]
  decide

/-- The name of a function is read back, unless an unquoted address follows it. -/
theorem reads_function {name rest : Text} (hne : name ≠ [])
    (hurl : Text.lower name = "url" → (rest.dropWhile isWhitespace).head? = some '"') :
    Reads (encodeIdent name ++ ['(']) [.opens (.function name)] rest := by
  refine reads_of_nextOf (by simp) ?_
  have hscan := scanName_eq_of_stop (scanName_encodeIdent name ('(' :: rest))
    (not_continuesName_round rest)
  rw [List.append_assoc, List.singleton_append,
    nextOf_eq_ident (startsIdent_encodeIdent hne _) (not_startsUnicodeRange_function name rest)
      (not_startsClosingMark_function name rest), Step.ident]
  simp only [hscan, List.drop_left]
  rw [if_neg]
  · simp
  · simp only [Bool.and_eq_true, decide_eq_true_eq, not_and]
    intro hname _
    exact hname.2 (hurl hname.1)

theorem reads_atKeyword {name rest : Text} (hne : name ≠ []) (hrest : continuesName rest = false) :
    Reads ('@' :: encodeIdent name) [.leaf (.atKeyword name)] rest := by
  refine reads_of_next ?_
  rw [next_eq_mark (by decide), Step.mark, if_pos (startsIdent_encodeIdent hne rest)]
  simp only [scanName_eq_of_stop (scanName_encodeIdent name rest) hrest, Step.leaf]

theorem mark_hash {cs name : Text} {length : Nat} (hscan : scanName cs = (name, length))
    (hstart : (cs.head?.map isNameChar).getD false = true ∨ startsEscape cs = true) :
    Step.mark '#' cs = ⟨[.leaf (.hash name (startsIdent cs))], length⟩ := by
  rw [Step.mark, if_pos (by simpa using hstart)]
  simp only [hscan, Step.leaf]

theorem reads_hash_ident {name rest : Text} (hne : name ≠ []) (hrest : continuesName rest = false) :
    Reads ('#' :: encodeIdent name) [.leaf (.hash name true)] rest := by
  refine reads_of_next ?_
  have hident := startsIdent_encodeIdent hne rest
  rw [next_eq_mark (by decide),
    mark_hash (scanName_eq_of_stop (scanName_encodeIdent name rest) hrest) ?_, hident]
  obtain ⟨c, cs, hcons⟩ := List.exists_cons_of_ne_nil (encodeIdent_ne_nil hne)
  rw [hcons, List.cons_append] at hident ⊢
  exact (head_of_startsIdent hident).imp_left id

theorem Stands.head_append {text : Text} {c : Char} (h : Stands isNameChar text c) (rest : Text) :
    ((text ++ rest).head?.map isNameChar).getD false = true ∨ startsEscape (text ++ rest) = true := by
  obtain ⟨hbare, rfl⟩ | ⟨escape, hescape, rfl⟩ := h
  · exact .inl (by simpa using hbare)
  · exact .inr (hescape rest).1

theorem not_startsIdent_hyphen {rest : Text} (hrest : continuesName rest = false) :
    startsIdent ('-' :: rest) = false := by
  cases rest with
  | nil => rfl
  | cons c cs =>
    obtain ⟨hname, hescape⟩ : isNameChar c = false ∧ startsEscape (c :: cs) = false := by
      simpa [continuesName] using hrest
    have hhyphen : c ≠ '-' := by rintro rfl; exact absurd hname (by decide)
    have hstart : isNameStart c = false :=
      Bool.eq_false_iff.mpr fun hstart => absurd (isNameChar_of_isNameStart hstart) (by simp [hname])
    simp [startsIdent, startsName, hhyphen, hstart, hescape]

theorem isDigit_not_start {d : Char} (h : d.isDigit = true) :
    d ≠ '-' ∧ d ≠ '\\' ∧ isNameStart d = false := by
  have hall : ∀ d ∈ "0123456789".toList, d ≠ '-' ∧ d ≠ '\\' ∧ isNameStart d = false := by decide
  exact hall d (mem_digits_of_isDigit h)

theorem not_startsIdent_digit {d : Char} (h : d.isDigit = true) (cs : Text) :
    startsIdent (d :: cs) = false ∧ startsIdent ('-' :: d :: cs) = false := by
  obtain ⟨hhyphen, hbackslash, hstart⟩ := isDigit_not_start h
  simp [startsIdent, startsName, startsEscape, hhyphen, hbackslash, hstart]

/-- A name that is no identifier as it stands: a digit is first, or a hyphen that is alone or in front
of a digit. -/
def startsLikeNumeral : Text → Bool
  | ['-'] => true
  | '-' :: d :: _ => d.isDigit
  | d :: _ => d.isDigit
  | [] => false

theorem encodeName_digit {d : Char} (h : d.isDigit = true) (cs : Text) :
    encodeName (d :: cs) = d :: encodeName cs := by
  simp [encodeName, encodeNameChar, isNameChar_of_isDigit h]

theorem encodeName_hyphen (cs : Text) : encodeName ('-' :: cs) = '-' :: encodeName cs := rfl

theorem not_startsIdent_encodeName {name rest : Text} (hname : startsLikeNumeral name = true)
    (hrest : continuesName rest = false) : startsIdent (encodeName name ++ rest) = false := by
  unfold startsLikeNumeral at hname
  split at hname
  · exact not_startsIdent_hyphen hrest
  · rw [encodeName_hyphen, encodeName_digit hname]
    exact (not_startsIdent_digit hname _).2
  · rw [encodeName_digit hname]
    exact (not_startsIdent_digit hname _).1
  · exact absurd hname (by simp)

theorem reads_hash_name {name rest : Text} (hname : startsLikeNumeral name = true)
    (hrest : continuesName rest = false) :
    Reads ('#' :: encodeName name) [.leaf (.hash name false)] rest := by
  refine reads_of_next ?_
  rw [next_eq_mark (by decide),
    mark_hash (scanName_eq_of_stop (scanName_encodeName name rest) hrest) ?_,
    not_startsIdent_encodeName hname hrest]
  have hne : name ≠ [] := by rintro rfl; exact absurd hname (by decide)
  obtain ⟨c, cs, rfl⟩ := List.exists_cons_of_ne_nil hne
  have hcons : encodeName (c :: cs) = encodeNameChar c ++ encodeName cs := rfl
  rw [hcons, List.append_assoc]
  exact (stands_encodeNameChar c).head_append _

/-! ## Numerals -/

theorem not_startsIdent_numeral {d : Char} (h : d.isDigit = true ∨ d = '.') (cs : Text) :
    startsIdent (d :: cs) = false ∧ startsIdent ('-' :: d :: cs) = false := by
  rcases h with h | rfl
  · exact not_startsIdent_digit h cs
  · exact ⟨by simp [startsIdent, startsName, startsEscape]; decide,
      by simp [startsIdent, startsName, startsEscape]; decide⟩

theorem IsNumeral.ne_nil {numeral : Text} (h : IsNumeral numeral) : numeral ≠ [] := by
  obtain ⟨d, ds, _, rfl | rfl | rfl⟩ := h.exists_cons <;> simp

theorem IsNumeral.not_startsIdent {numeral : Text} (h : IsNumeral numeral) (rest : Text) :
    startsIdent (numeral ++ rest) = false := by
  obtain ⟨d, ds, hd, rfl | rfl | rfl⟩ := h.exists_cons
  · exact (not_startsIdent_numeral hd _).1
  · simp [startsIdent, startsName, startsEscape]
    decide
  · exact (not_startsIdent_numeral hd _).2

theorem IsNumeral.head {numeral : Text} (h : IsNumeral numeral) (rest : Text) :
    ∀ c ∈ (numeral ++ rest).head?, c.isDigit = true ∨ c = '.' ∨ c = '+' ∨ c = '-' := by
  obtain ⟨d, ds, hd, rfl | rfl | rfl⟩ := h.exists_cons
  · intro c hc
    obtain rfl : d = c := by simpa using hc
    exact hd.imp_right .inl
  · simp
  · simp

theorem nextOf_eq_numeral {numeral rest : Text} (h : IsNumeral numeral)
    (hrest : EndsNumeral numeral rest) :
    nextOf (numeral ++ rest) = Step.numeral (numeral ++ rest) numeral := by
  have hscan := h.scanNumeral_append hrest
  have hident := h.not_startsIdent rest
  have hclosing : startsClosingMark (numeral ++ rest) = false :=
    Bool.eq_false_iff.mpr fun hclosing => by
      simp [startsIdent_of_startsClosingMark hclosing] at hident
  have hhead := h.head rest
  obtain ⟨c, cs, rfl⟩ := List.exists_cons_of_ne_nil h.ne_nil
  rw [List.cons_append] at *
  have hc : isWhitespace c = false ∧ c ≠ 'U' ∧ c ≠ 'u' := by
    rcases hhead c rfl with hdigit | rfl | rfl | rfl
    · have hall : ∀ d ∈ "0123456789".toList, isWhitespace d = false ∧ d ≠ 'U' ∧ d ≠ 'u' := by decide
      exact hall c (mem_digits_of_isDigit hdigit)
    all_goals decide
  simp [nextOf, Lexeme.next, hc.1, not_startsUnicodeRange hc.2.1 hc.2.2, hclosing, hident, hscan]

/-- A number is read back where neither a unit nor a percent sign follows. -/
theorem reads_number {numeral rest : Text} (h : IsNumeral numeral) (hrest : EndsNumeral numeral rest)
    (hident : startsIdent rest = false) (hpercent : ∀ c ∈ rest.head?, c ≠ '%') :
    Reads numeral [.leaf (.number numeral)] rest := by
  refine reads_of_nextOf h.ne_nil ?_
  have hhead : rest.head? ≠ some '%' := fun hhead => hpercent '%' hhead rfl
  rw [nextOf_eq_numeral h hrest, Step.numeral]
  simp only [List.drop_left, hident, hhead, Bool.false_eq_true, if_false, Step.leaf]

theorem endsNumeral_percent (numeral rest : Text) : EndsNumeral numeral ('%' :: rest) where
  digit c hc := by
    obtain rfl : '%' = c := by simpa using hc
    decide
  fraction := rfl
  exponent := .inr rfl

theorem reads_percentage {numeral : Text} (h : IsNumeral numeral) (rest : Text) :
    Reads (numeral ++ ['%']) [.leaf (.percentage numeral)] rest := by
  refine reads_of_nextOf (by simp) ?_
  have hident : startsIdent ('%' :: rest) = false := by
    simp [startsIdent, startsName, startsEscape]
    decide
  rw [List.append_assoc, List.singleton_append,
    nextOf_eq_numeral h (endsNumeral_percent numeral rest), Step.numeral]
  simp only [List.drop_left, hident, Bool.false_eq_true, if_false, List.head?_cons, if_true,
    Step.leaf, List.length_append, List.length_singleton, Nat.add_sub_cancel]

/-- Whether a unit begins with an exponent: the letter E and a digit. -/
def startsExponent : Text → Bool
  | e :: d :: _ => (e == 'e' || e == 'E') && d.isDigit
  | _ => false

/-- What is written for a name begins with its first character or a backslash. -/
theorem head_encodeName {d : Char} {p : Char → Prop} (hd : isNameChar d = true → p d)
    (hbackslash : p '\\') (ds rest : Text) : ∀ c ∈ (encodeName (d :: ds) ++ rest).head?, p c := by
  intro c hc
  have hcons : encodeName (d :: ds) = encodeNameChar d ++ encodeName ds := rfl
  rw [hcons, List.append_assoc] at hc
  obtain ⟨hname, htext⟩ | ⟨escape, _, htext⟩ := stands_encodeNameChar d
  · rw [htext] at hc
    obtain rfl : d = c := by simpa using hc
    exact hd hname
  · rw [htext] at hc
    obtain rfl : '\\' = c := by simpa using hc
    exact hbackslash

/-- What is written for an identifier begins with its first character, a hyphen or a backslash. -/
theorem head_encodeIdent {d : Char} {p : Char → Prop} (hd : isNameStart d = true → p d) (hhyphen : p '-')
    (hbackslash : p '\\') (ds rest : Text) :
    ∀ c ∈ (encodeIdent (d :: ds) ++ rest).head?, p c := by
  intro c hc
  unfold encodeIdent at hc
  split at hc
  · obtain rfl : '\\' = c := by simpa using hc
    exact hbackslash
  · obtain rfl : '-' = c := by simpa using hc
    exact hhyphen
  · obtain rfl : '-' = c := by simpa using hc
    exact hhyphen
  · rw [encodeIdentTail, List.append_assoc] at hc
    obtain ⟨hstart, htext⟩ | ⟨escape, _, htext⟩ := stands_encodeIdentStart d
    · rw [htext] at hc
      obtain rfl : d = c := by simpa using hc
      exact hd hstart
    · rw [htext] at hc
      obtain rfl : '\\' = c := by simpa using hc
      exact hbackslash

theorem scanExponent_of_head {text : Text} (h : ∀ c ∈ text.head?, c ≠ 'e' ∧ c ≠ 'E') :
    scanExponent text = [] := by
  cases text with
  | nil => rfl
  | cons c cs => simp [scanExponent, h c rfl]

/-- A letter E begins no exponent where neither a digit nor a sign follows. -/
theorem scanExponent_cons {e : Char} {cs : Text}
    (h : ∀ c ∈ cs.head?, c.isDigit = false ∧ c ≠ '+' ∧ c ≠ '-') : scanExponent (e :: cs) = [] := by
  have hsign : scanSign cs = [] := by
    cases cs with
    | nil => rfl
    | cons c cs => simp [scanSign, h c rfl]
  have hdigits : cs.takeWhile Char.isDigit = [] := by
    cases cs with
    | nil => rfl
    | cons c cs => simp [h c rfl]
  simp [scanExponent, hsign, hdigits]

theorem scanExponent_encodeUnit {unit : Text} (h : startsExponent unit = false) (hne : unit ≠ [])
    (rest : Text) : scanExponent (encodeUnit unit ++ rest) = [] := by
  obtain ⟨e, cs, rfl⟩ := List.exists_cons_of_ne_nil hne
  rw [encodeUnit_eq]
  split
  · exact scanExponent_of_head fun c hc => by
      obtain rfl : '\\' = c := by simpa using hc
      decide
  · rename_i hlooks
    by_cases he : e ≠ 'e' ∧ e ≠ 'E'
    · exact scanExponent_of_head (head_encodeIdent (fun _ => he) (by decide) (by decide) cs rest)
    · have he : e = 'e' ∨ e = 'E' := by
        by_cases hsmall : e = 'e'
        · exact .inl hsmall
        · exact .inr (by simpa [hsmall] using he)
      cases cs with
      | nil => exact absurd (by simpa [looksLikeExponent] using he) hlooks
      | cons d ds =>
        have hd : d.isDigit = false := by
          simpa [startsExponent, he] using h
        have hhyphen : d ≠ '-' := by
          rintro rfl
          exact hlooks (by simpa [looksLikeExponent] using he)
        have hident : encodeIdent (e :: d :: ds) = e :: encodeName (d :: ds) := by
          rcases he with rfl | rfl <;> rfl
        rw [hident, List.cons_append]
        refine scanExponent_cons (head_encodeName (fun hname => ⟨hd, ?_, hhyphen⟩) (by decide) ds rest)
        rintro rfl
        exact absurd hname (by decide)

theorem head_not_digit_of_startsIdent {text : Text} (h : startsIdent text = true) :
    ∀ c ∈ text.head?, c.isDigit = false ∧ c ≠ '.' := by
  intro c hc
  obtain ⟨cs, rfl⟩ := List.head?_eq_some_iff.mp hc
  refine ⟨Bool.eq_false_iff.mpr fun hdigit => ?_, ?_⟩
  · exact absurd (not_startsIdent_digit hdigit cs).1 (by simp [h])
  · rintro rfl
    exact absurd (not_startsIdent_numeral (.inr rfl) cs).1 (by simp [h])

/-- A dimension is read back, with its unit settled, where no name goes on. -/
theorem reads_dimension {numeral unit rest : Text} (h : IsNumeral numeral) (hne : unit ≠ [])
    (hexponent : hasExponent numeral = true ∨ startsExponent unit = false)
    (hrest : continuesName rest = false) :
    Reads (numeral ++ encodeUnit unit) [.leaf (.dimension numeral (settledUnit unit))] rest := by
  have hident := startsIdent_encodeUnit hne rest
  have hhead := head_not_digit_of_startsIdent hident
  have hends : EndsNumeral numeral (encodeUnit unit ++ rest) :=
    ⟨fun c hc => (hhead c hc).1, scanFraction_eq_nil fun c hc => (hhead c hc).2,
      hexponent.imp_right fun hunit => scanExponent_encodeUnit hunit hne rest⟩
  refine reads_of_nextOf (by simp [h.ne_nil]) ?_
  rw [List.append_assoc, nextOf_eq_numeral h hends, Step.numeral]
  simp only [List.drop_left, hident, if_true,
    scanName_eq_of_stop (scanName_encodeUnit unit rest) hrest, Step.leaf]
  have := List.length_pos_iff.mpr h.ne_nil
  rw [List.length_append]
  exact congrArg _ (by omega)

theorem reads_unicodeRange {first last : Nat} {rest : Text} (hfirst : first < 16 ^ 6)
    (hlast : last < 16 ^ 6) (hrest : EndsRange rest) :
    Reads (writeUnicodeRange first last) [.leaf (.unicodeRange first last)] rest := by
  have hscan := scanUnicodeRange_write hfirst hlast hrest
  rw [writeUnicodeRange_eq] at hscan ⊢
  obtain ⟨d, ds, hcons⟩ := List.exists_cons_of_ne_nil (hexNumeral_ne_nil first)
  have hd : isHexDigit d = true := isHexDigit_of_mem_hexNumeral (hcons ▸ List.mem_cons_self)
  have hspace : isWhitespace 'U' = false := by decide
  rw [hcons, List.cons_append] at hscan ⊢
  generalize ds ++ (if first = last then [] else '-' :: hexNumeral last) = tail at hscan ⊢
  have htext : ("U+" ++ d :: tail : Text) = 'U' :: '+' :: d :: tail := rfl
  rw [htext] at hscan ⊢
  refine reads_of_next ?_
  simp only [List.cons_append, List.drop_succ_cons, List.drop_zero, List.length_cons] at hscan ⊢
  simp [Lexeme.next, hspace, startsUnicodeRange, hd, hscan, Step.leaf]

/-! ## Quotations and comments -/

theorem reads_string (value rest : Text) :
    Reads ('"' :: (encodeString value ++ ['"'])) [.leaf (.string value true)] rest := by
  refine reads_of_next ?_
  rw [next_eq_mark (by decide), Step.mark, List.append_assoc, List.singleton_append,
    scanString_encodeString]
  simp [Step.quotation]

theorem reads_url {value : Text} (hcontrol : ∀ c ∈ value, isUrlControl c = false) (rest : Text) :
    Reads ("url(" ++ encodeUrl value ++ [')']) [.leaf (.url value true)] rest := by
  refine reads_of_nextOf (by simp) ?_
  have htext : ("url(" ++ encodeUrl value ++ [')'] ++ rest : Text) =
      encodeIdent "url" ++ '(' :: (encodeUrl value ++ ')' :: rest) := by
    rw [List.append_assoc, List.append_assoc, List.singleton_append]
    rfl
  have hne : ("url" : Text) ≠ [] := by decide
  have hident := startsIdent_encodeIdent hne ('(' :: (encodeUrl value ++ ')' :: rest))
  have hscan := scanName_eq_of_stop
    (scanName_encodeIdent "url" ('(' :: (encodeUrl value ++ ')' :: rest)))
    (not_continuesName_round _)
  obtain ⟨d, ds, hcons, hspace, hquote, hmark⟩ := exists_cons_encodeUrl hcontrol rest
  have hhead : ((encodeUrl value ++ ')' :: rest).dropWhile isWhitespace).head? = some d := by
    rw [hcons, List.dropWhile_cons, hspace]
    rfl
  have hname : Text.lower "url" = "url" := by decide
  rw [htext, nextOf_eq_ident hident rfl rfl, Step.ident]
  simp only [hscan, List.drop_left, hhead, hname, scanUrl_encodeUrl hcontrol]
  rw [if_pos (by simp [hquote, hmark])]
  have hlength : (encodeIdent "url").length = 3 := by decide
  have hopening : ("url(" : Text).length = 4 := rfl
  simp only [Step.quotation, List.length_append, List.length_singleton, hlength, hopening]
  exact congrArg _ (by omega)

/-- What is written for a spoiled address is spoiled again. -/
theorem reads_badUrl (rest : Text) : Reads "url([bad url])" [.leaf (.flaw .badUrl)] rest :=
  reads_of_nextOf (by simp) rfl

theorem reads_comment {text : Text} (h : ¬ ['*', '/'] <:+: text) (rest : Text) :
    Reads ("/*" ++ text ++ "*/") [.leaf (.comment text)] rest := by
  have hcons : ("/*" ++ text ++ "*/" : Text) = '/' :: '*' :: (text ++ ['*', '/']) := rfl
  rw [hcons]
  refine reads_of_next ?_
  rw [next_eq_mark (by decide), List.cons_append, Step.mark, List.append_assoc,
    List.cons_append, List.singleton_append, scanComment_append h]
  simp [Step.leaf]

/-! ## Brackets -/

theorem reads_opener (bracket : Bracket) (rest : Text) :
    Reads [bracket.opener] [.opens (.bracket bracket)] rest := by
  refine reads_of_next ?_
  cases bracket <;> exact next_eq_mark (by decide) rest

theorem reads_closer (bracket : Bracket) (rest : Text) :
    Reads [bracket.closer] [.closes bracket] rest := by
  refine reads_of_next ?_
  cases bracket <;> exact next_eq_mark (by decide) rest

/-! ## Literals -/

/-- The literals of more than one character. -/
def longLiterals : List Text :=
  ["<!--", "-->", "||", "~=", "|=", "^=", "$=", "*="]

theorem reads_longLiteral {text : Text} (h : text ∈ longLiterals) (rest : Text) :
    Reads text [.leaf (.literal text)] rest := by
  simp only [longLiterals, List.mem_cons, List.not_mem_nil, or_false] at h
  rcases h with rfl | rfl | rfl | rfl | rfl | rfl | rfl | rfl
  all_goals exact reads_of_next rfl

/-- A character that may be a literal. -/
def isLone (c : Char) : Bool :=
  !(isWhitespace c || isNameStart c || c.isDigit || "\x7b\x7d[]()\"'".toList.contains c)

/-- A character that starts nothing and is neither a bracket nor a quote. -/
theorem isLone_of_ne {c : Char} (hspace : isWhitespace c = false) (hstart : isNameStart c = false)
    (hdigit : c.isDigit = false)
    (hbracket : ∀ bracket ∈ ['\x7b', '\x7d', '[', ']', '(', ')', '"', '\''], c ≠ bracket) :
    isLone c = true := by
  have hcontains : "\x7b\x7d[]()\"'".toList.contains c = false := by
    refine Bool.eq_false_iff.mpr fun hmem => ?_
    exact hbracket c (by simpa using hmem) rfl
  simp only [isLone, hspace, hstart, hdigit, hcontains]
  decide

/-- Whether digits start here, perhaps behind a point. -/
def startsDigits (text : Text) : Bool :=
  (text.head?.map Char.isDigit).getD false || !(scanFraction text).isEmpty

/-- Whether a character is read together with what follows it. -/
def joins (c : Char) (rest : Text) : Bool :=
  match c with
  | '@' => startsIdent rest
  | '#' => continuesName rest
  | '/' => rest.head? == some '*'
  | '<' => List.isPrefixOf "!--".toList rest
  | '|' => rest.head? == some '|' || rest.head? == some '='
  | '~' => rest.head? == some '='
  | '^' => rest.head? == some '='
  | '$' => rest.head? == some '='
  | '*' => rest.head? == some '='
  | '-' => startsIdent ('-' :: rest) || startsClosingMark ('-' :: rest) || startsDigits rest
  | '+' => startsDigits rest
  | '.' => (rest.head?.map Char.isDigit).getD false
  | '\\' => rest.head? != some '\n'
  | _ => false

theorem mark_eq_literal {c : Char} {rest : Text} (hc : isLone c = true) (h : joins c rest = false) :
    Step.mark c rest = Step.literal [c] := by
  unfold Step.mark
  split
  all_goals first
    | rfl
    | exact absurd hc (by decide)
    | exact if_neg (by simpa [joins, continuesName] using h)
    | exact absurd h (by simp [joins])

theorem isWhitespace_eq_false_of_isLone {c : Char} (h : isLone c = true) :
    isWhitespace c = false ∧ isNameStart c = false ∧ c.isDigit = false := by
  simp only [isLone, Bool.not_eq_true', Bool.or_eq_false_iff] at h
  exact ⟨h.1.1.1, h.1.1.2, h.1.2⟩

theorem not_startsIdent_of_isLone {c : Char} (h : isLone c = true) (hhyphen : c ≠ '-')
    {rest : Text} (hescape : startsEscape (c :: rest) = false) : startsIdent (c :: rest) = false := by
  have hstart := (isWhitespace_eq_false_of_isLone h).2.1
  simp [startsIdent, startsName, hhyphen, hstart, hescape]

theorem takeWhile_isDigit_eq_nil {rest : Text}
    (h : (rest.head?.map Char.isDigit).getD false = false) : rest.takeWhile Char.isDigit = [] := by
  cases rest with
  | nil => rfl
  | cons d ds =>
    have hd : d.isDigit = false := h
    rw [List.takeWhile_cons, hd]
    rfl

theorem scanNumeral_sign {c : Char} {rest : Text} (hc : c = '+' ∨ c = '-')
    (h : startsDigits rest = false) : scanNumeral (c :: rest) = none := by
  obtain ⟨hdigit, hfraction⟩ : (rest.head?.map Char.isDigit).getD false = false ∧
      scanFraction rest = [] := by simpa [startsDigits] using h
  have hsign : scanSign (c :: rest) = [c] := by rcases hc with rfl | rfl <;> rfl
  have hwhole := takeWhile_isDigit_eq_nil hdigit
  simp [scanNumeral, hsign, hwhole, hfraction]

theorem scanNumeral_point {rest : Text} (h : (rest.head?.map Char.isDigit).getD false = false) :
    scanNumeral ('.' :: rest) = none := by
  have hwhole := takeWhile_isDigit_eq_nil h
  have hpoint : Char.isDigit '.' = false := by decide
  simp [scanNumeral, scanSign, scanFraction, hwhole, hpoint]

/-- A backslash joins whatever follows it but a line feed. -/
theorem not_startsEscape_of_not_joins {c : Char} {rest : Text} (h : joins c rest = false) :
    startsEscape (c :: rest) = false := by
  refine Bool.eq_false_iff.mpr fun hescape => ?_
  have hc := head_of_startsEscape hescape
  subst hc
  have hline : rest.head? = some '\n' := by simpa [joins] using h
  obtain ⟨ds, rfl⟩ := List.head?_eq_some_iff.mp hline
  exact absurd hescape (by simp [startsEscape])

theorem scanNumeral_of_not_joins {c : Char} {rest : Text} (hdigit : c.isDigit = false)
    (h : joins c rest = false) : scanNumeral (c :: rest) = none := by
  by_cases hplus : c = '+'
  · exact scanNumeral_sign (.inl hplus) (by simpa [joins, hplus] using h)
  · by_cases hhyphen : c = '-'
    · refine scanNumeral_sign (.inr hhyphen) ?_
      rw [hhyphen] at h
      exact (Bool.or_eq_false_iff.mp h).2
    · by_cases hpoint : c = '.'
      · rw [hpoint] at h ⊢
        exact scanNumeral_point h
      · exact scanNumeral_eq_none ⟨hplus, hhyphen⟩ hpoint hdigit rest

theorem next_eq_literal {c : Char} {rest : Text} (hc : isLone c = true) (h : joins c rest = false) :
    Lexeme.next c rest = Step.literal [c] := by
  obtain ⟨hspace, hstart, hdigit⟩ := isWhitespace_eq_false_of_isLone hc
  have hrange : startsUnicodeRange (c :: rest) = false := by
    refine not_startsUnicodeRange ?_ ?_ rest <;> rintro rfl <;> exact absurd hstart (by decide)
  have hhyphen : startsClosingMark (c :: rest) = false ∧ startsIdent (c :: rest) = false := by
    by_cases hhyphen : c = '-'
    · subst hhyphen
      have := Bool.or_eq_false_iff.mp (Bool.or_eq_false_iff.mp h).1
      exact ⟨this.2, this.1⟩
    · exact ⟨by simp [startsClosingMark, hhyphen],
        not_startsIdent_of_isLone hc hhyphen (not_startsEscape_of_not_joins h)⟩
  rw [next_eq_mark_of hspace hrange hhyphen.1 hhyphen.2 (scanNumeral_of_not_joins hdigit h)]
  exact mark_eq_literal hc h

/-- A single character is read back as a literal where nothing joins it. -/
theorem reads_literal {c : Char} {rest : Text} (hc : isLone c = true) (h : joins c rest = false) :
    Reads [c] [.leaf (.literal [c])] rest :=
  reads_of_next (next_eq_literal hc h)

end StyleOrigin.Css
