import StyleOrigin.Proofs.Css.FirstBlock
import StyleOrigin.Proofs.Css.Nested
import StyleOrigin.Proofs.Css.Unplaced

/-! # A mark in front of a source

A byte order mark may start a name. In front of a source it makes one, together with the name that the
source starts with, so that a rule begins there. What is read behind the first block is read as before,
unless the source starts with a lexeme that goes on behind the name in it.

* `Readable`, `exists_parse_iff`, `map_unplaced_of_parse`: the lexemes of a source, and its nodes.
* `Resumes`: two sequences of lexemes are read alike behind their first blocks.
* `behindName`, `ReadsName`, `readsName_marked`: a source with a mark in front of it begins with a name.
* `BeginsPlain`, `resumes_of_beginsPlain`: the sources that resume behind the name that they start with.
-/
set_option autoImplicit false

namespace StyleOrigin.Css

/-! ## Reading lexemes -/

/-- No integer among lexemes is too long to be read. -/
def Readable (lexemes : List Lexeme) : Prop :=
  ∀ lexeme ∈ lexemes, lexeme.overlong? = none

/-- The tokens of lexemes, comments dropped. -/
def tokensOf (lexemes : List Lexeme) : List Token :=
  nest (placed (lexemes.filter fun lexeme => !lexeme.isComment))

theorem readable_lexemesOf_iff (source : Text) :
    Readable (lexemesOf (cleaned source)) ↔ (lexemes source).findSome? (·.2.overlong?) = none := by
  rw [List.findSome?_eq_none_iff, Readable, lexemesOf, List.forall_mem_map]
  rfl

theorem exists_parse_iff (source : Text) :
    (∃ nodes, parse source = .ok nodes) ↔ Readable (lexemesOf (cleaned source)) := by
  rw [readable_lexemesOf_iff, parse, tokens]
  cases (lexemes source).findSome? (·.2.overlong?) with
  | none => simp [Except.map]
  | some fault => simp [Except.map]

/-- The nodes of a source are those of its lexemes, apart from their places. -/
theorem map_unplaced_of_parse {source : Text} {nodes : List Node} (h : parse source = .ok nodes) :
    nodes.map Node.unplaced =
      nodesFrom isPassedAtTop none (tokensOf (lexemesOf (cleaned source))) := by
  have hreadable := (readable_lexemesOf_iff source).mp ((exists_parse_iff source).mp ⟨nodes, h⟩)
  simp only [parse, tokens, hreadable] at h
  obtain rfl := Except.ok.inj h
  rw [nodesFrom_unplaced isPassedAtTop_unplaced, nest_unplaced, map_snd_lexemes]
  rfl

/-! ## Reading alike behind the first block -/

/-- Lexemes are read alike behind their first block as others are, and these can be read if those can
be. -/
structure Resumes (lexemes rest : List Lexeme) : Prop where
  readable : Readable lexemes → Readable rest
  behind : behindCurly (tokensOf lexemes) = behindCurly (tokensOf rest)

theorem Resumes.refl (lexemes : List Lexeme) : Resumes lexemes lexemes :=
  ⟨id, rfl⟩

theorem Resumes.leaf (value : Leaf) (rest : List Lexeme) : Resumes (.leaf value :: rest) rest where
  readable h := (List.forall_mem_cons.mp h).2
  behind := by
    rw [tokensOf, List.filter_cons]
    split
    · exact behindCurly_nest_leaf _ _ _
    · rfl

theorem Resumes.function (name : Text) (rest : List Lexeme) :
    Resumes (.opens (.function name) :: rest) (.opens (.bracket .round) :: rest) where
  readable h := List.forall_mem_cons.mpr ⟨rfl, (List.forall_mem_cons.mp h).2⟩
  behind := behindCurly_nest_function _ _ _ _

theorem Resumes.replace_leaf (value other : Leaf) (hother : (Lexeme.leaf other).overlong? = none)
    (rest : List Lexeme) : Resumes (.leaf value :: rest) (.leaf other :: rest) where
  readable h := List.forall_mem_cons.mpr ⟨hother, (List.forall_mem_cons.mp h).2⟩
  behind := (Resumes.leaf value rest).behind.trans (Resumes.leaf other rest).behind.symm

/-! ## Names -/

/-- What stands behind the name that a text starts with. -/
def behindName (text : Text) : Text :=
  text.drop (scanName text).2

theorem behindName_of_not_continuesName {text : Text} (h : continuesName text = false) :
    behindName text = text := by
  rw [behindName, scanName_of_not_continuesName h, List.drop_zero]

theorem behindName_cons {c : Char} (h : isNameChar c = true) (cs : Text) :
    behindName (c :: cs) = behindName cs := by
  rw [behindName, scanName, scanNameFrom, if_pos h]
  rfl

theorem exists_length_scanName {c : Char} {cs : Text}
    (h : isNameChar c = true ∨ startsEscape (c :: cs) = true) :
    ∃ length, (scanName (c :: cs)).2 = length + 1 := by
  rw [scanName, scanNameFrom]
  split
  · exact ⟨_, rfl⟩
  · rename_i hname
    rw [if_pos (h.resolve_left hname)]
    exact ⟨_, rfl⟩

/-- Lexemes that take a text on behind the name at its start, or may do so: numerals, code point ranges
and addresses. -/
def Lexeme.outlastsName : Lexeme → Bool
  | .leaf (.number _) => true
  | .leaf (.percentage _) => true
  | .leaf (.dimension _ _) => true
  | .leaf (.unicodeRange _ _) => true
  | .leaf (.url _ _) => true
  | .leaf (.flaw .badUrl) => true
  | _ => false

/-- A text does not start with a numeral, a code point range or an address. -/
def BeginsPlain (text : Text) : Prop :=
  ∀ lexeme ∈ (lexemesOf text).head?, lexeme.outlastsName = false

instance (text : Text) : Decidable (BeginsPlain text) :=
  inferInstanceAs (Decidable (∀ lexeme ∈ (lexemesOf text).head?, lexeme.outlastsName = false))

/-- The lexemes of a text that starts with an identifier, unless it starts with an address. -/
inductive ReadsName (text : Text) : Prop
  | ident (name : Text) (h : lexemesOf text = .leaf (.ident name) :: lexemesOf (behindName text))
  | function (name tail : Text) (hbehind : behindName text = '(' :: tail)
      (h : lexemesOf text = .opens (.function name) :: lexemesOf tail)

theorem not_beginsPlain {text : Text} {lexeme : Lexeme} {rest : List Lexeme}
    (h : lexemesOf text = lexeme :: rest) (houtlasts : lexeme.outlastsName = true) :
    ¬ BeginsPlain text := by
  intro hplain
  have hnot := hplain lexeme (by rw [h]; rfl)
  exact absurd houtlasts (by simp [hnot])

theorem exists_quotation_url (found : Quotation) (taken : Nat) :
    ∃ lexeme rest, (Step.quotation found taken .url .unclosedUrl .badUrl).lexemes = lexeme :: rest ∧
      lexeme.outlastsName = true := by
  unfold Step.quotation
  split <;> exact ⟨_, _, rfl, rfl⟩

theorem exists_numeral (text numeral : Text) :
    ∃ lexeme, (Step.numeral text numeral).lexemes = [lexeme] ∧ lexeme.outlastsName = true := by
  simp only [Step.numeral]
  split
  · exact ⟨_, rfl, rfl⟩
  · split <;> exact ⟨_, rfl, rfl⟩

theorem readsName_or_not_beginsPlain {c : Char} {cs : Text}
    (hnext : Lexeme.next c cs = Step.ident (c :: cs))
    (hname : isNameChar c = true ∨ startsEscape (c :: cs) = true) :
    ReadsName (c :: cs) ∨ Text.lower (scanName (c :: cs)).1 = "url" ∧ ¬ BeginsPlain (c :: cs) := by
  obtain ⟨length, hlength⟩ := exists_length_scanName hname
  have hbehind : behindName (c :: cs) = cs.drop length := by
    rw [behindName, hlength, List.drop_succ_cons]
  have hlexemes := lexemesOf_cons c cs
  rw [hnext] at hlexemes
  unfold Step.ident at hlexemes
  simp only [hlength, List.drop_succ_cons, ← hbehind] at hlexemes
  split at hlexemes
  · rename_i tail heq
    split at hlexemes
    · rename_i haddress
      obtain ⟨lexeme, rest, hfirst, houtlasts⟩ :=
        exists_quotation_url (scanUrl tail) (length + 1)
      rw [hfirst, List.cons_append] at hlexemes
      simp only [Bool.and_eq_true, decide_eq_true_eq] at haddress
      exact .inr ⟨haddress.1.1, not_beginsPlain hlexemes houtlasts⟩
    · have hdrop : cs.drop (length + 1) = tail := by
        rw [← List.drop_drop, ← hbehind, heq]
        rfl
      simp only [hdrop] at hlexemes
      exact .inl (.function _ tail heq hlexemes)
  · refine .inl (.ident (scanName (c :: cs)).1 ?_)
    rw [hbehind]
    exact hlexemes

theorem lexemesOf_round (rest : Text) :
    lexemesOf ('(' :: rest) = .opens (.bracket .round) :: lexemesOf rest :=
  reads_opener .round rest

theorem ReadsName.resumes {text : Text} (h : ReadsName text) :
    Resumes (lexemesOf text) (lexemesOf (behindName text)) := by
  cases h with
  | ident name h =>
    rw [h]
    exact .leaf _ _
  | function name tail hbehind h =>
    rw [h, hbehind, lexemesOf_round]
    exact .function name _

theorem ReadsName.readable {text : Text} (h : ReadsName text)
    (hreadable : Readable (lexemesOf (behindName text))) : Readable (lexemesOf text) := by
  cases h with
  | ident name h =>
    rw [h]
    exact List.forall_mem_cons.mpr ⟨rfl, hreadable⟩
  | function name tail hbehind h =>
    rw [hbehind, lexemesOf_round] at hreadable
    rw [h]
    exact List.forall_mem_cons.mpr ⟨rfl, (List.forall_mem_cons.mp hreadable).2⟩

/-- A rule that is no at-rule begins at a name. -/
theorem ReadsName.exists_tokensOf {text : Text} (h : ReadsName text) :
    ∃ first rest, tokensOf (lexemesOf text) = first :: rest ∧ isPassedAtTop first = false ∧
      first.curlyContent? = none ∧ Pending.begin first = .styleRule first.position first [] := by
  cases h with
  | ident name h =>
    rw [h]
    exact ⟨_, _, nest_leaf _ _ _, rfl, rfl, rfl⟩
  | function name tail hbehind h =>
    obtain ⟨inside, more, hmore⟩ := exists_nest_opens .round
      (placed ((lexemesOf tail).filter fun lexeme => !lexeme.isComment))
    rw [h]
    exact ⟨_, _, hmore .start (.function name) rfl, rfl, rfl, rfl⟩

/-! ## Marked sources -/

def byteOrderMark : Char := '\uFEFF'

theorem cleaned_marked (source : Text) :
    cleaned (byteOrderMark :: source) = byteOrderMark :: cleaned source := by
  rw [cleaned, List.map_cons, if_neg (by decide), Text.unifyLineEnds.eq_3 _ _ fun _ h =>
    absurd h (by decide), if_neg (by decide), List.map_cons, if_neg (by decide), cleaned]

/-- A mark and what a text starts with make one name. -/
theorem readsName_marked (text : Text) : ReadsName (byteOrderMark :: text) := by
  have hname : isNameChar byteOrderMark = true := by decide
  have hident : startsIdent (byteOrderMark :: text) = true := startsIdent_of_isNameStart (by decide) text
  have hrange : startsUnicodeRange (byteOrderMark :: text) = false :=
    not_startsUnicodeRange (by decide) (by decide) text
  have hclosing : startsClosingMark (byteOrderMark :: text) = false :=
    Bool.eq_false_iff.mpr fun hclosing => by
      obtain ⟨rest, heq⟩ := exists_of_startsClosingMark hclosing
      exact absurd (List.cons.inj heq).1 (by decide)
  have hnext := nextOf_eq_ident hident hrange hclosing
  refine (readsName_or_not_beginsPlain hnext (.inl hname)).resolve_right fun ⟨hurl, _⟩ => ?_
  rw [scanName_cons_of_isNameChar hname, Text.lower, List.map_cons] at hurl
  exact absurd (List.cons.inj hurl).1 (by decide)

theorem behindName_marked (text : Text) : behindName (byteOrderMark :: text) = behindName text :=
  behindName_cons (by decide) text

/-! ## Sources without a mark -/

theorem lexemesOf_greater (rest : Text) :
    lexemesOf ('>' :: rest) = .leaf (.literal ['>']) :: lexemesOf rest := by
  have hreads : Reads ['>'] [.leaf (.literal ['>'])] rest :=
    reads_of_next (next_eq_mark (by decide) rest)
  exact hreads

/-- The mark that once closed a comment around a stylesheet is more than the name in it. -/
theorem resumes_closingMark (rest : Text) :
    Resumes (lexemesOf ('-' :: '-' :: '>' :: rest))
      (lexemesOf (behindName ('-' :: '-' :: '>' :: rest))) := by
  have hreads : Reads "-->" [.leaf (.literal "-->")] rest := reads_longLiteral (by decide) rest
  have hclosing : lexemesOf ('-' :: '-' :: '>' :: rest) = .leaf (.literal "-->") :: lexemesOf rest :=
    hreads
  have hbehind : behindName ('-' :: '-' :: '>' :: rest) = '>' :: rest := by
    rw [behindName_cons (by decide), behindName_cons (by decide)]
    exact behindName_of_not_continuesName (by simp [continuesName, startsEscape]; decide)
  rw [hclosing, hbehind, lexemesOf_greater]
  exact .replace_leaf _ _ rfl _

/-- No name goes on behind a hyphen that starts neither a name nor a numeral. -/
theorem not_continuesName_behind_hyphen {text : Text} (hident : startsIdent ('-' :: text) = false)
    (hnumeral : scanNumeral ('-' :: text) = none) : continuesName text = false := by
  cases text with
  | nil => rfl
  | cons d ds =>
    obtain ⟨hstart, hescape, hhyphen⟩ := not_starts_behind_hyphen hident
    have hchar : isNameChar d = false := by
      refine Bool.eq_false_iff.mpr fun hchar => ?_
      have hdigit := isDigit_of_isNameChar hchar hstart hhyphen
      exact absurd hnumeral (by simp [scanNumeral, scanSign, hdigit])
    simp [continuesName, hchar, hescape]

/-- The one name character that starts neither a name nor a numeral is a hyphen. -/
theorem eq_hyphen {c : Char} {cs : Text} (hident : startsIdent (c :: cs) = false)
    (hnumeral : scanNumeral (c :: cs) = none) (hcontinues : continuesName (c :: cs) = true) :
    c = '-' := by
  obtain ⟨hstart, hescape⟩ := not_starts_of_not_startsIdent hident
  have hchar : isNameChar c = true := by simpa [continuesName, hescape] using hcontinues
  by_contra hhyphen
  exact scanNumeral_isSome_of_isDigit (isDigit_of_isNameChar hchar hstart hhyphen) cs hnumeral

theorem resumes_hyphen {rest : Text} (hnext : Lexeme.next '-' rest = Step.mark '-' rest)
    (hrest : continuesName rest = false) :
    Resumes (lexemesOf ('-' :: rest)) (lexemesOf (behindName ('-' :: rest))) := by
  have hreads : Reads ['-'] [.leaf (.literal ['-'])] rest := reads_of_next hnext
  have hhyphen : lexemesOf ('-' :: rest) = .leaf (.literal ['-']) :: lexemesOf rest := hreads
  rw [hhyphen, behindName_cons (by decide), behindName_of_not_continuesName hrest]
  exact .leaf _ _

section Plain
variable {c : Char} {cs : Text}

theorem isWhitespace_eq_false_of_name (h : isNameChar c = true ∨ startsEscape (c :: cs) = true) :
    isWhitespace c = false := by
  rcases h with hchar | hescape
  · exact isWhitespace_eq_false_of_isNameChar hchar
  · rw [head_of_startsEscape hescape]
    decide

theorem BeginsPlain.not_startsUnicodeRange (h : BeginsPlain (c :: cs)) (hspace : isWhitespace c = false) :
    startsUnicodeRange (c :: cs) = false := by
  refine Bool.eq_false_iff.mpr fun hrange => ?_
  have hlexemes := lexemesOf_cons c cs
  simp only [Lexeme.next, hspace, hrange] at hlexemes
  exact not_beginsPlain hlexemes rfl h

theorem BeginsPlain.scanNumeral_eq_none (h : BeginsPlain (c :: cs)) (hspace : isWhitespace c = false)
    (hclosing : startsClosingMark (c :: cs) = false) (hident : startsIdent (c :: cs) = false) :
    scanNumeral (c :: cs) = none := by
  refine Option.eq_none_iff_forall_ne_some.mpr fun numeral hnumeral => ?_
  have hnext : Lexeme.next c cs = Step.numeral (c :: cs) numeral := by
    simp [Lexeme.next, hspace, h.not_startsUnicodeRange hspace, hclosing, hident, hnumeral]
  obtain ⟨lexeme, hfirst, houtlasts⟩ := exists_numeral (c :: cs) numeral
  have hlexemes := lexemesOf_cons c cs
  rw [hnext, hfirst] at hlexemes
  exact not_beginsPlain hlexemes houtlasts h

end Plain

/-- Behind the name at its start, a text that begins plain is read as before. -/
theorem resumes_of_beginsPlain {text : Text} (h : BeginsPlain text) :
    Resumes (lexemesOf text) (lexemesOf (behindName text)) := by
  by_cases hcontinues : continuesName text = true
  · cases text with
    | nil => exact absurd hcontinues (by decide)
    | cons c cs =>
      -- of all that a name character can start, a range and a numeral are not plain
      have hname : isNameChar c = true ∨ startsEscape (c :: cs) = true := by
        simpa [continuesName] using hcontinues
      have hspace := isWhitespace_eq_false_of_name hname
      have hrange := h.not_startsUnicodeRange hspace
      by_cases hclosing : startsClosingMark (c :: cs) = true
      · obtain ⟨rest, heq⟩ := exists_of_startsClosingMark hclosing
        rw [heq]
        exact resumes_closingMark rest
      have hclosing := Bool.eq_false_iff.mpr hclosing
      by_cases hident : startsIdent (c :: cs) = true
      · have hnext : Lexeme.next c cs = Step.ident (c :: cs) := nextOf_eq_ident hident hrange hclosing
        exact ((readsName_or_not_beginsPlain hnext hname).resolve_right fun haddress =>
          haddress.2 h).resumes
      have hident := Bool.eq_false_iff.mpr hident
      have hnumeral := h.scanNumeral_eq_none hspace hclosing hident
      have hnext := next_eq_mark_of hspace hrange hclosing hident hnumeral
      obtain rfl := eq_hyphen hident hnumeral hcontinues
      exact resumes_hyphen hnext (not_continuesName_behind_hyphen hident hnumeral)
  · rw [behindName_of_not_continuesName (Bool.eq_false_iff.mpr hcontinues)]
    exact .refl _

end StyleOrigin.Css
