import StyleOrigin.Proofs.Css.Writing
import StyleOrigin.Proofs.Sequence

/-! # Neighbours kept apart

In front of the text of a neighbour a leaf ends, if either an empty comment is put between the two or
their kinds need none, unless the leaf is one of those that run on.

* `Kind.mayStart`, `Heads`: what the text of a token of a kind may begin with.
* `Leaf.endsBefore_of_heads`: a leaf that does not run on ends in front of a neighbour.
* `StartsWithin`, `Leaf.runsOn_of_startsWithin`: what a leaf sees of the text behind it, if it looks
  whether it runs on.
* `Leaf.endsBefore`: a leaf of a sound and legible sequence ends in front of what is written behind it.
-/
set_option autoImplicit false

namespace StyleOrigin.Css

/-! ## Where a token may begin -/

/-- A character that lengthens nothing in front of it. -/
def isNeutral (c : Char) : Bool :=
  !(isNameChar c || "\\(%?=|*+.!".toList.contains c)

/-- Whether a token of a kind may begin with a character. -/
def Kind.mayStart (c : Char) : Kind → Bool
  | .ident => isNameStart c || c == '-' || c == '\\'
  | .function => isNameStart c || c == '-' || c == '\\'
  | .url => c == 'u'
  | .number => c.isDigit || c == '.' || c == '+' || c == '-'
  | .percentage => c.isDigit || c == '.' || c == '+' || c == '-'
  | .dimension => c.isDigit || c == '.' || c == '+' || c == '-'
  | .unicodeRange => c == 'U'
  | .round => c == '('
  | .atKeyword => c == '@'
  | .hash => c == '#'
  | .literal text => text.head? == some c
  | .other => isNeutral c

/-- A text begins as a token of a kind does that is read on its own. -/
structure Heads (kind : Kind) (text : Text) : Prop where
  head : ∀ c ∈ text.head?, kind.mayStart c = true
  numeral : kind.startsWithNumeral = true → startsIdent text = false
  literal : ∀ found, kind = .literal found →
    (found ∈ longLiterals ∧ found <+: text) ∨
      ∃ c rest, found = [c] ∧ text = c :: rest ∧ isLone c = true ∧ joins c rest = false

/-- Kinds of words and numerals. -/
def Kind.isWordlike (kind : Kind) : Bool :=
  kind.startsLikeIdent || kind.startsWithNumeral || kind == .unicodeRange

theorem continuesName_cons {c : Char} {cs : Text} (h : continuesName (c :: cs) = true) :
    isNameChar c = true ∨ startsEscape (c :: cs) = true := by
  simpa [continuesName] using h

theorem head_longLiteral {text : Text} (h : text ∈ longLiterals) :
    text = "-->" ∨ ∀ c ∈ text.head?, isNameChar c = false ∧ c ≠ '\\' ∧ c ≠ '.' ∧ c ≠ '?' ∧ c ≠ '=' ∧
      c ≠ '(' := by
  simp only [longLiterals, List.mem_cons, List.not_mem_nil, or_false] at h
  rcases h with rfl | rfl | rfl | rfl | rfl | rfl | rfl | rfl
  all_goals first
    | exact .inl rfl
    | exact .inr (by simp; decide)

namespace Heads
variable {kind : Kind} {text : Text}

theorem literal_cons {c : Char} {cs found : Text} (h : Heads kind (c :: cs))
    (hkind : kind = .literal found) :
    (found ∈ longLiterals ∧ found <+: c :: cs ∧ found.head? = some c) ∨
      (found = [c] ∧ isLone c = true ∧ joins c cs = false) := by
  subst hkind
  have hhead := h.head c rfl
  refine (h.literal found rfl).imp (fun hlong => ?_) ?_
  · exact ⟨hlong.1, hlong.2, by simpa [Kind.mayStart] using hhead⟩
  · rintro ⟨d, rest, rfl, htext, hlone, hjoins⟩
    obtain ⟨rfl, rfl⟩ := List.cons.inj htext
    exact ⟨rfl, hlone, hjoins⟩

/-- Only words, numerals and hyphens lengthen a name. -/
theorem wordlike_of_continuesName (h : Heads kind text) (hname : continuesName text = true) :
    kind.isWordlike = true ∨ kind = .literal ['-'] ∨ kind = .literal "-->" := by
  cases text with
  | nil => exact absurd hname (by decide)
  | cons c cs =>
    have hc := continuesName_cons hname
    have hhead := h.head c rfl
    have hplain (hnot : isNameChar c = false ∧ c ≠ '\\') : False := by
      rcases hc with hc | hc
      · exact absurd hc (by simp [hnot.1])
      · exact hnot.2 (head_of_startsEscape hc)
    cases kind with
    | literal found =>
      obtain ⟨hlong, _, hfound⟩ | ⟨rfl, hlone, hjoins⟩ := h.literal_cons rfl
      · obtain rfl | hmarks := head_longLiteral hlong
        · exact .inr (.inr rfl)
        · have := hmarks c hfound
          exact (hplain ⟨this.1, this.2.1⟩).elim
      · rcases hc with hc | hc
        · obtain ⟨_, hstart, hdigit⟩ := isWhitespace_eq_false_of_isLone hlone
          obtain rfl : c = '-' := by simpa [isNameChar, hstart, hdigit] using hc
          exact .inr (.inl rfl)
        · exact absurd (not_startsEscape_of_not_joins hjoins) (by simp [hc])
    | other =>
      simp only [Kind.mayStart, isNeutral, Bool.not_eq_true', Bool.or_eq_false_iff] at hhead
      refine (hplain ⟨hhead.1, ?_⟩).elim
      rintro rfl
      exact absurd hhead.2 (by decide)
    | atKeyword =>
      obtain rfl : c = '@' := by simpa [Kind.mayStart] using hhead
      exact (hplain (by decide)).elim
    | hash =>
      obtain rfl : c = '#' := by simpa [Kind.mayStart] using hhead
      exact (hplain (by decide)).elim
    | round =>
      obtain rfl : c = '(' := by simpa [Kind.mayStart] using hhead
      exact (hplain (by decide)).elim
    | _ => exact .inl rfl

theorem numeral_of_digit {c : Char} {cs : Text} (h : Heads kind (c :: cs))
    (hdigit : c.isDigit = true) : kind.startsWithNumeral = true := by
  have hhead := h.head c rfl
  obtain ⟨hhyphen, hbackslash, hstart⟩ := isDigit_not_start hdigit
  cases kind with
  | ident => simp [Kind.mayStart, hhyphen, hbackslash, hstart] at hhead
  | function => simp [Kind.mayStart, hhyphen, hbackslash, hstart] at hhead
  | literal found =>
    obtain ⟨hlong, _, hfound⟩ | ⟨rfl, hlone, _⟩ := h.literal_cons rfl
    · have hname := isNameChar_of_isDigit hdigit
      obtain rfl | hmarks := head_longLiteral hlong
      · exact absurd (by simpa using hfound : '-' = c).symm hhyphen
      · exact absurd hname (by simp [(hmarks c hfound).1])
    · exact absurd hdigit (by simp [(isWhitespace_eq_false_of_isLone hlone).2.2])
  | other =>
    have hname := isNameChar_of_isDigit hdigit
    simp [Kind.mayStart, isNeutral, hname] at hhead
  | number => rfl
  | percentage => rfl
  | dimension => rfl
  | _ =>
    simp only [Kind.mayStart, beq_iff_eq] at hhead
    subst hhead
    exact absurd hdigit (by decide)

theorem point_of_scanFraction {c : Char} {cs : Text} (hfraction : scanFraction (c :: cs) ≠ []) :
    c = '.' ∧ (cs.head?.map Char.isDigit).getD false = true := by
  unfold scanFraction at hfraction
  split at hfraction
  · rename_i heq
    obtain ⟨rfl, rfl⟩ := List.cons.inj heq
    refine ⟨rfl, ?_⟩
    cases cs with
    | nil => exact absurd rfl hfraction
    | cons d ds =>
      by_cases hd : d.isDigit = true
      · simpa using hd
      · rw [List.takeWhile_cons_of_neg hd] at hfraction
        exact absurd rfl hfraction
  · exact absurd rfl hfraction

/-- A mark that names and numerals do not hold begins a literal only. -/
theorem literal_of_head {c : Char} {cs : Text} (h : Heads kind (c :: cs))
    (hc : c = '=' ∨ c = '?' ∨ c = '.' ∧ kind.startsWithNumeral = false) :
    kind = .literal [c] ∧ joins c cs = false := by
  have hhead := h.head c rfl
  cases kind with
  | literal found =>
    obtain ⟨hlong, _, hfound⟩ | ⟨rfl, _, hjoins⟩ := h.literal_cons rfl
    · obtain rfl | hmarks := head_longLiteral hlong
      · obtain rfl : '-' = c := by simpa using hfound
        simp at hc
      · have := hmarks c hfound
        rcases hc with rfl | rfl | ⟨rfl, _⟩ <;> simp at this
    · exact ⟨rfl, hjoins⟩
  | _ =>
    rcases hc with rfl | rfl | ⟨rfl, hnumeral⟩
    all_goals first
      | exact absurd hhead (by decide)
      | exact absurd hnumeral (by decide)

theorem numeral_of_startsDigits (h : Heads kind text) (hdigits : startsDigits text = true) :
    kind.startsWithNumeral = true := by
  cases text with
  | nil => exact absurd hdigits (by decide)
  | cons c cs =>
    by_cases hdigit : c.isDigit = true
    · exact h.numeral_of_digit hdigit
    · obtain ⟨rfl, hcs⟩ := point_of_scanFraction (by simpa [startsDigits, hdigit] using hdigits)
      refine Bool.not_eq_false _ |>.mp fun hnumeral => ?_
      obtain ⟨_, hjoins⟩ := h.literal_of_head (.inr (.inr ⟨rfl, hnumeral⟩))
      exact absurd hjoins (by simpa [joins] using hcs)

/-- Only words and the old closing mark begin like an identifier. -/
theorem ident_of_startsIdent (h : Heads kind text) (hident : startsIdent text = true) :
    kind.startsLikeIdent = true ∨ kind = .unicodeRange ∨ kind = .literal "-->" := by
  cases text with
  | nil => exact absurd hident (by decide)
  | cons c cs =>
    have hname : continuesName (c :: cs) = true := by
      simpa [continuesName] using head_of_startsIdent hident
    rcases h.wordlike_of_continuesName hname with hword | hhyphen | hclosing
    · simp only [Kind.isWordlike, Bool.or_eq_true, beq_iff_eq] at hword
      rcases hword with (hword | hnumeral) | hrange
      · exact .inl hword
      · exact absurd (h.numeral hnumeral) (by simp [hident])
      · exact .inr (.inl hrange)
    · obtain ⟨hlong, _⟩ | ⟨heq, _, hjoins⟩ := h.literal_cons hhyphen
      · exact absurd hlong (by decide)
      · obtain rfl : '-' = c := List.head_eq_of_cons_eq heq
        have := (Bool.or_eq_false_iff.mp (Bool.or_eq_false_iff.mp hjoins).1).1
        exact absurd hident (by simp [this])
    · exact .inr (.inr hclosing)

theorem round_of_head (h : Heads kind text) (hround : text.head? = some '(') : kind = .round := by
  obtain ⟨cs, rfl⟩ := List.head?_eq_some_iff.mp hround
  have hhead := h.head '(' rfl
  cases kind with
  | round => rfl
  | literal found =>
    obtain ⟨hlong, _, hfound⟩ | ⟨_, hlone, _⟩ := h.literal_cons rfl
    · obtain rfl | hmarks := head_longLiteral hlong
      · exact absurd hfound (by decide)
      · exact absurd rfl (hmarks '(' hfound).2.2.2.2.2
    · exact absurd hlone (by decide)
  | _ => exact absurd hhead (by decide)

end Heads

/-! ## Leaves in front of a neighbour -/

section Neighbour
variable {before kind : Kind} {text : Text}

theorem not_wordlike_of_apart
    (hbefore : before.endsInName = true ∨ before.isOneOf ['#', '-'] = true ∨ before = .number)
    (hapart : before.needsComment kind = false) : kind.isWordlike = false := by
  refine Bool.eq_false_iff.mpr fun hword => ?_
  have : before.needsComment kind = true := by
    simp only [Kind.isWordlike] at hword
    rcases hbefore with hbefore | hbefore | rfl <;> simp [Kind.needsComment, *]
  simp [this] at hapart

theorem not_continuesName_of_apart (hbefore : before.endsInName = true)
    (hapart : before.needsComment kind = false) (h : Heads kind text) :
    continuesName text = false := by
  refine Bool.eq_false_iff.mpr fun hname => ?_
  rcases h.wordlike_of_continuesName hname with hword | rfl | rfl
  · simp [not_wordlike_of_apart (.inl hbefore) hapart] at hword
  · simp [Kind.needsComment, hbefore, Kind.isOneOf] at hapart
  · simp [Kind.needsComment, hbefore, Kind.isClosingMark] at hapart

theorem closingMark_prefix (h : Heads (.literal "-->") text) : "-->".toList <+: text := by
  obtain hlong | ⟨c, rest, heq, _⟩ := h.literal _ rfl
  · exact hlong.2
  · exact absurd heq (by simp)

theorem head_of_wordlike (hword : kind.isWordlike = false) :
    kind.startsLikeIdent = false ∧ kind.startsWithNumeral = false ∧ kind ≠ .unicodeRange := by
  simpa [Kind.isWordlike, and_assoc] using hword

/-- Behind a number neither a unit nor an exponent nor further digits stand. -/
theorem endsNumeral_of_apart (numeral : Text) (hapart : Kind.number.needsComment kind = false)
    (h : Heads kind text) (hclosing : List.isPrefixOf "--".toList text = false) :
    EndsNumeral numeral text ∧ startsIdent text = false := by
  obtain ⟨hident, hnumeral, hrange⟩ := head_of_wordlike
    (not_wordlike_of_apart (.inr (.inr rfl)) hapart)
  have hstarts : startsIdent text = false := by
    refine Bool.eq_false_iff.mpr fun hstarts => ?_
    rcases h.ident_of_startsIdent hstarts with hlike | hlike | rfl
    · simp [hident] at hlike
    · exact hrange hlike
    · obtain ⟨tail, rfl⟩ := closingMark_prefix h
      simp at hclosing
  have hdigits : startsDigits text = false := by
    refine Bool.eq_false_iff.mpr fun hdigits => ?_
    simp [h.numeral_of_startsDigits hdigits] at hnumeral
  obtain ⟨hdigit, hfraction⟩ : (text.head?.map Char.isDigit).getD false = false ∧
      scanFraction text = [] := by simpa [startsDigits] using hdigits
  refine ⟨⟨fun c hc => ?_, hfraction, .inr (scanExponent_of_head fun c hc => ?_)⟩, hstarts⟩
  · simpa [Option.mem_def.mp hc] using hdigit
  · obtain ⟨cs, rfl⟩ := List.head?_eq_some_iff.mp hc
    have hstart : isNameStart c ≠ true := by simp [(not_starts_of_not_startsIdent hstarts).1]
    constructor <;> rintro rfl <;> exact hstart (by decide)

theorem not_hex_of_apart {c : Char} {cs : Text} (hapart : Kind.unicodeRange.needsComment kind = false)
    (h : Heads kind (c :: cs)) : isHexDigit c = false := by
  refine Bool.eq_false_iff.mpr fun hhex => ?_
  have hname := isNameChar_of_isHexDigit hhex
  have hhead := h.head c rfl
  cases kind with
  | literal found =>
    obtain ⟨hlong, _, hfound⟩ | ⟨rfl, hlone, _⟩ := h.literal_cons rfl
    · obtain rfl | hmarks := head_longLiteral hlong
      · obtain rfl : '-' = c := by simpa using hfound
        exact absurd hhex (by decide)
      · simp [(hmarks c hfound).1] at hname
    · obtain ⟨_, hstart, hdigit⟩ := isWhitespace_eq_false_of_isLone hlone
      simp [isHexDigit_eq_false hstart hdigit] at hhex
  | other => simp [Kind.mayStart, isNeutral, hname] at hhead
  | ident => exact absurd hapart (by decide)
  | function => exact absurd hapart (by decide)
  | number => exact absurd hapart (by decide)
  | percentage => exact absurd hapart (by decide)
  | dimension => exact absurd hapart (by decide)
  | _ =>
    simp only [Kind.mayStart, beq_iff_eq] at hhead
    subst hhead
    exact absurd hhex (by decide)

theorem not_hex_of_not_joins {c : Char} {cs : Text} (h : joins '-' (c :: cs) = false) :
    isHexDigit c = false := by
  obtain ⟨⟨hident, _⟩, hdigits⟩ : (startsIdent ('-' :: c :: cs) = false ∧
      startsClosingMark ('-' :: c :: cs) = false) ∧ startsDigits (c :: cs) = false := by
    simpa [joins] using h
  refine isHexDigit_eq_false ?_ ?_
  · refine Bool.eq_false_iff.mpr fun hstart => ?_
    have hname : startsName (c :: cs) = true := by simp [startsName, hstart]
    have := startsIdent_hyphen_of_startsName hname
    simp [this] at hident
  · exact (by simpa [startsDigits] using hdigits : c.isDigit = false ∧ _).1

/-- Behind a code point range neither a digit nor a question mark nor a second code point stands. -/
theorem endsRange_of_apart (hapart : Kind.unicodeRange.needsComment kind = false)
    (h : Heads kind text) : EndsRange text where
  digit c hc := by
    obtain ⟨cs, rfl⟩ := List.head?_eq_some_iff.mp hc
    exact not_hex_of_apart hapart h
  mark c hc := by
    obtain ⟨cs, rfl⟩ := List.head?_eq_some_iff.mp hc
    rintro rfl
    obtain ⟨rfl, _⟩ := h.literal_of_head (.inr (.inl rfl))
    exact absurd hapart (by decide)
  last c cs heq := by
    subst heq
    have hhead := h.head '-' rfl
    cases kind with
    | literal found =>
      obtain ⟨hlong, hbegins, hfound⟩ | ⟨rfl, _, hjoins⟩ := h.literal_cons rfl
      · obtain rfl | hmarks := head_longLiteral hlong
        · obtain ⟨tail, htail⟩ := hbegins
          obtain rfl : '-' = c :=
            Option.some.inj (congrArg (fun text : Text => text.tail.head?) htail)
          decide
        · exact absurd (hmarks '-' hfound).1 (by decide)
      · exact not_hex_of_not_joins hjoins
    | _ =>
      first
        | exact absurd hapart (by decide)
        | exact absurd hhead (by decide)

theorem head_hyphen_of_hyphens (h : Heads kind text)
    (hkind : kind = .literal ['-'] ∨ kind = .literal "-->") : text.head? = some '-' := by
  rcases hkind with rfl | rfl
  · obtain ⟨hlong, _⟩ | ⟨c, rest, heq, rfl, _⟩ := h.literal _ rfl
    · exact absurd hlong (by decide)
    · exact congrArg some (List.head_eq_of_cons_eq heq).symm
  · obtain ⟨tail, rfl⟩ := closingMark_prefix h
    rfl

/-- A name lengthens neither a number sign nor a hyphen where it is kept apart. -/
theorem not_continuesName_of_mark (hbefore : before.isOneOf ['#', '-'] = true)
    (hapart : before.needsComment kind = false) (h : Heads kind text)
    (hhyphen : text.head? ≠ some '-') : continuesName text = false := by
  refine Bool.eq_false_iff.mpr fun hname => ?_
  rcases h.wordlike_of_continuesName hname with hword | hkind
  · simp [not_wordlike_of_apart (.inr (.inl hbefore)) hapart] at hword
  · exact hhyphen (head_hyphen_of_hyphens h hkind)

theorem not_equals_of_apart {c : Char} (hc : c ∈ ['$', '*', '^', '~', '|'])
    (hapart : (Kind.literal [c]).needsComment kind = false) (h : Heads kind text) :
    text.head? ≠ some '=' := by
  intro hhead
  obtain ⟨cs, rfl⟩ := List.head?_eq_some_iff.mp hhead
  obtain ⟨rfl, _⟩ := h.literal_of_head (.inl rfl)
  have hall : ∀ c ∈ ['$', '*', '^', '~', '|'],
      (Kind.literal [c]).needsComment (.literal ['=']) = true := by decide
  simp [hall c hc] at hapart

theorem not_startsDigits_of_apart {c : Char} (hc : c ∈ ['.', '+', '-'])
    (hapart : (Kind.literal [c]).needsComment kind = false) (h : Heads kind text) :
    startsDigits text = false := by
  refine Bool.eq_false_iff.mpr fun hdigits => ?_
  have hall : ∀ c ∈ ['.', '+', '-'], ∀ kind ∈ [Kind.number, .percentage, .dimension],
      (Kind.literal [c]).needsComment kind = true := by decide
  have hkind : kind ∈ [Kind.number, .percentage, .dimension] := by
    have hnumeral := h.numeral_of_startsDigits hdigits
    cases kind <;> simp_all [Kind.startsWithNumeral]
  simp [hall c hc kind hkind] at hapart

theorem not_joins_of_apart {c : Char} (hapart : (Kind.literal [c]).needsComment kind = false)
    (h : Heads kind text) (hruns : (Leaf.literal [c]).runsOn text = false)
    (hbackslash : c = '\\' → text.head? = some '\n') : joins c text = false := by
  unfold joins
  split
  · refine Bool.eq_false_iff.mpr fun hstarts => ?_
    rcases h.ident_of_startsIdent hstarts with hlike | rfl | rfl
    · simp [Kind.needsComment, Kind.isOneOf, hlike] at hapart
    · exact absurd hapart (by decide)
    · obtain ⟨tail, rfl⟩ := closingMark_prefix h
      simp [Leaf.runsOn] at hruns
  · exact not_continuesName_of_mark (by decide) hapart h (by simpa [Leaf.runsOn] using hruns)
  · exact hruns
  · exact hruns
  · have := not_equals_of_apart (by decide) hapart h
    simpa [Leaf.runsOn, this] using hruns
  · simpa using not_equals_of_apart (by decide) hapart h
  · simpa using not_equals_of_apart (by decide) hapart h
  · simpa using not_equals_of_apart (by decide) hapart h
  · simpa using not_equals_of_apart (by decide) hapart h
  · have hhyphen : text.head? ≠ some '-' := by simpa [Leaf.runsOn] using hruns
    have hname := not_continuesName_of_mark (by decide) hapart h hhyphen
    have hclosing : startsClosingMark ('-' :: text) = false := by
      refine Bool.eq_false_iff.mpr fun hclosing => ?_
      obtain ⟨rest, heq⟩ := exists_of_startsClosingMark hclosing
      exact hhyphen (congrArg List.head? (List.cons.inj heq).2)
    simp [not_startsIdent_hyphen hname, hclosing, not_startsDigits_of_apart (by decide) hapart h]
  · exact not_startsDigits_of_apart (by decide) hapart h
  · have := not_startsDigits_of_apart (by decide) hapart h
    exact (Bool.or_eq_false_iff.mp this).1
  · simpa using hbackslash rfl
  · rfl

/-- A leaf that does not run on ends in front of a neighbour that its kind need not be kept from. -/
theorem Leaf.endsBefore_of_heads {value : Leaf} (position : Position)
    (hapart : (Token.leaf position value).kind.needsComment kind = false) (h : Heads kind text)
    (hruns : value.runsOn text = false)
    (hbackslash : value = .literal ['\\'] → text.head? = some '\n') : value.EndsBefore text := by
  cases value with
  | ident name =>
    obtain ⟨hrange, hclosing⟩ := Bool.or_eq_false_iff.mp hruns
    refine ⟨not_continuesName_of_apart rfl hapart h, fun c hc => ?_, hrange, hclosing⟩
    rintro rfl
    change Kind.ident.needsComment kind = false at hapart
    rw [h.round_of_head hc] at hapart
    exact absurd hapart (by decide)
  | atKeyword name => exact not_continuesName_of_apart rfl hapart h
  | hash name isIdent => exact not_continuesName_of_apart rfl hapart h
  | dimension numeral unit => exact not_continuesName_of_apart rfl hapart h
  | number numeral =>
    obtain ⟨hhyphens, hpercent⟩ := Bool.or_eq_false_iff.mp hruns
    obtain ⟨hends, hident⟩ := endsNumeral_of_apart numeral hapart h hhyphens
    refine ⟨hends, hident, fun c hc => ?_⟩
    rintro rfl
    simp [Option.mem_def.mp hc] at hpercent
  | unicodeRange first last => exact endsRange_of_apart hapart h
  | literal found =>
    unfold Leaf.EndsBefore
    split
    all_goals first
      | trivial
      | skip
    rename_i heq
    obtain rfl := Leaf.literal.inj heq
    exact not_joins_of_apart hapart h hruns fun hc => hbackslash (by rw [hc])
  | _ => trivial

end Neighbour

/-! ## How tokens begin -/

theorem Heads.of_head {kind : Kind} {text : Text} (hhead : ∀ c ∈ text.head?, kind.mayStart c = true)
    (hnumeral : kind.startsWithNumeral = false) (hliteral : ∀ found, kind ≠ .literal found) :
    Heads kind text :=
  ⟨hhead, fun h => absurd h (by simp [hnumeral]), fun found h => absurd h (hliteral found)⟩

/-- A text that begins with a neutral character, or is empty, lengthens nothing. -/
theorem Heads.neutral {text : Text} (h : ∀ c ∈ text.head?, isNeutral c = true) : Heads .other text :=
  .of_head h rfl (by simp)

theorem Heads.numeral_append {kind : Kind} {numeral : Text} (h : IsNumeral numeral)
    (hkind : kind = .number ∨ kind = .percentage ∨ kind = .dimension) (rest : Text) :
    Heads kind (numeral ++ rest) := by
  refine ⟨fun c hc => ?_, fun _ => h.not_startsIdent rest, ?_⟩
  · have hc := h.head rest c hc
    rcases hkind with rfl | rfl | rfl <;> simpa [Kind.mayStart, or_assoc] using hc
  · rintro found rfl
    simp at hkind

theorem mayStart_encodeIdent {name : Text} (h : name ≠ []) (rest : Text) :
    ∀ c ∈ (encodeIdent name ++ rest).head?, (isNameStart c || c == '-' || c == '\\') = true := by
  obtain ⟨d, ds, rfl⟩ := List.exists_cons_of_ne_nil h
  exact head_encodeIdent (fun hd => by simp [hd]) (by decide) (by decide) ds rest

theorem isNeutral_of_isWhitespace {c : Char} (h : isWhitespace c = true) : isNeutral c = true := by
  have : (c = ' ' ∨ c = '\n') ∨ c = '\t' := by simpa [isWhitespace] using h
  rcases this with (rfl | rfl) | rfl <;> decide

theorem isNeutral_closer (bracket : Bracket) : isNeutral bracket.closer = true := by
  cases bracket <;> decide

theorem Heads.singleton (kind : Kind) (c : Char) (h : kind.mayStart c = true)
    (hnumeral : kind.startsWithNumeral = false) (hliteral : ∀ found, kind ≠ .literal found)
    (rest : Text) : Heads kind (c :: rest) := by
  refine .of_head (fun d hd => ?_) hnumeral hliteral
  obtain rfl : c = d := by simpa using hd
  exact h

theorem Leaf.heads {value : Leaf} (position : Position) (hsound : value.Sound)
    (hlegible : value.isLegible = true) {rest : Text}
    (hjoins : ∀ c, value = .literal [c] → joins c rest = false) :
    Heads (Token.leaf position value).look (value.write ++ rest) := by
  cases value with
  | whitespace text =>
    obtain ⟨c, cs, rfl⟩ := List.exists_cons_of_ne_nil hsound.1
    exact .singleton .other c (isNeutral_of_isWhitespace (hsound.2 c List.mem_cons_self)) rfl
      (by simp) _
  | literal found =>
    obtain hlong | ⟨c, hlone, _, rfl⟩ := hsound
    · have hne : found ≠ [] := by rintro rfl; exact absurd hlong (by decide)
      refine ⟨fun c hc => ?_, fun h => absurd h ?_, ?_⟩
      · obtain ⟨d, ds, rfl⟩ := List.exists_cons_of_ne_nil hne
        simpa [Leaf.write, Token.look, Token.kind, Kind.mayStart] using hc
      · simp [Token.look, Token.kind, Kind.startsWithNumeral]
      · rintro _ ⟨⟩
        exact .inl ⟨hlong, List.prefix_append _ _⟩
    · refine ⟨fun d hd => ?_, fun h => absurd h ?_, ?_⟩
      · simpa [Leaf.write, Token.look, Token.kind, Kind.mayStart] using hd
      · simp [Token.look, Token.kind, Kind.startsWithNumeral]
      · rintro _ ⟨⟩
        exact .inr ⟨c, rest, rfl, rfl, hlone, hjoins c rfl⟩
  | comment text => exact .singleton .other '/' (by decide) rfl (by simp) _
  | ident name => exact .of_head (mayStart_encodeIdent hsound.1 rest) rfl (by simp [Token.look, Token.kind])
  | atKeyword name => exact .singleton .atKeyword '@' (by decide) rfl (by simp) _
  | hash name isIdent => exact .singleton .hash '#' (by decide) rfl (by simp) _
  | string value closed => exact .singleton .other '"' (by decide) rfl (by simp) _
  | url value closed => exact .singleton .url 'u' (by decide) rfl (by simp) _
  | number numeral => exact .numeral_append hsound (.inl rfl) rest
  | percentage numeral =>
    rw [Leaf.write, List.append_assoc]
    exact .numeral_append hsound (.inr (.inl rfl)) _
  | dimension numeral unit =>
    rw [Leaf.write, List.append_assoc]
    exact .numeral_append hsound.1 (.inr (.inr rfl)) _
  | unicodeRange first last =>
    rw [Leaf.write, writeUnicodeRange_eq]
    exact .singleton .unicodeRange 'U' (by decide) rfl (by simp) _
  | flaw fault =>
    cases fault with
    | unmatched bracket =>
      exact .singleton .other bracket.closer (isNeutral_closer bracket) rfl (by simp) _
    | badUrl => exact .singleton .url 'u' (by decide) rfl (by simp) _
    | _ => exact absurd hlegible (by decide)

theorem Token.heads {token : Token} (hsound : token.Sound) (hlegible : token.isLegible = true)
    {rest : Text} (hjoins : ∀ position c, token = .leaf position (.literal [c]) → joins c rest = false) :
    Heads token.look (token.write ++ rest) := by
  cases hsound with
  | leaf position hvalue =>
    rw [Token.write]
    exact Leaf.heads position hvalue hlegible fun c hc => hjoins position c (by rw [hc])
  | @group position opening content hopening _ _ =>
    cases opening with
    | function name =>
      rw [Token.write, List.append_assoc, List.append_assoc]
      exact .of_head (mayStart_encodeIdent (hopening.named name rfl).1 _) rfl
        (by simp [Token.look, Token.kind])
    | bracket bracket =>
      rw [Token.write]
      cases bracket with
      | round => exact .singleton .round '(' (by decide) rfl (by simp) _
      | curly => exact .singleton .other '\x7b' (by decide) rfl (by simp) _
      | square => exact .singleton .other '[' (by decide) rfl (by simp) _

/-! ## Leaves of a sequence -/

/-- The characters that tell whether a leaf runs on. -/
def isRunMark (c : Char) : Bool :=
  isHexDigit c || ['U', 'u', '+', '?', '-', '>', '%', '!', '|', '*'].contains c

/-- What a text begins with, as far as a leaf looks that may run on into it, another text begins with too. -/
def StartsWithin (text other : Text) : Prop :=
  ∀ start : Text, (∀ c ∈ start, isRunMark c = true) → start <+: text → start <+: other

theorem StartsWithin.cons {text other : Text} (h : StartsWithin text other) (c : Char) :
    StartsWithin (c :: text) (c :: other) := by
  intro start hmarks hstart
  cases start with
  | nil => exact List.nil_prefix
  | cons d ds =>
    obtain ⟨rfl, hrest⟩ := List.cons_prefix_cons.mp hstart
    exact List.cons_prefix_cons.mpr ⟨rfl, h ds (fun e he => hmarks e (List.mem_cons_of_mem _ he)) hrest⟩

theorem StartsWithin.append_left {text other : Text} (h : StartsWithin text other) (front : Text) :
    StartsWithin (front ++ text) (front ++ other) := by
  induction front with
  | nil => exact h
  | cons c front ih => exact ih.cons c

/-- A text that begins with no such character begins within any other one. -/
theorem startsWithin_of_head {text : Text} (h : ∀ c ∈ text.head?, isRunMark c = false) (other : Text) :
    StartsWithin text other := by
  intro start hmarks hstart
  cases start with
  | nil => exact List.nil_prefix
  | cons d ds =>
    obtain ⟨more, rfl⟩ := hstart
    simp [h d rfl] at hmarks

section RunsOn
variable {text other : Text} (hwithin : StartsWithin text other)
include hwithin

theorem isPrefixOf_of_startsWithin {start : Text} (hmarks : ∀ c ∈ start, isRunMark c = true)
    (h : start.isPrefixOf other = false) : start.isPrefixOf text = false := by
  refine Bool.eq_false_iff.mpr fun heq => ?_
  have := List.isPrefixOf_iff_prefix.mpr (hwithin start hmarks (List.isPrefixOf_iff_prefix.mp heq))
  simp [this] at h

theorem head_of_startsWithin {c : Char} (hmark : isRunMark c = true)
    (h : (other.head? == some c) = false) : (text.head? == some c) = false := by
  refine beq_eq_false_iff_ne.mpr fun heq => beq_eq_false_iff_ne.mp h ?_
  obtain ⟨more, rfl⟩ := List.head?_eq_some_iff.mp heq
  obtain ⟨rest, rfl⟩ := hwithin [c] (by simpa using hmark) ⟨more, rfl⟩
  rfl

theorem startsUnicodeRange_of_startsWithin (h : startsUnicodeRange other = false) :
    startsUnicodeRange text = false := by
  refine Bool.eq_false_iff.mpr fun hrange => ?_
  unfold startsUnicodeRange at hrange
  split at hrange
  · rename_i u d tail
    obtain ⟨hu, hd⟩ := Bool.and_eq_true_iff.mp hrange
    have humark : isRunMark u = true := by
      rcases (by simpa using hu : u = 'U' ∨ u = 'u') with rfl | rfl <;> decide
    have hdmark : isRunMark d = true := by
      rcases (by simpa using hd : isHexDigit d = true ∨ d = '?') with hhex | rfl
      · simp [isRunMark, hhex]
      · decide
    have hplus : isRunMark '+' = true := by decide
    obtain ⟨more, rfl⟩ := hwithin [u, '+', d] (by simp [humark, hplus, hdmark]) ⟨tail, rfl⟩
    have hother : startsUnicodeRange (u :: '+' :: d :: more) = true := Bool.and_eq_true_iff.mpr ⟨hu, hd⟩
    exact absurd (hother.symm.trans h) (by decide)
  · exact absurd hrange (by decide)

theorem startsClosingMark_of_startsWithin (h : startsClosingMark other = false) :
    startsClosingMark text = false := by
  refine Bool.eq_false_iff.mpr fun hclosing => ?_
  obtain ⟨tail, rfl⟩ := exists_of_startsClosingMark hclosing
  obtain ⟨more, rfl⟩ := hwithin ['-', '-', '>'] (by decide) ⟨tail, rfl⟩
  exact absurd h (by simp [startsClosingMark])

/-- A leaf does not run on into a text that begins within one that it does not run on into. -/
theorem Leaf.runsOn_of_startsWithin {value : Leaf} (h : value.runsOn other = false) :
    value.runsOn text = false := by
  unfold Leaf.runsOn at h ⊢
  split at h
  · rename_i name
    obtain ⟨hrange, hmark⟩ := Bool.or_eq_false_iff.mp h
    have hname := hwithin.append_left (encodeIdent name)
    exact Bool.or_eq_false_iff.mpr ⟨startsUnicodeRange_of_startsWithin hname hrange,
      startsClosingMark_of_startsWithin hname hmark⟩
  · obtain ⟨hhyphens, hpercent⟩ := Bool.or_eq_false_iff.mp h
    exact Bool.or_eq_false_iff.mpr ⟨isPrefixOf_of_startsWithin hwithin (by decide) hhyphens,
      head_of_startsWithin hwithin (by decide) hpercent⟩
  · exact isPrefixOf_of_startsWithin hwithin (by decide) h
  · exact head_of_startsWithin hwithin (by decide) h
  · exact head_of_startsWithin hwithin (by decide) h
  · exact isPrefixOf_of_startsWithin hwithin (by decide) h
  · exact head_of_startsWithin hwithin (by decide) h
  · exact head_of_startsWithin hwithin (by decide) h
  · rfl

end RunsOn

section Closing
variable {text closing : Text}

theorem not_isRunMark_of_isCloser {c : Char} (h : isCloser c = true) : isRunMark c = false := by
  rcases (by simpa [isCloser, or_assoc] using h : c = '}' ∨ c = ']' ∨ c = ')') with rfl | rfl | rfl <;>
    decide

theorem startsWithin_append_closing (hclosing : ∀ c ∈ closing.head?, isCloser c = true) :
    StartsWithin (text ++ closing) text := by
  have h := startsWithin_of_head (fun c hc => not_isRunMark_of_isCloser (hclosing c hc)) []
  simpa using h.append_left text

/-- A closing bracket behind the text that a leaf does not run into changes nothing. -/
theorem Leaf.runsOn_append_closing {value : Leaf} (hclosing : ∀ d ∈ closing.head?, isCloser d = true)
    (h : value.runsOn text = false) : value.runsOn (text ++ closing) = false :=
  Leaf.runsOn_of_startsWithin (startsWithin_append_closing hclosing) h

theorem legible_cons {token : Token} {rest : List Token} (h : legible (token :: rest) = true) :
    token.isLegible = true ∧ token.runsOn (writeTokensFrom (some token.kind) rest) = false ∧
      token.standsApart rest = true ∧ legible rest = true := by
  simpa [legible, and_assoc] using h

/-- A leaf of a sound and legible sequence ends in front of what is written behind it. -/
theorem Leaf.endsBefore {value : Leaf} {position : Position} {rest : List Token}
    (hsound : SoundAll (.leaf position value :: rest))
    (hlegible : legible (.leaf position value :: rest) = true)
    (hlast : ∀ token ∈ (Token.leaf position value :: rest).getLast?,
      token.isLiteral ['\\'] = false)
    (hclosing : ∀ c ∈ closing.head?, isCloser c = true) :
    value.EndsBefore
      (writeTokensFrom (some (Token.leaf position value).kind) rest ++ closing) := by
  induction rest generalizing position value with
  | nil =>
    have hneutral : ∀ c ∈ closing.head?, isNeutral c = true := by
      intro c hc
      have := hclosing c hc
      rcases (by simpa [isCloser, or_assoc] using this : c = '}' ∨ c = ']' ∨ c = ')') with
        rfl | rfl | rfl <;> decide
    refine Leaf.endsBefore_of_heads position (needsComment_other _) (.neutral hneutral)
      (Leaf.runsOn_append_closing hclosing (legible_cons hlegible).2.1) ?_
    rintro rfl
    exact absurd (hlast _ rfl) (by simp [Token.isLiteral])
  | cons next more ih =>
    have hleads := (List.isChain_cons_cons.mp hsound.chain).1
    obtain ⟨_, hruns, hapart, hmore⟩ := legible_cons hlegible
    have hruns := Leaf.runsOn_append_closing hclosing hruns
    rw [writeTokensFrom, separator_eq hleads.lineFeed] at hruns ⊢
    split at hruns
    · rename_i hneeds
      rw [if_pos hneeds]
      refine Leaf.endsBefore_of_heads position (needsComment_other _) (.neutral ?_) hruns ?_
      · intro c hc
        obtain rfl : '/' = c := by simpa using hc
        decide
      · rintro rfl
        simp [Token.kind, not_needsComment_backslash] at hneeds
    · rename_i hneeds
      rw [if_neg hneeds]
      simp only [List.nil_append, List.append_assoc] at hruns ⊢
      refine Leaf.endsBefore_of_heads position (by simpa [Token.standsApart, hneeds] using hapart)
        (Token.heads (hsound.each next (by simp)) (legible_cons hmore).1 ?_) hruns ?_
      · rintro place c rfl
        exact ih hsound.tail hmore fun token htoken => hlast token (mem_getLast?_cons htoken)
      · rintro rfl
        exact head_of_startsWithLineFeed (hleads (by simp [Token.isLiteral])) _

end Closing

end StyleOrigin.Css
