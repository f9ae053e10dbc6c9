import StyleOrigin.Css.Nesting
import StyleOrigin.Css.Write
import StyleOrigin.Proofs.Css.Names

/-! # Numerals and code point ranges read back

A numeral is a sign, digits, a fraction and an exponent, of which the digits or the fraction are there.
It is read back in front of any text that does not lengthen it. Without a fraction and an exponent it is
an integer, and too long an integer keeps a text from being read.

* `IsNumeral`: the shape of numerals, which is the shape of what is read as one.
* `IsNumeral.scanNumeral_append`: a numeral read back.
* `IsInteger`, `exists_tokens_iff`: the shape of integers, and the texts that are read for the sake of
  their integers.
* `scanUnicodeRange_write`: a code point range read back.
-/
set_option autoImplicit false

namespace StyleOrigin.Css

/-! ## The parts of a numeral -/

def IsSign (sign : Text) : Prop :=
  sign = [] ∨ sign = ['+'] ∨ sign = ['-']

/-- A point with digits behind it, or nothing. -/
def IsFraction (fraction : Text) : Prop :=
  fraction = [] ∨ ∃ digits : Text, digits ≠ [] ∧ (∀ d ∈ digits, d.isDigit = true) ∧
    fraction = '.' :: digits

/-- A letter E with a sign and digits behind it, or nothing. -/
def IsExponent (exponent : Text) : Prop :=
  exponent = [] ∨ ∃ (e : Char) (sign digits : Text), (e = 'e' ∨ e = 'E') ∧ IsSign sign ∧
    digits ≠ [] ∧ (∀ d ∈ digits, d.isDigit = true) ∧ exponent = e :: (sign ++ digits)

/-- The shape of a numeral. -/
def IsNumeral (numeral : Text) : Prop :=
  ∃ sign whole fraction exponent : Text, IsSign sign ∧ (∀ d ∈ whole, d.isDigit = true) ∧
    IsFraction fraction ∧ IsExponent exponent ∧ whole ++ fraction ≠ [] ∧
    numeral = sign ++ (whole ++ (fraction ++ exponent))

theorem isSign_scanSign (text : Text) : IsSign (scanSign text) := by
  unfold scanSign
  split
  · split
    · rename_i h
      exact .inr ((by simpa using h : _ ∨ _).imp (congrArg (· :: [])) (congrArg (· :: [])))
    · exact .inl rfl
  · exact .inl rfl

theorem isDigit_of_mem_takeWhile {text : Text} {d : Char} (h : d ∈ text.takeWhile Char.isDigit) :
    d.isDigit = true :=
  List.all_eq_true.mp List.all_takeWhile d h

theorem isFraction_scanFraction (text : Text) : IsFraction (scanFraction text) := by
  unfold scanFraction
  split
  · split
    · exact .inl rfl
    · rename_i cs digits hne
      exact .inr ⟨_, hne, fun d => isDigit_of_mem_takeWhile, rfl⟩
  · exact .inl rfl

theorem isExponent_scanExponent (text : Text) : IsExponent (scanExponent text) := by
  unfold scanExponent
  split
  · split
    · rename_i he
      simp only
      split
      · exact .inl rfl
      · rename_i hne
        exact .inr ⟨_, _, _, by simpa using he, isSign_scanSign _, hne,
          fun d => isDigit_of_mem_takeWhile, rfl⟩
    · exact .inl rfl
  · exact .inl rfl

theorem isNumeral_of_scanNumeral {text numeral : Text} (h : scanNumeral text = some numeral) :
    IsNumeral numeral := by
  simp only [scanNumeral] at h
  split at h
  · exact absurd h (by simp)
  · rename_i hdigits
    have heq := (Option.some.inj h).symm
    rw [List.append_assoc, List.append_assoc] at heq
    exact ⟨_, _, _, _, isSign_scanSign text, fun d => isDigit_of_mem_takeWhile,
      isFraction_scanFraction _, isExponent_scanExponent _, by simpa using hdigits, heq⟩

/-! ## Integers -/

/-- The shape of an integer with so many digits. -/
def IsInteger (numeral : Text) (digits : Nat) : Prop :=
  ∃ sign whole : Text, IsSign sign ∧ (∀ d ∈ whole, d.isDigit = true) ∧ numeral = sign ++ whole ∧
    whole.length = digits

theorem isDigit_ne_sign {d : Char} (h : d.isDigit = true) : d ≠ '+' ∧ d ≠ '-' := by
  constructor <;> rintro rfl <;> exact absurd h (by decide)

theorem scanSign_append {sign rest : Text} (hsign : IsSign sign)
    (hrest : ∀ c ∈ rest.head?, c ≠ '+' ∧ c ≠ '-') : scanSign (sign ++ rest) = sign := by
  rcases hsign with rfl | rfl | rfl
  · cases rest with
    | nil => rfl
    | cons c cs =>
      have := hrest c rfl
      simp [scanSign, this.1, this.2]
  · rfl
  · rfl

theorem scanSign_append_drop (text : Text) : scanSign text ++ text.drop (scanSign text).length = text := by
  cases text with
  | nil => rfl
  | cons c cs => by_cases hsign : c = '+' ∨ c = '-' <;> simp [scanSign, hsign]

theorem integerDigits?_eq_some_iff {numeral : Text} {digits : Nat} :
    integerDigits? numeral = some digits ↔ IsInteger numeral digits := by
  constructor
  · intro h
    simp only [integerDigits?, Option.ite_none_right_eq_some, Option.some.injEq] at h
    exact ⟨scanSign numeral, _, isSign_scanSign numeral, List.all_eq_true.mp h.1,
      (scanSign_append_drop numeral).symm, h.2⟩
  · rintro ⟨sign, whole, hsign, hwhole, rfl, hlength⟩
    have hscan : scanSign (sign ++ whole) = sign :=
      scanSign_append hsign fun c hc => isDigit_ne_sign (hwhole c (List.mem_of_mem_head? hc))
    simp [integerDigits?, hscan, hlength, List.all_eq_true.mpr hwhole]

def Lexeme.numeral? : Lexeme → Option Text
  | .leaf value => value.numeral?
  | _ => none

/-- The numerals of a text: those of its numbers, percentages and dimensions. -/
def numeralsOf (text : Text) : List Text :=
  (lexemes text).filterMap fun lexeme => lexeme.2.numeral?

theorem Lexeme.overlong?_eq_none_iff (lexeme : Lexeme) :
    lexeme.overlong? = none ↔ ∀ numeral ∈ lexeme.numeral?, ∀ digits, IsInteger numeral digits →
      digits ≤ OverlongInteger.limit := by
  cases lexeme with
  | leaf value =>
    cases hnumeral : value.numeral? with
    | none => simp [overlong?, numeral?, hnumeral]
    | some numeral =>
      simp only [numeral?, hnumeral, Option.mem_some_iff, forall_eq', ← integerDigits?_eq_some_iff]
      cases hdigits : integerDigits? numeral <;>
        simp [overlong?, hnumeral, hdigits, OverlongInteger.ofDigits?]
  | opens opening => simp [overlong?, numeral?]
  | closes bracket => simp [overlong?, numeral?]

/-- A text is read unless one of its numerals is an integer with too many digits. -/
theorem exists_tokens_iff (keepComments : Bool) (text : Text) :
    (∃ found, tokens keepComments text = .ok found) ↔
      ∀ numeral ∈ numeralsOf text, ∀ digits, IsInteger numeral digits →
        digits ≤ OverlongInteger.limit := by
  have hread : (∃ found, tokens keepComments text = .ok found) ↔
      (lexemes text).findSome? (·.2.overlong?) = none := by
    cases hfault : (lexemes text).findSome? (·.2.overlong?) <;> simp [tokens, hfault]
  simp only [hread, List.findSome?_eq_none_iff, Lexeme.overlong?_eq_none_iff, numeralsOf,
    List.mem_filterMap]
  exact ⟨fun h numeral ⟨lexeme, hlexeme, hnumeral⟩ => h lexeme hlexeme numeral hnumeral,
    fun h lexeme hlexeme numeral hnumeral => h numeral ⟨lexeme, hlexeme, hnumeral⟩⟩

/-! ## Reading a numeral back -/

def hasExponent (numeral : Text) : Bool :=
  numeral.any fun c => c == 'e' || c == 'E'

/-- Whether a text does not lengthen a numeral in front of it. -/
structure EndsNumeral (numeral rest : Text) : Prop where
  digit : ∀ c ∈ rest.head?, c.isDigit = false
  fraction : scanFraction rest = []
  exponent : hasExponent numeral = true ∨ scanExponent rest = []

theorem head_append_digits {digits rest : Text} (hne : digits ≠ [])
    (hdigits : ∀ d ∈ digits, d.isDigit = true) : ∀ c ∈ (digits ++ rest).head?, c.isDigit = true := by
  obtain ⟨d, ds, rfl⟩ := List.exists_cons_of_ne_nil hne
  intro c hc
  obtain rfl : d = c := by simpa using hc
  exact hdigits _ List.mem_cons_self

theorem scanExponent_append {exponent rest : Text} (hexponent : IsExponent exponent)
    (hrest : ∀ c ∈ rest.head?, c.isDigit = false) (hnone : exponent = [] → scanExponent rest = []) :
    scanExponent (exponent ++ rest) = exponent := by
  obtain rfl | ⟨e, sign, digits, he, hsign, hne, hdigits, rfl⟩ := hexponent
  · exact hnone rfl
  · have hscan : scanSign (sign ++ (digits ++ rest)) = sign :=
      scanSign_append hsign fun c hc => isDigit_ne_sign (head_append_digits hne hdigits c hc)
    have htake : (digits ++ rest).takeWhile Char.isDigit = digits :=
      takeWhile_append_of_stop hdigits hrest
    obtain ⟨d, ds, hcons⟩ := List.exists_cons_of_ne_nil hne
    rw [List.cons_append, scanExponent, if_pos (by simpa using he)]
    simp only [List.append_assoc, hscan, List.drop_left, htake]
    rw [hcons]
    rfl

theorem head_exponent {exponent : Text} (h : IsExponent exponent) :
    ∀ c ∈ exponent.head?, c = 'e' ∨ c = 'E' := by
  obtain rfl | ⟨e, sign, digits, he, _, _, _, rfl⟩ := h
  · simp
  · intro c hc
    obtain rfl : e = c := by simpa using hc
    exact he

theorem head_append {first second : Text} {p : Char → Prop} (hfirst : ∀ c ∈ first.head?, p c)
    (hsecond : ∀ c ∈ second.head?, p c) : ∀ c ∈ (first ++ second).head?, p c := by
  cases first with
  | nil => exact hsecond
  | cons c cs => exact hfirst

theorem scanFraction_append {fraction rest : Text} (hfraction : IsFraction fraction)
    (hrest : ∀ c ∈ rest.head?, c.isDigit = false) (hnone : fraction = [] → scanFraction rest = []) :
    scanFraction (fraction ++ rest) = fraction := by
  obtain rfl | ⟨digits, hne, hdigits, rfl⟩ := hfraction
  · exact hnone rfl
  · have htake : (digits ++ rest).takeWhile Char.isDigit = digits :=
      takeWhile_append_of_stop hdigits hrest
    obtain ⟨d, ds, hcons⟩ := List.exists_cons_of_ne_nil hne
    rw [List.cons_append, scanFraction, htake, hcons]

theorem scanFraction_eq_nil {text : Text} (h : ∀ c ∈ text.head?, c ≠ '.') : scanFraction text = [] := by
  unfold scanFraction
  split
  · exact absurd rfl (h '.' rfl)
  · rfl

theorem hasExponent_of_exponent_eq_nil {sign whole fraction : Text} (hsign : IsSign sign)
    (hwhole : ∀ d ∈ whole, d.isDigit = true) (hfraction : IsFraction fraction) :
    hasExponent (sign ++ (whole ++ fraction)) = false := by
  have hdigit : ∀ d : Char, d.isDigit = true → (d == 'e' || d == 'E') = false := by
    intro d hd
    refine Bool.eq_false_iff.mpr fun he => ?_
    rcases (by simpa using he : d = 'e' ∨ d = 'E') with rfl | rfl <;> exact absurd hd (by decide)
  have hfractions : fraction.any (fun c => c == 'e' || c == 'E') = false := by
    obtain rfl | ⟨digits, _, hdigits, rfl⟩ := hfraction
    · rfl
    · rw [List.any_cons]
      exact List.any_eq_false.mpr fun d hd => by simp [hdigit d (hdigits d hd)]
  have hwholes : whole.any (fun c => c == 'e' || c == 'E') = false :=
    List.any_eq_false.mpr fun d hd => by simp [hdigit d (hwhole d hd)]
  rw [hasExponent, List.any_append, List.any_append, hfractions, hwholes]
  rcases hsign with rfl | rfl | rfl <;> rfl

theorem exists_cons_digits {whole fraction : Text} (hwhole : ∀ d ∈ whole, d.isDigit = true)
    (hfraction : IsFraction fraction) (hne : whole ++ fraction ≠ []) :
    ∃ d ds, whole ++ fraction = d :: ds ∧ (d.isDigit = true ∨ d = '.') := by
  cases whole with
  | cons d ds => exact ⟨d, ds ++ fraction, rfl, .inl (hwhole d List.mem_cons_self)⟩
  | nil =>
    obtain rfl | ⟨digits, _, _, rfl⟩ := hfraction
    · exact absurd rfl hne
    · exact ⟨'.', digits, rfl, .inr rfl⟩

/-- A numeral is read back in front of a text that does not lengthen it. -/
theorem IsNumeral.scanNumeral_append {numeral rest : Text} (h : IsNumeral numeral)
    (hrest : EndsNumeral numeral rest) : scanNumeral (numeral ++ rest) = some numeral := by
  obtain ⟨sign, whole, fraction, exponent, hsign, hwhole, hfraction, hexponent, hne, rfl⟩ := h
  have hexponentHead : ∀ c ∈ (exponent ++ rest).head?, c.isDigit = false :=
    head_append (fun c hc => by rcases head_exponent hexponent c hc with rfl | rfl <;> rfl) hrest.digit
  have hfractionHead : ∀ c ∈ (fraction ++ (exponent ++ rest)).head?, c.isDigit = false := by
    refine head_append (fun c hc => ?_) hexponentHead
    obtain rfl | ⟨digits, _, _, rfl⟩ := hfraction
    · simp at hc
    · obtain rfl : '.' = c := by simpa using hc
      rfl
  have hscanExponent : scanExponent (exponent ++ rest) = exponent := by
    refine scanExponent_append hexponent hrest.digit fun hnil => ?_
    refine hrest.exponent.resolve_left ?_
    rw [hnil, List.append_nil, hasExponent_of_exponent_eq_nil hsign hwhole hfraction]
    exact Bool.false_ne_true
  have hscanFraction : scanFraction (fraction ++ (exponent ++ rest)) = fraction := by
    refine scanFraction_append hfraction hexponentHead fun _ => ?_
    cases exponent with
    | nil => exact hrest.fraction
    | cons e es =>
      refine scanFraction_eq_nil fun c hc => ?_
      rcases head_exponent hexponent c hc with rfl | rfl <;> decide
  have hscanSign : scanSign (sign ++ (whole ++ (fraction ++ (exponent ++ rest)))) = sign := by
    obtain ⟨d, ds, hcons, hd⟩ := exists_cons_digits hwhole hfraction hne
    rw [← List.append_assoc whole, hcons]
    refine scanSign_append hsign fun c hc => ?_
    obtain rfl : d = c := by simpa using hc
    rcases hd with hdigit | rfl
    · exact isDigit_ne_sign hdigit
    · decide
  have htake : (whole ++ (fraction ++ (exponent ++ rest))).takeWhile Char.isDigit = whole :=
    takeWhile_append_of_stop hwhole hfractionHead
  have hdigits : (whole ++ fraction).isEmpty = false := by
    rw [List.isEmpty_eq_false_iff]
    exact hne
  have hdrop : (whole ++ (fraction ++ (exponent ++ rest))).drop (whole ++ fraction).length =
      exponent ++ rest := by
    rw [← List.append_assoc, List.drop_left]
  simp only [scanNumeral, List.append_assoc, hscanSign, List.drop_left, htake, hscanFraction, hdigits,
    hdrop, hscanExponent, Bool.false_eq_true, if_false]

/-- A numeral begins with a digit or a point, or with a sign in front of one of these. -/
theorem IsNumeral.exists_cons {numeral : Text} (h : IsNumeral numeral) :
    ∃ d ds, (d.isDigit = true ∨ d = '.') ∧
      (numeral = d :: ds ∨ numeral = '+' :: d :: ds ∨ numeral = '-' :: d :: ds) := by
  obtain ⟨sign, whole, fraction, exponent, hsign, hwhole, hfraction, _, hne, rfl⟩ := h
  obtain ⟨d, ds, hcons, hd⟩ := exists_cons_digits hwhole hfraction hne
  rw [← List.append_assoc whole, hcons]
  refine ⟨d, ds ++ exponent, hd, ?_⟩
  rcases hsign with rfl | rfl | rfl
  · exact .inl rfl
  · exact .inr (.inl rfl)
  · exact .inr (.inr rfl)

/-! ## Code point ranges -/

/-- The hexadecimal numeral of a code point in a range. -/
def hexNumeral (n : Nat) : Text :=
  Text.upper (Text.ofNatHex n)

theorem hexNumeral_of_lt {n : Nat} (h : n < 16) : hexNumeral n = [n.digitChar.toUpper] := by
  simp [hexNumeral, Text.ofNatHex, Text.upper, Nat.toDigits_of_lt_base h]

theorem hexNumeral_of_le {n : Nat} (h : 16 ≤ n) :
    hexNumeral n = hexNumeral (n / 16) ++ [(n % 16).digitChar.toUpper] := by
  simp [hexNumeral, Text.ofNatHex, Text.upper, Nat.toDigits_of_base_le (by decide : 1 < 16) h]

theorem hexDigit_digitChar {n : Nat} (h : n < 16) :
    isHexDigit n.digitChar.toUpper = true ∧ hexDigitValue n.digitChar.toUpper = n := by
  have hall : ∀ n < 16, isHexDigit (Nat.digitChar n).toUpper = true ∧
      hexDigitValue (Nat.digitChar n).toUpper = n := by decide
  exact hall n h

theorem isHexDigit_of_mem_hexNumeral {n : Nat} {c : Char} (h : c ∈ hexNumeral n) :
    isHexDigit c = true := by
  induction n using Nat.strongRecOn with
  | _ n ih =>
    rcases Nat.lt_or_ge n 16 with hlt | hle
    · rw [hexNumeral_of_lt hlt, List.mem_singleton] at h
      exact h ▸ (hexDigit_digitChar hlt).1
    · rw [hexNumeral_of_le hle, List.mem_append, List.mem_singleton] at h
      rcases h with h | rfl
      · exact ih (n / 16) (by omega) h
      · exact (hexDigit_digitChar (Nat.mod_lt n (by decide))).1

theorem hexValue_append_singleton (digits : Text) (d : Char) :
    hexValue (digits ++ [d]) = hexValue digits * 16 + hexDigitValue d := by
  simp [hexValue]

theorem hexValue_hexNumeral (n : Nat) : hexValue (hexNumeral n) = n := by
  induction n using Nat.strongRecOn with
  | _ n ih =>
    rcases Nat.lt_or_ge n 16 with hlt | hle
    · rw [hexNumeral_of_lt hlt]
      simp [hexValue, (hexDigit_digitChar hlt).2]
    · rw [hexNumeral_of_le hle, hexValue_append_singleton, ih (n / 16) (by omega),
        (hexDigit_digitChar (Nat.mod_lt n (by decide))).2]
      omega

theorem hexNumeral_ne_nil (n : Nat) : hexNumeral n ≠ [] := by
  simp [hexNumeral, Text.ofNatHex, Text.upper, Nat.toDigits_ne_nil]

theorem length_hexNumeral_le {n : Nat} (h : n < 16 ^ 6) : (hexNumeral n).length ≤ 6 := by
  rw [hexNumeral, Text.upper, List.length_map]
  exact (Nat.length_toDigits_le_iff (by decide) (by decide)).mpr h

theorem writeUnicodeRange_eq (first last : Nat) :
    writeUnicodeRange first last =
      "U+" ++ (hexNumeral first ++ (if first = last then [] else '-' :: hexNumeral last)) := by
  unfold writeUnicodeRange
  split <;> simp [hexNumeral]

/-- Whether a text does not lengthen a code point range in front of it. -/
structure EndsRange (rest : Text) : Prop where
  digit : ∀ c ∈ rest.head?, isHexDigit c = false
  mark : ∀ c ∈ rest.head?, c ≠ '?'
  last : ∀ c cs, rest = '-' :: c :: cs → isHexDigit c = false

theorem scanUnicodeRange_hexNumeral {first : Nat} (hfirst : first < 16 ^ 6) (rest : Text) :
    (∀ c ∈ rest.head?, isHexDigit c = false) → (∀ c ∈ rest.head?, c ≠ '?') →
    scanUnicodeRange (hexNumeral first ++ rest) =
      match rest with
      | '-' :: cs =>
        match (cs.take 6).takeWhile isHexDigit with
        | [] => (first, first, (hexNumeral first).length)
        | last => (first, hexValue last, (hexNumeral first).length + 1 + last.length)
      | _ => (first, first, (hexNumeral first).length) := by
  intro hdigit hmark
  have hdigits : ((hexNumeral first ++ rest).take 6).takeWhile isHexDigit = hexNumeral first :=
    takeWhile_take_append (length_hexNumeral_le hfirst) (fun _ => isHexDigit_of_mem_hexNumeral) hdigit
  have hmarks : (rest.take (6 - (hexNumeral first).length)).takeWhile (· == '?') = [] :=
    takeWhile_take_eq_nil fun c hc => by simp [hmark c hc]
  simp only [scanUnicodeRange, hdigits, List.drop_left, hmarks, hexValue_hexNumeral,
    List.isEmpty_nil, Bool.not_true, Bool.false_eq_true, if_false, List.length_nil, Nat.add_zero]
  rfl

theorem scanUnicodeRange_write {first last : Nat} {rest : Text} (hfirst : first < 16 ^ 6)
    (hlast : last < 16 ^ 6) (hrest : EndsRange rest) :
    scanUnicodeRange ((writeUnicodeRange first last).drop 2 ++ rest) =
      (first, last, (writeUnicodeRange first last).length - 2) := by
  have hdrop (text : Text) : ("U+" ++ text : Text).drop 2 = text := rfl
  have hlength (text : Text) : ("U+" ++ text : Text).length - 2 = text.length := rfl
  rw [writeUnicodeRange_eq, hdrop, hlength]
  by_cases heq : first = last
  · subst heq
    rw [if_pos rfl, List.append_nil,
      scanUnicodeRange_hexNumeral hfirst rest hrest.digit hrest.mark]
    split
    · rename_i cs
      have hnone : (cs.take 6).takeWhile isHexDigit = [] :=
        takeWhile_take_eq_nil fun c hc => by
          obtain ⟨ds, rfl⟩ : ∃ ds, cs = c :: ds := List.head?_eq_some_iff.mp hc
          exact hrest.last c ds rfl
      rw [hnone]
    · rfl
  · have hsome : ((hexNumeral last ++ rest).take 6).takeWhile isHexDigit = hexNumeral last :=
      takeWhile_take_append (length_hexNumeral_le hlast) (fun _ => isHexDigit_of_mem_hexNumeral)
        hrest.digit
    have hhyphen : ∀ c ∈ ('-' :: (hexNumeral last ++ rest)).head?, isHexDigit c = false ∧ c ≠ '?' := by
      intro c hc
      obtain rfl : '-' = c := by simpa using hc
      decide
    obtain ⟨d, ds, hcons⟩ := List.exists_cons_of_ne_nil (hexNumeral_ne_nil last)
    rw [if_neg heq, List.append_assoc, List.cons_append,
      scanUnicodeRange_hexNumeral hfirst _ (fun c hc => (hhyphen c hc).1) fun c hc => (hhyphen c hc).2]
    simp only [hsome]
    rw [hcons]
    simp only [← hcons, hexValue_hexNumeral, List.length_append, List.length_cons]
    exact congrArg (fun n => (first, last, n)) (by omega)

end StyleOrigin.Css
