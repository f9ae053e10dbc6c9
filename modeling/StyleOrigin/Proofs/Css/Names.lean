import Mathlib
import StyleOrigin.Css.Name
import StyleOrigin.Css.Scan

/-! # Names read back

A name is written character by character: a character stands for itself, or an escape stands for it.
Reading what is written gives the name back, whatever follows it that does not continue a name.

* `EscapesTo`, `Stands`: an escape of a character, and the two ways to write a character.
* `scanName_encodeName`, `scanName_encodeIdent`, `scanName_encodeUnit`: names read back.
* `startsIdent_encodeIdent`: a written identifier starts like one.
-/
set_option autoImplicit false

namespace StyleOrigin.Css

/-! ## Classes of characters -/

-- Without this, what holds of the characters of a text would be tried on every character there is.
instance {p : Char → Prop} [DecidablePred p] (text : Text) : Decidable (∀ c ∈ text, p c) :=
  List.decidableBAll p text

theorem isNameChar_of_isDigit {c : Char} (h : c.isDigit = true) : isNameChar c = true := by
  simp [isNameChar, h]

theorem isNameChar_of_isHexDigit {c : Char} (h : isHexDigit c = true) : isNameChar c = true := by
  simp only [isHexDigit, Bool.or_eq_true, Bool.and_eq_true, decide_eq_true_eq, Char.le_def,
    UInt32.le_iff_toNat_le] at h
  rcases h with (hdigit | hlower) | hupper
  · exact isNameChar_of_isDigit hdigit
  · have : c.isAlpha = true := by
      simp [Char.isAlpha, Char.isLower, UInt32.le_iff_toNat_le] at hlower ⊢
      omega
    simp [isNameChar, isNameStart, this]
  · have : c.isAlpha = true := by
      simp [Char.isAlpha, Char.isUpper, UInt32.le_iff_toNat_le] at hupper ⊢
      omega
    simp [isNameChar, isNameStart, this]

theorem mem_digits_of_isDigit {c : Char} (h : c.isDigit = true) : c ∈ "0123456789".toList := by
  have hvalue : 48 ≤ c.toNat ∧ c.toNat ≤ 57 := by
    simpa [Char.isDigit, UInt32.le_iff_toNat_le] using h
  obtain ⟨hlow, hhigh⟩ := hvalue
  have hc : c = Char.ofNat c.toNat := (Char.ofNat_toNat c).symm
  have hall : ∀ n < 58, 48 ≤ n → Char.ofNat n ∈ "0123456789".toList := by decide
  rw [hc]
  exact hall c.toNat (by omega) hlow

/-! ## Escapes -/

/-- What stands behind a backslash is an escape of a character, whatever follows it. -/
def EscapesTo (escape : Text) (c : Char) : Prop :=
  ∀ rest, startsEscape ('\\' :: (escape ++ rest)) = true ∧
    scanEscape (escape ++ rest) = (c, escape.length)

theorem startsEscape_cons {c : Char} (hc : c ≠ '\n') (rest : Text) :
    startsEscape ('\\' :: c :: rest) = true := by
  simp [startsEscape, hc]

theorem takeWhile_append_of_stop {α : Type} {p : α → Bool} {xs : List α} {rest : List α}
    (hxs : ∀ x ∈ xs, p x = true) (hrest : ∀ x ∈ rest.head?, p x = false) :
    (xs ++ rest).takeWhile p = xs := by
  rw [List.takeWhile_append_of_pos hxs]
  cases rest with
  | nil => simp
  | cons y ys => simp [hrest y rfl]

theorem takeWhile_take_append {α : Type} {p : α → Bool} {xs : List α} {rest : List α} {n : Nat}
    (hlen : xs.length ≤ n) (hxs : ∀ x ∈ xs, p x = true) (hrest : ∀ x ∈ rest.head?, p x = false) :
    ((xs ++ rest).take n).takeWhile p = xs := by
  rw [List.take_append, List.take_of_length_le hlen]
  refine takeWhile_append_of_stop hxs fun x hx => hrest x ?_
  rw [List.head?_take] at hx
  split at hx
  · exact absurd hx (by simp)
  · exact hx

theorem takeWhile_take_eq_nil {α : Type} {p : α → Bool} {xs : List α} {n : Nat}
    (h : ∀ x ∈ xs.head?, p x = false) : (xs.take n).takeWhile p = [] := by
  have hnil : ∀ x ∈ ([] : List α), p x = true := by simp
  exact takeWhile_take_append (Nat.zero_le n) hnil h

/-- A hexadecimal numeral with a space behind it is an escape. -/
theorem escapesTo_of_hexValue (digits : Text) {c : Char} (hne : digits ≠ [])
    (hhex : ∀ d ∈ digits, isHexDigit d = true) (hlen : digits.length ≤ 6)
    (hc : escapedChar (hexValue digits) = c) : EscapesTo (digits ++ [' ']) c := by
  intro rest
  obtain ⟨d, ds, rfl⟩ := List.exists_cons_of_ne_nil hne
  have hd : d ≠ '\n' := by
    rintro rfl
    exact absurd (hhex _ List.mem_cons_self) (by decide)
  have htake : (((d :: ds) ++ ' ' :: rest).take 6).takeWhile isHexDigit = d :: ds := by
    refine takeWhile_take_append hlen hhex fun x hx => ?_
    obtain rfl : ' ' = x := by simpa using hx
    decide
  rw [List.append_assoc, List.singleton_append]
  refine ⟨startsEscape_cons hd (ds ++ ' ' :: rest), ?_⟩
  unfold scanEscape
  simp only [htake]
  simp [hc, isWhitespace]

theorem escapesTo_self {c : Char} (hhex : isHexDigit c = false) (hline : c ≠ '\n') :
    EscapesTo [c] c := by
  intro rest
  refine ⟨startsEscape_cons hline _, ?_⟩
  simp [scanEscape, hhex]

/-! ## One character -/

/-- The two ways to write a character: as it is, if it is in a class, or as an escape. -/
def Stands (bare : Char → Bool) (text : Text) (c : Char) : Prop :=
  (bare c = true ∧ text = [c]) ∨ ∃ escape, EscapesTo escape c ∧ text = '\\' :: escape

theorem exists_lineEndEscape {c : Char} {text : Text} (h : lineEndEscape? c = some text) :
    ∃ escape, EscapesTo escape c ∧ text = '\\' :: escape := by
  unfold lineEndEscape? at h
  split at h
  · rename_i hc
    subst hc
    exact ⟨_, escapesTo_of_hexValue ['A'] (by simp) (by decide) (by decide) (by decide),
      (Option.some.inj h).symm⟩
  · split at h
    · rename_i hc
      subst hc
      exact ⟨_, escapesTo_of_hexValue ['D'] (by simp) (by decide) (by decide)
        (by decide), (Option.some.inj h).symm⟩
    · split at h
      · rename_i hc
        subst hc
        exact ⟨_, escapesTo_of_hexValue ['C'] (by simp) (by decide) (by decide)
          (by decide), (Option.some.inj h).symm⟩
      · exact absurd h (by simp)

theorem ne_line_feed_of_lineEndEscape {c : Char} (h : lineEndEscape? c = none) : c ≠ '\n' := by
  rintro rfl
  exact absurd h (by decide)

theorem stands_encodeNameChar (c : Char) : Stands isNameChar (encodeNameChar c) c := by
  unfold encodeNameChar
  by_cases hname : isNameChar c = true
  · exact .inl ⟨hname, by simp [hname]⟩
  · rw [if_neg hname]
    cases hline : lineEndEscape? c with
    | some text => exact .inr (exists_lineEndEscape hline)
    | none =>
      have hhex : isHexDigit c = false :=
        Bool.eq_false_iff.mpr fun hhex => hname (isNameChar_of_isHexDigit hhex)
      exact .inr ⟨_, escapesTo_self hhex (ne_line_feed_of_lineEndEscape hline), rfl⟩

theorem escapesTo_digit {c : Char} (h : c.isDigit = true) :
    EscapesTo (Text.upper (Text.ofNatHex c.toNat) ++ [' ']) c := by
  have hall : ∀ d ∈ "0123456789".toList,
      let digits := Text.upper (Text.ofNatHex d.toNat)
      digits ≠ [] ∧ (∀ x ∈ digits, isHexDigit x = true) ∧ digits.length ≤ 6 ∧
        escapedChar (hexValue digits) = d := by decide
  obtain ⟨hne, hhex, hlen, hvalue⟩ := hall c (mem_digits_of_isDigit h)
  exact escapesTo_of_hexValue _ hne hhex hlen hvalue

theorem isHexDigit_eq_false {c : Char} (hstart : isNameStart c = false) (hdigit : c.isDigit = false) :
    isHexDigit c = false := by
  refine Bool.eq_false_iff.mpr fun hhex => ?_
  have hc : c = '-' := by
    simpa [isNameChar, hstart, hdigit] using isNameChar_of_isHexDigit hhex
  subst hc
  exact absurd hhex (by decide)

/-- The first character of an identifier is written so that it starts one. -/
theorem stands_encodeIdentStart (c : Char) : Stands isNameStart (encodeIdentStart c) c := by
  unfold encodeIdentStart
  by_cases hstart : isNameStart c = true
  · exact .inl ⟨hstart, by simp [hstart]⟩
  · rw [if_neg hstart]
    cases hline : lineEndEscape? c with
    | some text => exact .inr (exists_lineEndEscape hline)
    | none =>
      by_cases hdigit : c.isDigit = true
      · exact .inr ⟨_, escapesTo_digit hdigit, by simp [hdigit]⟩
      · have hhex := isHexDigit_eq_false (by simpa using hstart) (by simpa using hdigit)
        exact .inr ⟨_, escapesTo_self hhex (ne_line_feed_of_lineEndEscape hline), by simp [hdigit]⟩

theorem Stands.mono {bare wider : Char → Bool} (hwider : ∀ c, bare c = true → wider c = true)
    {text : Text} {c : Char} (h : Stands bare text c) : Stands wider text c :=
  h.imp (fun hbare => ⟨hwider c hbare.1, hbare.2⟩) id

/-! ## Whole names -/

/-- Whether a text goes on with a name that stands in front of it. -/
def continuesName (text : Text) : Bool :=
  (text.head?.map isNameChar).getD false || startsEscape text

theorem scanName_of_not_continuesName {text : Text} (h : continuesName text = false) :
    scanName text = ([], 0) := by
  cases text with
  | nil => rfl
  | cons c cs =>
    obtain ⟨hname, hescape⟩ : isNameChar c = false ∧ startsEscape (c :: cs) = false := by
      simpa [continuesName] using h
    simp [scanName, scanNameFrom, hname, hescape]

theorem scanNameFrom_append (passed rest : Text) :
    scanNameFrom passed.length (passed ++ rest) = (scanName rest).map id (· + passed.length) := by
  induction passed with
  | nil => rfl
  | cons c cs ih =>
    rw [List.length_cons, List.cons_append, scanNameFrom, ih]
    simp [Prod.map, Nat.add_assoc]

theorem Stands.scanName_append {text : Text} {c : Char} (h : Stands isNameChar text c) (rest : Text) :
    scanName (text ++ rest) = (scanName rest).map (c :: ·) (· + text.length) := by
  obtain ⟨hbare, rfl⟩ | ⟨escape, hescape, rfl⟩ := h
  · simp [scanName, scanNameFrom, hbare]
  · obtain ⟨hstarts, hscan⟩ := hescape rest
    have hbackslash : isNameChar '\\' = false := by decide
    rw [List.cons_append, scanName, scanNameFrom, if_neg (by simp [hbackslash]), if_pos hstarts]
    simp only [hscan, scanNameFrom_append]
    simp [Prod.map, Nat.add_assoc]

theorem scanName_flatMap {encode : Char → Text} (hencode : ∀ c, Stands isNameChar (encode c) c)
    (name rest : Text) :
    scanName (name.flatMap encode ++ rest) =
      (scanName rest).map (name ++ ·) (· + (name.flatMap encode).length) := by
  induction name with
  | nil => simp
  | cons c cs ih =>
    rw [List.flatMap_cons, List.append_assoc, (hencode c).scanName_append, ih]
    simp only [Prod.map, List.cons_append, List.length_append]
    exact congrArg _ (by omega)

theorem scanName_encodeName (name rest : Text) :
    scanName (encodeName name ++ rest) =
      (scanName rest).map (name ++ ·) (· + (encodeName name).length) :=
  scanName_flatMap stands_encodeNameChar name rest

theorem stands_isNameChar_encodeIdentStart (c : Char) : Stands isNameChar (encodeIdentStart c) c :=
  (stands_encodeIdentStart c).mono fun _ => isNameChar_of_isNameStart

theorem scanName_encodeIdentTail (name rest : Text) :
    scanName (encodeIdentTail name ++ rest) =
      (scanName rest).map (name ++ ·) (· + (encodeIdentTail name).length) := by
  cases name with
  | nil => simp [encodeIdentTail]
  | cons c cs =>
    rw [encodeIdentTail, List.append_assoc,
      (stands_isNameChar_encodeIdentStart c).scanName_append, scanName_encodeName]
    simp [Prod.map, Nat.add_assoc, Nat.add_comm]

theorem stands_hyphen : Stands isNameChar ['-'] '-' :=
  .inl ⟨by decide, rfl⟩

theorem scanName_encodeIdent (name rest : Text) :
    scanName (encodeIdent name ++ rest) =
      (scanName rest).map (name ++ ·) (· + (encodeIdent name).length) := by
  unfold encodeIdent
  split
  · have hescape : Stands isNameChar "\\-" '-' :=
      .inr ⟨['-'], escapesTo_self (by decide) (by decide), rfl⟩
    exact hescape.scanName_append rest
  · rename_i cs
    have htwo := stands_hyphen.scanName_append ('-' :: (encodeName cs ++ rest))
    have hone := stands_hyphen.scanName_append (encodeName cs ++ rest)
    simp only [List.cons_append, List.nil_append] at hone htwo ⊢
    rw [htwo, hone, scanName_encodeName]
    simp [Prod.map, Nat.add_assoc]
  · rename_i cs _ _
    have hone := stands_hyphen.scanName_append (encodeIdentTail cs ++ rest)
    simp only [List.cons_append, List.nil_append] at hone ⊢
    rw [hone, scanName_encodeIdentTail]
    simp [Prod.map, Nat.add_assoc]
  · exact scanName_encodeIdentTail _ rest

/-! ## Where an identifier starts -/

theorem Stands.startsName_append {text : Text} {c : Char} (h : Stands isNameStart text c)
    (rest : Text) : startsName (text ++ rest) = true := by
  obtain ⟨hbare, rfl⟩ | ⟨escape, hescape, rfl⟩ := h
  · simp [startsName, hbare]
  · simp [startsName, (hescape rest).1]

theorem startsIdent_of_startsName {text : Text} (h : startsName text = true) :
    startsIdent text = true := by
  unfold startsIdent
  split
  · rfl
  · exact absurd h (by simp [startsName, startsEscape]; decide)
  · exact h

theorem startsIdent_of_isNameStart {c : Char} (h : isNameStart c = true) (cs : Text) :
    startsIdent (c :: cs) = true :=
  startsIdent_of_startsName (by simp [startsName, h])

theorem not_starts_of_not_startsIdent {c : Char} {cs : Text} (h : startsIdent (c :: cs) = false) :
    isNameStart c = false ∧ startsEscape (c :: cs) = false := by
  have hname : startsName (c :: cs) = false :=
    Bool.eq_false_iff.mpr fun hname => absurd (startsIdent_of_startsName hname) (by simp [h])
  simpa [startsName] using hname

theorem startsIdent_hyphen_of_startsName {text : Text} (h : startsName text = true) :
    startsIdent ('-' :: text) = true := by
  unfold startsIdent
  split
  · rfl
  · rename_i heq
    exact (List.cons.inj heq).2 ▸ h
  · rename_i hne
    exact absurd rfl (hne text)

theorem not_starts_behind_hyphen {d : Char} {ds : Text} (h : startsIdent ('-' :: d :: ds) = false) :
    isNameStart d = false ∧ startsEscape (d :: ds) = false ∧ d ≠ '-' := by
  have hname : startsName (d :: ds) = false :=
    Bool.eq_false_iff.mpr fun hname => absurd (startsIdent_hyphen_of_startsName hname) (by simp [h])
  have hhyphen : d ≠ '-' := by
    rintro rfl
    exact absurd h (by simp [startsIdent])
  obtain ⟨hstart, hescape⟩ : isNameStart d = false ∧ startsEscape (d :: ds) = false := by
    simpa [startsName] using hname
  exact ⟨hstart, hescape, hhyphen⟩

theorem startsName_encodeIdentTail {name : Text} (h : name ≠ []) (rest : Text) :
    startsName (encodeIdentTail name ++ rest) = true := by
  obtain ⟨c, cs, rfl⟩ := List.exists_cons_of_ne_nil h
  rw [encodeIdentTail, List.append_assoc]
  exact (stands_encodeIdentStart c).startsName_append _

theorem startsIdent_encodeIdent {name : Text} (h : name ≠ []) (rest : Text) :
    startsIdent (encodeIdent name ++ rest) = true := by
  unfold encodeIdent
  split
  · exact startsIdent_of_startsName rfl
  · rfl
  · rename_i cs hcs _
    refine startsIdent_hyphen_of_startsName (startsName_encodeIdentTail ?_ rest)
    rintro rfl
    exact hcs rfl
  · exact startsIdent_of_startsName (startsName_encodeIdentTail h rest)

/-! ## Units -/

/-- Whether a unit would read as an exponent: the letter E alone or before a hyphen. -/
def looksLikeExponent : Text → Bool
  | e :: cs => (e = 'e' || e = 'E') && (cs.isEmpty || cs.head? = some '-')
  | [] => false

/-- A unit as it is read back: where its letter E is escaped, it comes back small. -/
def settledUnit (unit : Text) : Text :=
  if looksLikeExponent unit then 'e' :: unit.tail else unit

theorem encodeUnit_eq (unit : Text) :
    encodeUnit unit =
      if looksLikeExponent unit then "\\65 " ++ encodeName unit.tail else encodeIdent unit := by
  cases unit <;> rfl

/-- The escape that a unit begins with where its letter E would make an exponent. -/
theorem stands_escapedExponent : Stands isNameStart "\\65 " 'e' :=
  .inr ⟨"65 ", escapesTo_of_hexValue "65" (by decide) (by decide) (by decide)
    (by decide), rfl⟩

theorem settledUnit_cases (unit : Text) :
    settledUnit unit = unit ∨ ∃ e cs, unit = e :: cs ∧ settledUnit unit = 'e' :: cs ∧
      looksLikeExponent unit = true ∧ looksLikeExponent ('e' :: cs) = true := by
  unfold settledUnit
  cases hunit : looksLikeExponent unit with
  | false => exact .inl rfl
  | true =>
    cases unit with
    | nil => exact absurd hunit (by decide)
    | cons e cs =>
      exact .inr ⟨e, cs, rfl, rfl, rfl, by
        simpa [looksLikeExponent] using (Bool.and_eq_true_iff.mp hunit).2⟩

theorem settledUnit_settledUnit (unit : Text) : settledUnit (settledUnit unit) = settledUnit unit := by
  obtain h | ⟨e, cs, rfl, h, _, hlooks⟩ := settledUnit_cases unit
  · rw [h, h]
  · rw [h, settledUnit, if_pos hlooks]
    rfl

theorem encodeUnit_settledUnit (unit : Text) : encodeUnit (settledUnit unit) = encodeUnit unit := by
  obtain h | ⟨e, cs, rfl, h, hunit, hlooks⟩ := settledUnit_cases unit
  · rw [h]
  · rw [h, encodeUnit_eq, encodeUnit_eq, if_pos hunit, if_pos hlooks]
    rfl

theorem scanName_encodeUnit (unit rest : Text) :
    scanName (encodeUnit unit ++ rest) =
      (scanName rest).map (settledUnit unit ++ ·) (· + (encodeUnit unit).length) := by
  rw [encodeUnit_eq, settledUnit]
  split
  · have hescape := stands_escapedExponent.mono fun _ => isNameChar_of_isNameStart
    rw [List.append_assoc, hescape.scanName_append, scanName_encodeName]
    simp only [Prod.map, List.cons_append, List.length_append]
    exact congrArg _ (by omega)
  · exact scanName_encodeIdent unit rest

theorem startsIdent_encodeUnit {unit : Text} (h : unit ≠ []) (rest : Text) :
    startsIdent (encodeUnit unit ++ rest) = true := by
  rw [encodeUnit_eq]
  split
  · rw [List.append_assoc]
    exact startsIdent_of_startsName (stands_escapedExponent.startsName_append _)
  · exact startsIdent_encodeIdent h rest

end StyleOrigin.Css
