import StyleOrigin.Proofs.Css.Names

/-! # Strings, addresses and comments read back

What is written between the marks of a string, an address or a comment is read back up to the closing
mark, and the reader stops right behind it.

* `Quotation.behind`: a quotation with more in front of it.
* `scanString_encodeString`, `scanUrl_encodeUrl`: quoted values read back.
* `scanComment_append`: a comment read back.
-/
set_option autoImplicit false

namespace StyleOrigin.Css

/-! ## Escapes inside quotations -/

theorem EscapesTo.exists_cons {escape : Text} {c : Char} (h : EscapesTo escape c) :
    ∃ d ds, escape = d :: ds ∧ d ≠ '\n' := by
  cases escape with
  | nil => exact absurd (h ['\n']).1 (by decide)
  | cons d ds =>
    refine ⟨d, ds, rfl, ?_⟩
    rintro rfl
    exact absurd (h []).1 (by simp [startsEscape])

/-- A quotation with a value in front of its own, which took a number of characters. -/
def Quotation.behind (value : Text) (taken : Nat) (quotation : Quotation) : Quotation :=
  ⟨value ++ quotation.value, quotation.ending, quotation.length + taken⟩

namespace Quotation

theorem pass_behind (value : Text) (taken : Nat) (quotation : Quotation) :
    (quotation.behind value taken).pass = quotation.behind value (taken + 1) := rfl

theorem push_behind (c : Char) (value : Text) (taken : Nat) (quotation : Quotation) :
    (quotation.behind value taken).push c = quotation.behind (c :: value) (taken + 1) := rfl

end Quotation

/-! ## Strings -/

/-- A character that stands for itself between double marks. -/
def isBareInString (c : Char) : Bool :=
  c != '"' && c != '\\' && c != '\n'

theorem stands_encodeStringChar (c : Char) : Stands isBareInString (encodeStringChar c) c := by
  unfold encodeStringChar
  split
  · rename_i h
    refine .inr ⟨[c], escapesTo_self ?_ ?_, rfl⟩ <;>
      rcases (by simpa using h : c = '"' ∨ c = '\\') with rfl | rfl <;> decide
  · rename_i h
    obtain ⟨hquote, hbackslash⟩ : c ≠ '"' ∧ c ≠ '\\' := by simpa using h
    cases hline : lineEndEscape? c with
    | some text => exact .inr (exists_lineEndEscape hline)
    | none =>
      have := ne_line_feed_of_lineEndEscape hline
      exact .inl ⟨by simp [isBareInString, hquote, hbackslash, this], rfl⟩

theorem scanStringFrom_append (mark : Char) (passed rest : Text) :
    scanStringFrom mark passed.length (passed ++ rest) =
      (scanString mark rest).behind [] passed.length := by
  induction passed with
  | nil => rfl
  | cons c cs ih =>
    rw [List.length_cons, List.cons_append, scanStringFrom, ih, Quotation.pass_behind]

theorem Stands.scanString_append {text : Text} {c : Char} (h : Stands isBareInString text c)
    (rest : Text) :
    scanString '"' (text ++ rest) = (scanString '"' rest).behind [c] text.length := by
  obtain ⟨hbare, rfl⟩ | ⟨escape, hescape, rfl⟩ := h
  · obtain ⟨⟨hquote, hbackslash⟩, hline⟩ : (c ≠ '"' ∧ c ≠ '\\') ∧ c ≠ '\n' := by
      simpa [isBareInString] using hbare
    simp only [scanString, List.cons_append, List.nil_append, scanStringFrom, hquote, hbackslash,
      hline, if_false]
    rfl
  · obtain ⟨d, ds, rfl, hd⟩ := hescape.exists_cons
    have hscan := (hescape rest).2
    have hhead : ((d :: ds) ++ rest).head? = some d := rfl
    rw [scanString, List.cons_append, scanStringFrom, if_neg (by decide), if_neg (by decide),
      if_pos rfl, hhead]
    simp only [hscan]
    rw [scanStringFrom_append, Quotation.push_behind]
    rfl

theorem scanString_encodeString (value rest : Text) :
    scanString '"' (encodeString value ++ '"' :: rest) =
      ⟨value, .closed, (encodeString value).length + 1⟩ := by
  induction value with
  | nil => rfl
  | cons c cs ih =>
    have hcons : encodeString (c :: cs) = encodeStringChar c ++ encodeString cs := rfl
    rw [hcons, List.append_assoc, (stands_encodeStringChar c).scanString_append, ih,
      Quotation.behind, List.length_append, Nat.add_comm (encodeStringChar c).length,
      Nat.add_right_comm]
    rfl

/-! ## Addresses -/

/-- A character that stands for itself in an address. -/
def isBareInUrl (c : Char) : Bool :=
  !(c == ')' || isWhitespace c || c == '\\' || c == '"' || c == '\'' || c == '(' || isUrlControl c)

theorem stands_encodeUrlChar {c : Char} (hcontrol : isUrlControl c = false) :
    Stands isBareInUrl (encodeUrlChar c) c := by
  unfold encodeUrlChar
  split
  · rename_i h
    have hc : c ∈ ['\'', '"', '\\', ' ', '(', ')'] := by simpa [or_assoc] using h
    have hall : ∀ d ∈ ['\'', '"', '\\', ' ', '(', ')'], isHexDigit d = false ∧ d ≠ '\n' := by decide
    exact .inr ⟨[c], escapesTo_self (hall c hc).1 (hall c hc).2, rfl⟩
  · split
    · rename_i htab
      subst htab
      exact .inr ⟨_, escapesTo_of_hexValue ['9'] (by simp) (by decide) (by decide)
        (by decide), rfl⟩
    · rename_i h htab
      cases hline : lineEndEscape? c with
      | some text => exact .inr (exists_lineEndEscape hline)
      | none =>
        have := ne_line_feed_of_lineEndEscape hline
        refine .inl ⟨?_, rfl⟩
        simp only [Bool.not_eq_true, Bool.or_eq_false_iff, decide_eq_false_iff_not] at h
        simp [isBareInUrl, isWhitespace, h, htab, this, hcontrol]

theorem scanUrlFrom_append (passed rest : Text) :
    scanUrlFrom passed.length (passed ++ rest) = (scanUrlFrom 0 rest).behind [] passed.length := by
  induction passed with
  | nil => rfl
  | cons c cs ih =>
    rw [List.length_cons, List.cons_append, scanUrlFrom, ih, Quotation.pass_behind]

theorem Stands.scanUrlFrom_append {text : Text} {c : Char} (h : Stands isBareInUrl text c)
    (rest : Text) :
    scanUrlFrom 0 (text ++ rest) = (scanUrlFrom 0 rest).behind [c] text.length := by
  obtain ⟨hbare, rfl⟩ | ⟨escape, hescape, rfl⟩ := h
  · simp only [isBareInUrl, Bool.not_eq_true', Bool.or_eq_false_iff, beq_eq_false_iff_ne] at hbare
    obtain ⟨⟨⟨⟨⟨⟨hclose, hspace⟩, hbackslash⟩, hquote⟩, hmark⟩, hopen⟩, hcontrol⟩ := hbare
    have hescape : startsEscape (c :: rest) = false := by
      unfold startsEscape
      split <;> simp_all
    simp [scanUrlFrom, hclose, hspace, hescape, hquote, hmark, hopen, hcontrol, Quotation.behind,
      Quotation.push]
  · obtain ⟨hstarts, hscan⟩ := hescape rest
    have hspace : isWhitespace '\\' = false := by decide
    rw [List.cons_append, scanUrlFrom, if_neg (by decide), if_neg (by simp [hspace]), if_pos hstarts]
    simp only [hscan]
    rw [StyleOrigin.Css.scanUrlFrom_append, Quotation.push_behind]
    rfl

theorem scanUrlFrom_encodeUrl {value : Text} (hcontrol : ∀ c ∈ value, isUrlControl c = false)
    (rest : Text) :
    scanUrlFrom 0 (encodeUrl value ++ ')' :: rest) =
      ⟨value, .closed, (encodeUrl value).length + 1⟩ := by
  induction value with
  | nil => rfl
  | cons c cs ih =>
    have hcons : encodeUrl (c :: cs) = encodeUrlChar c ++ encodeUrl cs := rfl
    have hstands := stands_encodeUrlChar (hcontrol c List.mem_cons_self)
    rw [hcons, List.append_assoc, hstands.scanUrlFrom_append,
      ih fun d hd => hcontrol d (List.mem_cons_of_mem _ hd), Quotation.behind, List.length_append,
      Nat.add_comm (encodeUrlChar c).length, Nat.add_right_comm]
    rfl

/-- What is written for an address begins with neither white space nor a quotation mark. -/
theorem exists_cons_encodeUrl {value : Text} (hcontrol : ∀ c ∈ value, isUrlControl c = false)
    (rest : Text) :
    ∃ d ds, encodeUrl value ++ ')' :: rest = d :: ds ∧ isWhitespace d = false ∧ d ≠ '"' ∧
      d ≠ '\'' := by
  cases value with
  | nil => exact ⟨')', rest, rfl, by decide, by decide, by decide⟩
  | cons c cs =>
    have hcons : encodeUrl (c :: cs) = encodeUrlChar c ++ encodeUrl cs := rfl
    rw [hcons, List.append_assoc]
    obtain ⟨hbare, htext⟩ | ⟨escape, _, htext⟩ :=
      stands_encodeUrlChar (hcontrol c List.mem_cons_self)
    · simp only [isBareInUrl, Bool.not_eq_true', Bool.or_eq_false_iff, beq_eq_false_iff_ne] at hbare
      exact ⟨c, _, by rw [htext]; rfl, hbare.1.1.1.1.1.2, hbare.1.1.1.2, hbare.1.1.2⟩
    · exact ⟨'\\', _, by rw [htext]; rfl, by decide, by decide, by decide⟩

theorem scanUrl_encodeUrl {value : Text} (hcontrol : ∀ c ∈ value, isUrlControl c = false)
    (rest : Text) :
    scanUrl (encodeUrl value ++ ')' :: rest) =
      ⟨value, .closed, (encodeUrl value).length + 1⟩ := by
  obtain ⟨d, ds, htext, hspace, _, _⟩ := exists_cons_encodeUrl hcontrol rest
  have hgap : (encodeUrl value ++ ')' :: rest).takeWhile isWhitespace = [] := by
    rw [htext, List.takeWhile_cons, hspace, if_neg Bool.false_ne_true]
  simp [scanUrl, hgap, scanUrlFrom_encodeUrl hcontrol]

/-! ## Comments -/

/-- A comment that holds no closing mark is read back. -/
theorem scanComment_append {text : Text} (h : ¬ ['*', '/'] <:+: text) (rest : Text) :
    scanComment (text ++ '*' :: '/' :: rest) = (text, text.length + 2) := by
  induction text with
  | nil => rfl
  | cons c cs ih =>
    have hcs : ¬ ['*', '/'] <:+: cs := fun hwithin => h (hwithin.trans (List.suffix_cons c cs).isInfix)
    rw [List.cons_append]
    unfold scanComment
    split
    · rename_i heq
      simp at heq
    · rename_i tail heq
      cases cs with
      | nil => simp at heq
      | cons d ds =>
        obtain ⟨rfl, rfl⟩ : c = '*' ∧ d = '/' := by
          simp only [List.cons_append, List.cons.injEq] at heq
          exact ⟨heq.1, heq.2.1⟩
        exact absurd ⟨[], ds, rfl⟩ h
    · rename_i d ds _ heq
      obtain ⟨rfl, rfl⟩ := List.cons.inj heq
      rw [ih hcs]
      simp [Prod.map]

end StyleOrigin.Css
