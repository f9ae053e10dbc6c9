import StyleOrigin.Proofs.Text.Words

/-! # Squeezing a text from its front

A text is squeezed character by character: blanks at its start are dropped, and behind another character
a run of blanks becomes one space, unless nothing follows.

* `squeezeBehind`: what a text is squeezed to behind a character that is no blank.
* `squeeze_cons`, `squeeze_cons_blank`, `squeezeBehind_blanks`: squeezing step by step.
* `isFirm`, `squeezeBehind_append_of_isFirm`: the texts that squeezing leaves as they are, alone or in
  front of a given character.
-/
set_option autoImplicit false

namespace StyleOrigin.Text

/-! ## Step by step -/

theorem joinWith_cons_char (separator : Text) (c : Char) (word : Text) (others : List Text) :
    joinWith separator ((c :: word) :: others) = c :: joinWith separator (word :: others) := by
  cases others with
  | nil => simp [joinWith]
  | cons next others => rw [joinWith_cons_cons, joinWith_cons_cons, List.cons_append]

theorem squeeze_cons_blank {c : Char} (hc : isBlank c = true) (rest : Text) :
    squeeze (c :: rest) = squeeze rest :=
  congrArg (joinWith [' ']) (words_append_blank hc [] rest)

theorem squeeze_blanks {gap : Text} (h : ∀ c ∈ gap, isBlank c = true) (rest : Text) :
    squeeze (gap ++ rest) = squeeze rest := by
  induction gap with
  | nil => rfl
  | cons c gap ih =>
    rw [List.cons_append, squeeze_cons_blank (h c List.mem_cons_self),
      ih fun d hd => h d (List.mem_cons_of_mem c hd)]

/-- What a text is squeezed to behind a character that is no blank. -/
def squeezeBehind : Text → Text
  | [] => []
  | c :: rest =>
    if isBlank c then
      if squeeze rest = [] then [] else ' ' :: squeeze rest
    else squeeze (c :: rest)

theorem squeezeBehind_cons_blank {c : Char} (hc : isBlank c = true) (rest : Text) :
    squeezeBehind (c :: rest) = if squeeze rest = [] then [] else ' ' :: squeeze rest := by
  rw [squeezeBehind, if_pos hc]

theorem squeeze_cons {c : Char} (hc : isBlank c = false) (rest : Text) :
    squeeze (c :: rest) = c :: squeezeBehind rest := by
  cases rest with
  | nil => simp [squeeze, words, splitWhere, hc, joinWith, squeezeBehind]
  | cons d rest =>
    cases hd : isBlank d with
    | true =>
      have hword : words [c] = [[c]] := words_of_not_blank (by simp) (by simpa using hc)
      have hcut : words (c :: d :: rest) = [c] :: words rest := by
        have h := words_append_blank hd [c] rest
        rwa [hword] at h
      rw [squeezeBehind_cons_blank hd, squeeze, hcut, joinWith_cons_char, squeeze]
      cases hwords : words rest with
      | nil => simp [joinWith]
      | cons word others =>
        obtain ⟨e, es, rfl⟩ := List.exists_cons_of_ne_nil
          (mem_words (hwords ▸ List.mem_cons_self : word ∈ words rest)).1
        rw [joinWith_cons_cons, joinWith_cons_char, if_neg (by simp)]
        rfl
    | false =>
      obtain ⟨piece, pieces, hrest, hcons⟩ := splitWhere_cons_of_not_cut hd rest
      obtain ⟨piece', pieces', hrest', hcons'⟩ := splitWhere_cons_of_not_cut hc (d :: rest)
      obtain ⟨rfl, rfl⟩ := List.cons.inj (hcons.symm.trans hrest')
      rw [squeezeBehind, if_neg (by simp [hd]), squeeze, squeeze, words, words, hcons, hcons']
      simp [joinWith_cons_char]

theorem squeezeBehind_cons {c : Char} (hc : isBlank c = false) (rest : Text) :
    squeezeBehind (c :: rest) = c :: squeezeBehind rest := by
  rw [squeezeBehind, if_neg (by simp [hc]), squeeze_cons hc]

theorem squeeze_eq_squeezeBehind {text : Text} (h : ∀ c ∈ text.head?, isBlank c = false) :
    squeeze text = squeezeBehind text := by
  cases text with
  | nil => rfl
  | cons c rest => rw [squeeze_cons (h c rfl), squeezeBehind_cons (h c rfl)]

theorem head_squeeze (text : Text) : ∀ c ∈ (squeeze text).head?, isBlank c = false := by
  induction text with
  | nil => simp [squeeze, words, splitWhere, joinWith]
  | cons d rest ih =>
    cases hd : isBlank d with
    | true => rwa [squeeze_cons_blank hd]
    | false => simpa [squeeze_cons hd] using hd

/-- One space in front of a text, unless a blank stands there already or there is no text. -/
def withSpace : Text → Text
  | [] => []
  | c :: rest => if isBlank c then c :: rest else ' ' :: c :: rest

theorem withSpace_of_not_blank {text : Text} (h : ∀ c ∈ text.head?, isBlank c = false) :
    withSpace text = if text = [] then [] else ' ' :: text := by
  cases text with
  | nil => rfl
  | cons c rest => simp [withSpace, h c rfl]

theorem squeezeBehind_blank (c : Char) (hc : isBlank c = true) (rest : Text) :
    squeezeBehind (c :: rest) = withSpace (squeezeBehind rest) := by
  have hsqueeze := withSpace_of_not_blank (head_squeeze rest)
  rw [squeezeBehind_cons_blank hc, ← hsqueeze]
  cases rest with
  | nil => rfl
  | cons d rest =>
    cases hd : isBlank d with
    | false => rw [squeeze_eq_squeezeBehind (by simpa using hd)]
    | true =>
      rw [squeeze_cons_blank hd, withSpace_of_not_blank (head_squeeze rest),
        squeezeBehind_cons_blank hd]
      split
      · rfl
      · rfl

/-- A run of blanks becomes one space, unless nothing follows. -/
theorem squeezeBehind_blanks {gap : Text} (hne : gap ≠ []) (h : ∀ c ∈ gap, isBlank c = true)
    (rest : Text) : squeezeBehind (gap ++ rest) = withSpace (squeezeBehind rest) := by
  have hagain (text : Text) : withSpace (withSpace text) = withSpace text := by
    cases text with
    | nil => rfl
    | cons c rest => by_cases hc : isBlank c = true <;> simp [withSpace, hc, show isBlank ' ' = true by decide]
  induction gap with
  | nil => exact absurd rfl hne
  | cons c gap ih =>
    rw [List.cons_append, squeezeBehind_blank c (h c List.mem_cons_self)]
    by_cases hgap : gap = []
    · rw [hgap, List.nil_append]
    · rw [ih hgap fun d hd => h d (List.mem_cons_of_mem c hd), hagain]

theorem squeeze_append_blanks {gap : Text} (h : ∀ c ∈ gap, isBlank c = true) (front : Text) :
    squeeze (front ++ gap) = squeeze front := by
  cases gap with
  | nil => rw [List.append_nil]
  | cons c rest =>
    have hrest : words rest = [] := words_eq_nil_iff.mpr fun d hd => h d (List.mem_cons_of_mem c hd)
    rw [squeeze, words_append_blank (h c List.mem_cons_self), hrest, List.append_nil]
    rfl

/-! ## Texts that stay -/

theorem squeezeBehind_append {text : Text} (h : squeezeBehind text = text) (rest : Text) :
    squeezeBehind (text ++ rest) = text ++ squeezeBehind rest := by
  induction text with
  | nil => rfl
  | cons c text ih =>
    cases hc : isBlank c with
    | false =>
      rw [squeezeBehind_cons hc] at h
      rw [List.cons_append, squeezeBehind_cons hc, ih (List.cons.inj h).2, List.cons_append]
    | true =>
      -- The blank is a space, and what is behind it begins with another character.
      rw [squeezeBehind_cons_blank hc] at h
      split at h
      · exact absurd h (by simp)
      · rename_i hne
        obtain ⟨rfl, hrest⟩ := List.cons.inj h
        obtain ⟨d, more, rfl⟩ : ∃ d more, text = d :: more :=
          List.exists_cons_of_ne_nil (by rwa [hrest] at hne)
        have hd : isBlank d = false := head_squeeze (d :: more) d (by rw [hrest]; rfl)
        have hmore : squeezeBehind (d :: more) = d :: more := by
          rwa [← squeeze_eq_squeezeBehind (by simpa using hd)]
        have hall := ih hmore
        rw [List.cons_append, squeezeBehind_cons_blank hc,
          squeeze_eq_squeezeBehind (by simpa using hd), hall, if_neg (by simp)]
        rfl

/-- A text stays as it is where a text that begins with a given character is squeezed behind it: alone, or
with that character. -/
def isFirm (next : Option Char) (text : Text) : Bool :=
  squeeze text == text ||
    next.any fun c => !isBlank c && squeeze (text ++ [c]) == text ++ [c]

theorem head_of_squeeze_eq {text : Text} (h : squeeze text = text) :
    ∀ c ∈ text.head?, isBlank c = false := by
  rw [← h]
  exact head_squeeze text

section Firm
variable {next : Option Char} {text : Text} (h : isFirm next text = true)
include h

theorem isFirm_cases : squeezeBehind text = text ∨
    ∃ c ∈ next, isBlank c = false ∧ squeezeBehind (text ++ [c]) = text ++ [c] := by
  have hsame {other : Text} (hother : squeeze other = other) : squeezeBehind other = other := by
    rwa [← squeeze_eq_squeezeBehind (head_of_squeeze_eq hother)]
  simp only [isFirm, Bool.or_eq_true, beq_iff_eq, Option.any_eq_true, Bool.and_eq_true,
    Bool.not_eq_true'] at h
  obtain h | ⟨c, hnext, hc, h⟩ := h
  · exact .inl (hsame h)
  · exact .inr ⟨c, hnext, hc, hsame h⟩

theorem head_of_isFirm : ∀ c ∈ text.head?, isBlank c = false := by
  simp only [isFirm, Bool.or_eq_true, beq_iff_eq, Option.any_eq_true, Bool.and_eq_true,
    Bool.not_eq_true'] at h
  obtain h | ⟨c, -, -, h⟩ := h
  · exact head_of_squeeze_eq h
  · intro d hd
    refine head_of_squeeze_eq h d ?_
    rw [List.head?_append, hd]
    rfl

theorem squeezeBehind_append_of_isFirm {rest : Text} (hrest : rest.head? = next) :
    squeezeBehind (text ++ rest) = text ++ squeezeBehind rest := by
  obtain h | ⟨c, hnext, hc, h⟩ := isFirm_cases h
  · exact squeezeBehind_append h rest
  · rw [hnext] at hrest
    obtain ⟨more, rfl⟩ := List.head?_eq_some_iff.mp hrest
    rw [← List.singleton_append, ← List.append_assoc, squeezeBehind_append h, List.singleton_append,
      squeezeBehind_cons hc, List.append_assoc]
    rfl

end Firm

end StyleOrigin.Text
