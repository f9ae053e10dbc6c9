import StyleOrigin.Proofs.Sequence
import StyleOrigin.Text.Blank

/-! # The words of a text

A blank cuts a text into words, and each word is known from that one equation.

* `words_append_blank`: the words in front of a blank, and those behind it.
* `mem_words`, `words_eq_nil_iff`: what a word is, and the texts that have none.
* `words_squeeze`, `squeeze_cases`: a squeezed text has the same words. It is its first word alone, or
  there is one space behind that word and then another word.
-/
set_option autoImplicit false

namespace StyleOrigin.Text

theorem words_append_blank {c : Char} (hc : isBlank c = true) (front back : Text) :
    words (front ++ c :: back) = words front ++ words back := by
  rw [words, splitWhere_append_cons hc, List.filter_append]
  rfl

theorem mem_words {text word : Text} (h : word ∈ words text) :
    word ≠ [] ∧ ∀ c ∈ word, isBlank c = false := by
  obtain ⟨hpiece, hne⟩ := List.mem_filter.mp h
  exact ⟨by simpa using hne, fun c hc => (not_cut_of_mem_splitWhere hpiece c hc).1⟩

theorem words_of_not_blank {word : Text} (hne : word ≠ []) (h : ∀ c ∈ word, isBlank c = false) :
    words word = [word] := by
  simp [words, splitWhere_eq_singleton h, hne]

theorem words_eq_nil_iff {text : Text} : words text = [] ↔ ∀ c ∈ text, isBlank c = true := by
  constructor
  · intro h c hc
    -- Cut the text at its blanks: a character between them would be part of a word.
    induction text with
    | nil => exact absurd hc (by simp)
    | cons a rest ih =>
      cases ha : isBlank a with
      | true =>
        have hrest : words rest = [] := by rw [← h]; exact (words_append_blank ha [] rest).symm
        obtain rfl | hmem := List.mem_cons.mp hc
        · exact ha
        · exact ih hrest hmem
      | false =>
        obtain ⟨piece, pieces, -, hcons⟩ := splitWhere_cons_of_not_cut ha rest
        simp [words, hcons] at h
  · intro h
    induction text with
    | nil => rfl
    | cons a rest ih =>
      rw [← ih fun c hc => h c (List.mem_cons_of_mem a hc)]
      exact words_append_blank (h a List.mem_cons_self) [] rest

theorem joinWith_cons_cons (separator word next : Text) (others : List Text) :
    joinWith separator (word :: next :: others) =
      word ++ (separator ++ joinWith separator (next :: others)) := by
  simp [joinWith]

theorem words_joinWith {pieces : List Text}
    (h : ∀ word ∈ pieces, word ≠ [] ∧ ∀ c ∈ word, isBlank c = false) :
    words (joinWith [' '] pieces) = pieces := by
  induction pieces with
  | nil => rfl
  | cons word rest ih =>
    obtain ⟨⟨hne, hword⟩, hrest⟩ := List.forall_mem_cons.mp h
    cases rest with
    | nil => simpa [joinWith] using words_of_not_blank hne hword
    | cons next others =>
      rw [joinWith_cons_cons, List.singleton_append, words_append_blank (by decide),
        words_of_not_blank hne hword, ih hrest]
      rfl

theorem words_squeeze (text : Text) : words (squeeze text) = words text :=
  words_joinWith fun _ h => mem_words h

/-- A squeezed text is its first word, or that word, one space, and then another word. -/
theorem squeeze_cases (text : Text) :
    squeeze text = (words text).headD [] ∨
      ∃ c more, isBlank c = false ∧ squeeze text = (words text).headD [] ++ ' ' :: c :: more := by
  have hwords : ∀ word ∈ words text, word ≠ [] ∧ ∀ c ∈ word, isBlank c = false :=
    fun word h => mem_words h
  rw [squeeze]
  generalize words text = all at hwords ⊢
  match all with
  | [] => exact .inl rfl
  | [word] => exact .inl (by simp [joinWith])
  | word :: next :: others =>
    obtain ⟨hne, hnext⟩ := hwords next (by simp)
    obtain ⟨c, cs, rfl⟩ := List.exists_cons_of_ne_nil hne
    obtain ⟨more, hmore⟩ : ∃ more, joinWith [' '] ((c :: cs) :: others) = c :: more := by
      cases others with
      | nil => exact ⟨cs, by simp [joinWith]⟩
      | cons other rest => exact ⟨_, joinWith_cons_cons [' '] (c :: cs) other rest⟩
    refine .inr ⟨c, more, hnext c List.mem_cons_self, ?_⟩
    rw [joinWith_cons_cons, hmore]
    rfl

theorem headD_words_eq_nil_iff {text : Text} :
    (words text).headD [] = [] ↔ text.all isBlank = true := by
  rw [List.all_eq_true, ← words_eq_nil_iff]
  cases hwords : words text with
  | nil => simp
  | cons word rest => simp [(mem_words (hwords ▸ List.mem_cons_self : word ∈ words text)).1]

end StyleOrigin.Text
