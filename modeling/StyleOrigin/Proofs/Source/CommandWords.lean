import StyleOrigin.Proofs.Sequence
import StyleOrigin.Source.CommandWords

/-! # Command lines that can be split

A command line can be split into words if each quotation in it is closed and each escape has a character
to escape. Whether it can does not depend on where words begin and end. Splitting loses blanks, marks and
backslashes, and no other character.

* `Inside`, `Complete`: what stands between two marks, and the command lines that come to an end.
* `Mode.Completes`: what must follow where a reader of a command line is.
* `exists_split_iff`: the command lines that can be split are the complete ones.
* `exists_mem_split_iff`: where the other characters of a command line are.
-/
set_option autoImplicit false

namespace StyleOrigin.CommandWords

/-! ## Complete command lines -/

/-- What may stand between two marks. Between double ones a backslash takes the next character along;
between single ones it is a character like others. -/
inductive Inside (mark : Char) : Text → Prop
  | nil : Inside mark []
  | char {c : Char} {rest : Text} (not_mark : c ≠ mark) (not_escape : ¬(c = '\\' ∧ mark = '"'))
      (inside : Inside mark rest) : Inside mark (c :: rest)
  | escaped {c : Char} {rest : Text} (double : mark = '"') (inside : Inside mark rest) :
      Inside mark ('\\' :: c :: rest)

/-- A command line whose quotations and escapes all come to their end. -/
inductive Complete : Text → Prop
  | nil : Complete []
  | char {c : Char} {rest : Text} (not_escape : c ≠ '\\') (not_mark : ¬(c = '"' ∨ c = '\''))
      (complete : Complete rest) : Complete (c :: rest)
  | escaped {c : Char} {rest : Text} (complete : Complete rest) : Complete ('\\' :: c :: rest)
  | quoted {mark : Char} {quotation rest : Text} (isMark : mark = '"' ∨ mark = '\'')
      (inside : Inside mark quotation) (complete : Complete rest) :
      Complete (mark :: (quotation ++ mark :: rest))

theorem complete_cons_iff {c : Char} {rest : Text} (hescape : c ≠ '\\')
    (hmark : ¬(c = '"' ∨ c = '\'')) : Complete (c :: rest) ↔ Complete rest := by
  constructor
  · intro h
    cases h with
    | char _ _ complete => exact complete
    | escaped => exact absurd rfl hescape
    | quoted isMark => exact absurd isMark hmark
  · exact .char hescape hmark

/-- What must follow where a reader of a command line is, for the line to be complete. -/
def Mode.Completes : Mode → Text → Prop
  | .plain, text => Complete text
  | .quoted mark, text =>
    ∃ quotation rest, text = quotation ++ mark :: rest ∧ Inside mark quotation ∧ Complete rest
  | .escaped, text => ∃ c rest, text = c :: rest ∧ Complete rest
  | .escapedIn mark, text =>
    ∃ c quotation rest, text = c :: (quotation ++ mark :: rest) ∧ Inside mark quotation ∧ Complete rest

theorem complete_mark_iff {mark : Char} {rest : Text} (h : mark = '"' ∨ mark = '\'') :
    Complete (mark :: rest) ↔ (Mode.quoted mark).Completes rest := by
  constructor
  · intro hcomplete
    cases hcomplete with
    | char _ not_mark => exact absurd h not_mark
    | escaped => exact absurd h (by decide)
    | quoted _ inside complete => exact ⟨_, _, rfl, inside, complete⟩
  · rintro ⟨quotation, rest, rfl, inside, complete⟩
    exact .quoted h inside complete

theorem complete_backslash_iff {rest : Text} :
    Complete ('\\' :: rest) ↔ Mode.escaped.Completes rest := by
  constructor
  · intro hcomplete
    cases hcomplete with
    | char not_escape => exact absurd rfl not_escape
    | escaped complete => exact ⟨_, _, rfl, complete⟩
    | quoted isMark => exact absurd isMark (by decide)
  · rintro ⟨c, rest, rfl, complete⟩
    exact .escaped complete

theorem completes_closing {mark : Char} {rest : Text} :
    (Mode.quoted mark).Completes (mark :: rest) ↔ Complete rest := by
  constructor
  · rintro ⟨quotation, rest', hparts, inside, complete⟩
    cases inside with
    | nil =>
      obtain ⟨-, rfl⟩ := List.cons.inj hparts
      exact complete
    | char not_mark => exact absurd (List.cons.inj hparts).1.symm not_mark
    | escaped double =>
      subst double
      exact absurd (List.cons.inj hparts).1 (by decide)
  · intro complete
    exact ⟨[], rest, rfl, .nil, complete⟩

theorem completes_inside {mark c : Char} {rest : Text} (hmark : c ≠ mark)
    (hescape : ¬(c = '\\' ∧ mark = '"')) :
    (Mode.quoted mark).Completes (c :: rest) ↔ (Mode.quoted mark).Completes rest := by
  constructor
  · rintro ⟨quotation, rest', hparts, inside, complete⟩
    cases inside with
    | nil => exact absurd (List.cons.inj hparts).1 hmark
    | char _ _ inside =>
      obtain ⟨-, rfl⟩ := List.cons.inj hparts
      exact ⟨_, _, rfl, inside, complete⟩
    | escaped double => exact absurd ⟨(List.cons.inj hparts).1, double⟩ hescape
  · rintro ⟨quotation, rest', rfl, inside, complete⟩
    exact ⟨c :: quotation, rest', rfl, .char hmark hescape inside, complete⟩

theorem completes_escape {rest : Text} :
    (Mode.quoted '"').Completes ('\\' :: rest) ↔ (Mode.escapedIn '"').Completes rest := by
  constructor
  · rintro ⟨quotation, rest', hparts, inside, complete⟩
    cases inside with
    | nil => exact absurd (List.cons.inj hparts).1 (by decide)
    | char _ not_escape => exact absurd ⟨(List.cons.inj hparts).1.symm, rfl⟩ not_escape
    | escaped _ inside =>
      obtain ⟨-, rfl⟩ := List.cons.inj hparts
      exact ⟨_, _, _, rfl, inside, complete⟩
  · rintro ⟨c, quotation, rest', rfl, inside, complete⟩
    exact ⟨'\\' :: c :: quotation, rest', rfl, .escaped rfl inside, complete⟩

theorem completes_escaped {mark c : Char} {rest : Text} :
    (Mode.escapedIn mark).Completes (c :: rest) ↔ (Mode.quoted mark).Completes rest := by
  constructor
  · rintro ⟨d, quotation, rest', hparts, inside, complete⟩
    obtain ⟨-, rfl⟩ := List.cons.inj hparts
    exact ⟨quotation, rest', rfl, inside, complete⟩
  · rintro ⟨quotation, rest', rfl, inside, complete⟩
    exact ⟨c, quotation, rest', rfl, inside, complete⟩

/-! ## Splitting -/

theorem plain_of_isSeparator {c : Char} (h : isSeparator c = true) :
    c ≠ '\\' ∧ ¬(c = '"' ∨ c = '\'') := by
  have hcases : ((c = ' ' ∨ c = '\t') ∨ c = '\r') ∨ c = '\n' := by simpa [isSeparator] using h
  rcases hcases with ((rfl | rfl) | rfl) | rfl <;> decide

/-- A reader succeeds exactly if the rest of its command line completes what it is in. -/
theorem exists_splitFrom_iff (mode : Mode) (word : Option Text) (text : Text) :
    (∃ words, splitFrom mode word text = .ok words) ↔ mode.Completes text := by
  -- along the reader's own steps: each of them is one of the laws of `Completes`
  induction mode, word, text using splitFrom.induct with
  | case1 word => exact ⟨fun _ => .nil, fun _ => ⟨finish word, by rw [splitFrom]⟩⟩
  | case2 mark => simp [splitFrom, Mode.Completes]
  | case3 => simp [splitFrom, Mode.Completes]
  | case4 mark => simp [splitFrom, Mode.Completes]
  | case5 word c cs hseparator ih =>
    obtain ⟨hescape, hmark⟩ := plain_of_isSeparator hseparator
    rw [splitFrom, if_pos hseparator, Mode.Completes, complete_cons_iff hescape hmark]
    rw [Mode.Completes] at ih
    rw [← ih]
    cases splitFrom .plain none cs <;> simp [Functor.map, Except.map]
  | case6 word cs hseparator ih =>
    rw [splitFrom, if_neg hseparator, if_pos rfl, ih, Mode.Completes, complete_backslash_iff]
  | case7 word c cs hseparator hescape hmark ih =>
    rw [splitFrom, if_neg hseparator, if_neg hescape, if_pos hmark, ih, Mode.Completes]
    exact (complete_mark_iff (by simpa using hmark)).symm
  | case8 word c cs hseparator hescape hmark ih =>
    rw [splitFrom, if_neg hseparator, if_neg hescape, if_neg hmark, ih, Mode.Completes, Mode.Completes,
      complete_cons_iff hescape (by simpa using hmark)]
  | case9 word c cs ih => rw [splitFrom, if_pos rfl, ih, completes_closing, Mode.Completes]
  | case10 mark word c cs hmark hescape ih =>
    obtain ⟨rfl, rfl⟩ : c = '\\' ∧ mark = '"' := by simpa using hescape
    rw [splitFrom, if_neg hmark, if_pos hescape, ih, completes_escape]
  | case11 mark word c cs hmark hescape ih =>
    rw [splitFrom, if_neg hmark, if_neg hescape, ih, completes_inside hmark (by simpa using hescape)]
  | case12 word c cs ih =>
    rw [splitFrom, ih]
    simp [Mode.Completes]
  | case13 mark word c cs hescaped ih =>
    rw [splitFrom, if_pos hescaped, ih, completes_escaped]
  | case14 mark word c cs hescaped ih =>
    rw [splitFrom, if_neg hescaped, ih, completes_escaped]

theorem exists_split_iff {command : Text} : (∃ words, split command = .ok words) ↔ Complete command :=
  exists_splitFrom_iff .plain none command

/-! ## The characters of words -/

/-- A character that has no part in splitting. -/
structure IsOrdinary (c : Char) : Prop where
  not_separator : isSeparator c = false
  not_escape : c ≠ '\\'
  not_mark : ¬(c = '"' ∨ c = '\'')

theorem exists_mem_finish_iff {c : Char} {word : Option Text} :
    (∃ done ∈ finish word, c ∈ done) ↔ c ∈ word.getD [] := by
  cases word <;> simp [finish]

/-- Taking a character into a word is taking it from what follows. -/
theorem mem_push_iff {c d : Char} {word : Option Text} {rest : Text} :
    c ∈ (push d word).getD [] ∨ c ∈ rest ↔ c ∈ word.getD [] ∨ c ∈ d :: rest := by
  simp only [push, Option.getD_some, List.mem_cons]
  tauto

theorem mem_skip_iff {c d : Char} (h : c ≠ d) {word rest : Text} :
    c ∈ word ∨ c ∈ rest ↔ c ∈ word ∨ c ∈ d :: rest := by
  simp [h]

/-- A reader takes each ordinary character into the word that it reads, or into a later one. -/
theorem exists_mem_splitFrom_iff {c : Char} (h : IsOrdinary c) {mode : Mode} {word : Option Text}
    {text : Text} {words : List Text}
    (hmode : ∀ mark, mode = .quoted mark ∨ mode = .escapedIn mark → c ≠ mark)
    (hsplit : splitFrom mode word text = .ok words) :
    (∃ done ∈ words, c ∈ done) ↔ c ∈ word.getD [] ∨ c ∈ text := by
  -- along the reader's own steps: a character is left out only where it is not an ordinary one
  induction mode, word, text using splitFrom.induct generalizing words with
  | case1 word =>
    obtain rfl : finish word = words := by simpa [splitFrom] using hsplit
    simp [exists_mem_finish_iff]
  | case2 mark => simp [splitFrom] at hsplit
  | case3 => simp [splitFrom] at hsplit
  | case4 mark => simp [splitFrom] at hsplit
  | case5 word d cs hseparator ih =>
    have hne : c ≠ d := fun heq => by simp [← heq, h.not_separator] at hseparator
    rw [splitFrom, if_pos hseparator] at hsplit
    cases hrest : splitFrom .plain none cs with
    | error fault => simp [hrest, Functor.map, Except.map] at hsplit
    | ok rest =>
      obtain rfl : finish word ++ rest = words := by
        simpa [hrest, Functor.map, Except.map] using hsplit
      have hparts : (∃ done ∈ finish word ++ rest, c ∈ done) ↔ c ∈ word.getD [] ∨ c ∈ cs := by
        simp only [List.mem_append, or_and_right, exists_or, exists_mem_finish_iff]
        simpa using or_congr_right (ih (by simp) hrest)
      exact hparts.trans (mem_skip_iff hne)
  | case6 word cs hseparator ih =>
    rw [splitFrom, if_neg hseparator, if_pos rfl] at hsplit
    exact (ih (by simp) hsplit).trans (mem_skip_iff h.not_escape)
  | case7 word d cs hseparator hescape hmark ih =>
    have hne : c ≠ d := fun heq => h.not_mark (by simpa [heq] using hmark)
    rw [splitFrom, if_neg hseparator, if_neg hescape, if_pos hmark] at hsplit
    exact (ih (by simpa using hne) hsplit).trans (mem_skip_iff hne)
  | case8 word d cs hseparator hescape hmark ih =>
    rw [splitFrom, if_neg hseparator, if_neg hescape, if_neg hmark] at hsplit
    exact (ih (by simp) hsplit).trans mem_push_iff
  | case9 word mark cs ih =>
    rw [splitFrom, if_pos rfl] at hsplit
    exact (ih (by simp) hsplit).trans (mem_skip_iff (hmode mark (.inl rfl)))
  | case10 mark word d cs hmark hescape ih =>
    have hne : c ≠ d := fun heq =>
      h.not_escape (by simpa [heq] using (Bool.and_eq_true_iff.mp hescape).1)
    rw [splitFrom, if_neg hmark, if_pos hescape] at hsplit
    exact (ih (by simpa using hmode mark (.inl rfl)) hsplit).trans (mem_skip_iff hne)
  | case11 mark word d cs hmark hescape ih =>
    rw [splitFrom, if_neg hmark, if_neg hescape] at hsplit
    exact (ih (by simpa using hmode mark (.inl rfl)) hsplit).trans mem_push_iff
  | case12 word d cs ih =>
    rw [splitFrom] at hsplit
    exact (ih (by simp) hsplit).trans mem_push_iff
  | case13 mark word d cs hescaped ih =>
    rw [splitFrom, if_pos hescaped] at hsplit
    exact (ih (by simpa using hmode mark (.inr rfl)) hsplit).trans mem_push_iff
  | case14 mark word d cs hescaped ih =>
    rw [splitFrom, if_neg hescaped] at hsplit
    have hword : (∃ done ∈ words, c ∈ done) ↔ c ∈ (push '\\' word).getD [] ∨ c ∈ d :: cs :=
      (ih (by simpa using hmode mark (.inr rfl)) hsplit).trans mem_push_iff
    exact hword.trans (mem_push_iff.trans (mem_skip_iff h.not_escape).symm)

/-- An ordinary character of a command line is in one of its words. -/
theorem exists_mem_split_iff {c : Char} (h : IsOrdinary c) {command : Text} {words : List Text}
    (hsplit : split command = .ok words) : (∃ word ∈ words, c ∈ word) ↔ c ∈ command := by
  simpa using exists_mem_splitFrom_iff h (by simp) hsplit

theorem isOrdinary_null : IsOrdinary '\x00' where
  not_separator := rfl
  not_escape := by decide
  not_mark := by decide

end StyleOrigin.CommandWords
