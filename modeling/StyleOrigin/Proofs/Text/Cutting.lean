import StyleOrigin.Proofs.Sequence
import StyleOrigin.Text.Basic

/-! # Texts cut at a character

* `Text.splitOn_append_cons`, `Text.splitOn_joinWith`: a cut splits the work, and joined pieces are the
  pieces again.
* `Text.notMem_of_mem_splitOn`: no piece holds the character, or any other one that the text does not.
* `Text.exists_last_cut`, `Text.getLast?_splitOn_append`: what stands behind the last cut is the last piece.
-/
set_option autoImplicit false

namespace StyleOrigin.Text

variable {cut : Char} {text piece front back : Text}

theorem splitOn_append_cons (cut : Char) (front back : Text) :
    splitOn cut (front ++ cut :: back) = splitOn cut front ++ splitOn cut back :=
  splitWhere_append_cons (by simp) front back

theorem splitOn_eq_singleton (h : cut ∉ text) : splitOn cut text = [text] := by
  refine splitWhere_eq_singleton fun c hc => ?_
  simp only [beq_eq_false_iff_ne, ne_eq]
  rintro rfl
  exact h hc

theorem notMem_of_mem_splitOn (h : piece ∈ splitOn cut text) : cut ∉ piece ∧ ∀ c ∈ piece, c ∈ text := by
  have hcut := not_cut_of_mem_splitWhere h
  exact ⟨fun hmem => by simpa using (hcut cut hmem).1, fun c hc => (hcut c hc).2⟩

theorem splitOn_joinWith {pieces : List Text} (hne : pieces ≠ []) (h : ∀ piece ∈ pieces, cut ∉ piece) :
    splitOn cut (joinWith [cut] pieces) = pieces := by
  unfold joinWith
  induction pieces with
  | nil => exact absurd rfl hne
  | cons piece rest ih =>
    obtain ⟨hpiece, hrest⟩ := List.forall_mem_cons.mp h
    cases rest with
    | nil => simpa using splitOn_eq_singleton hpiece
    | cons next rest =>
      rw [List.intercalate_cons_cons, List.append_assoc, List.singleton_append, splitOn_append_cons,
        splitOn_eq_singleton hpiece, ih (by simp) hrest, List.singleton_append]

/-! ## The last piece -/

theorem exists_last_cut (h : cut ∈ text) : ∃ front back, text = front ++ cut :: back ∧ cut ∉ back := by
  obtain ⟨back, front, htext, hback⟩ := List.eq_append_cons_of_mem (List.mem_reverse.mpr h)
  refine ⟨front.reverse, back.reverse, ?_, by rwa [List.mem_reverse]⟩
  rw [← List.reverse_reverse text, htext]
  simp

theorem getLast?_splitOn_append (front : Text) (h : cut ∉ back) :
    (splitOn cut (front ++ cut :: back)).getLast? = some back := by
  rw [splitOn_append_cons, splitOn_eq_singleton h, List.getLast?_concat]

/-- There is one last cut. -/
theorem eq_of_append_cons_eq {other last : Text} (hback : cut ∉ back) (hlast : cut ∉ last)
    (h : front ++ cut :: back = other ++ cut :: last) : back = last := by
  have hpiece := getLast?_splitOn_append front hback
  rw [h, getLast?_splitOn_append other hlast] at hpiece
  exact (Option.some.inj hpiece).symm

end StyleOrigin.Text
