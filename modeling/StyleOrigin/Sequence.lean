/-!
Cutting a sequence at the elements of a class, and trimming the elements of a class off its ends.
Texts are cut into words, lines and path parts this way, and preludes into selectors.

* `splitWhere`: the pieces between the cuts; there is always at least one.
* `trimWhere`: what is left between the first and the last element to keep.
-/
set_option autoImplicit false

namespace StyleOrigin

/-- The pieces of a sequence between the elements of a class, empty pieces included. -/
def splitWhere {α : Type} (cuts : α → Bool) : List α → List (List α)
  | [] => [[]]
  | a :: rest =>
    if cuts a then [] :: splitWhere cuts rest
    else
      match splitWhere cuts rest with
      | [] => [[a]]
      | piece :: pieces => (a :: piece) :: pieces

/-- A sequence without the elements of a class at its two ends. -/
def trimWhere {α : Type} (drops : α → Bool) (sequence : List α) : List α :=
  ((sequence.dropWhile drops).reverse.dropWhile drops).reverse

theorem splitWhere_ne_nil {α : Type} (cuts : α → Bool) (sequence : List α) :
    splitWhere cuts sequence ≠ [] := by
  cases sequence with
  | nil => simp [splitWhere]
  | cons a rest =>
    rw [splitWhere]
    split
    · simp
    · split <;> simp

end StyleOrigin
