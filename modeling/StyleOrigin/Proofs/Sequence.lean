import Mathlib.Data.List.Forall2
import Mathlib.Data.List.Induction
import Mathlib.Data.List.Perm.Basic
import Mathlib.Data.List.TakeWhile
import StyleOrigin.Sequence

/-! # Laws of sequences

What the rest of the theory asks of sequences, whatever their elements are.

* `splitWhere_append_cons`, `splitWhere_eq_singleton`: a cut splits the work, and without a cut
  there is one piece.
* `CutInto`, `cutInto_iff`: what the pieces of a sequence are; there is one way to cut it.
* `splitWhere_flatMap_append`, `splitWhere_append_flatMap`: parts with a cut between them are pieces again.
* `exists_trimWhere`, `not_drops_of_trimWhere`: what trimming leaves of a sequence.
* `TrimsTo`, `trimsTo_iff`: what a trimmed sequence is; there is one way to trim it.
* `mapM_eq_ok_iff`, `exists_mapM_eq_ok`: mapping with a function that can fail.
* `forall₂_of_forall₂`: what two sequences made of a third one place by place are to each other.
* `exists_map_eq_of_perm`: a sequence is put into the order of its images.
* `eraseDups_filter`, `eraseDups_append_eq`, `pairwise_idxOf_eraseDups`: a sequence without repetitions
  keeps the first of equal elements.
* `mergeSort_eq_of_perm`: a sequence sorted by a key that tells its elements apart does not depend on
  the order that they came in.
* `StablySorted`, `stablySorted_mergeSort`: a sequence sorted by a key that need not tell its elements
  apart; there is only one such sequence.
-/
set_option autoImplicit false

namespace StyleOrigin

/-! ## Cutting -/

section Cutting
variable {α : Type} {cuts : α → Bool}

theorem splitWhere_cons_of_not_cut {a : α} (ha : cuts a = false) (rest : List α) :
    ∃ piece pieces, splitWhere cuts rest = piece :: pieces ∧
      splitWhere cuts (a :: rest) = (a :: piece) :: pieces := by
  cases h : splitWhere cuts rest with
  | nil => exact absurd h (splitWhere_ne_nil cuts rest)
  | cons piece pieces => exact ⟨piece, pieces, rfl, by simp [splitWhere, ha, h]⟩

theorem splitWhere_append_cons {c : α} (hc : cuts c = true) (front back : List α) :
    splitWhere cuts (front ++ c :: back) = splitWhere cuts front ++ splitWhere cuts back := by
  induction front with
  | nil => simp [splitWhere, hc]
  | cons a front ih =>
    cases ha : cuts a with
    | true => simp [splitWhere, ha, ih]
    | false =>
      obtain ⟨piece, pieces, hfront, hcons⟩ := splitWhere_cons_of_not_cut ha front
      rw [hcons]
      simp [splitWhere, ha, ih, hfront]

theorem splitWhere_eq_singleton {sequence : List α} (h : ∀ a ∈ sequence, cuts a = false) :
    splitWhere cuts sequence = [sequence] := by
  induction sequence with
  | nil => rfl
  | cons a rest ih =>
    have ha : cuts a = false := h a (by simp)
    have hrest := ih fun b hb => h b (by simp [hb])
    simp [splitWhere, ha, hrest]

/-- What stands in front of all cuts belongs to the first piece. -/
theorem splitWhere_append_of_not_cut {front : List α} (hfront : ∀ a ∈ front, cuts a = false)
    (back : List α) :
    ∃ piece pieces, splitWhere cuts back = piece :: pieces ∧
      splitWhere cuts (front ++ back) = (front ++ piece) :: pieces := by
  induction front with
  | nil =>
    obtain ⟨piece, pieces, hback⟩ := List.exists_cons_of_ne_nil (splitWhere_ne_nil cuts back)
    exact ⟨piece, pieces, hback, hback⟩
  | cons a front ih =>
    obtain ⟨ha, hrest⟩ := List.forall_mem_cons.mp hfront
    obtain ⟨piece, pieces, hback, happend⟩ := ih hrest
    obtain ⟨first, others, hfirst, hcons⟩ := splitWhere_cons_of_not_cut ha (front ++ back)
    obtain ⟨rfl, rfl⟩ := List.cons.inj (happend.symm.trans hfirst)
    exact ⟨piece, _, hback, hcons⟩

theorem not_cut_of_mem_splitWhere {sequence piece : List α} (h : piece ∈ splitWhere cuts sequence) :
    ∀ a ∈ piece, cuts a = false ∧ a ∈ sequence := by
  induction sequence generalizing piece with
  | nil =>
    have hpiece : piece = [] := by simpa [splitWhere] using h
    simp [hpiece]
  | cons b rest ih =>
    cases hb : cuts b with
    | true =>
      have hcases : piece = [] ∨ piece ∈ splitWhere cuts rest := by simpa [splitWhere, hb] using h
      rcases hcases with rfl | hmem
      · simp
      · intro a ha
        exact ⟨(ih hmem a ha).1, List.mem_cons_of_mem b (ih hmem a ha).2⟩
    | false =>
      obtain ⟨first, others, hrest, hcons⟩ := splitWhere_cons_of_not_cut hb rest
      rw [hcons, List.mem_cons] at h
      rcases h with rfl | hmem
      · intro a ha
        rcases List.mem_cons.mp ha with rfl | ha
        · exact ⟨hb, by simp⟩
        · have hfirst : first ∈ splitWhere cuts rest := by simp [hrest]
          have := ih hfirst a ha
          exact ⟨this.1, List.mem_cons_of_mem b this.2⟩
      · intro a ha
        have hpiece : piece ∈ splitWhere cuts rest := by simp [hrest, hmem]
        have := ih hpiece a ha
        exact ⟨this.1, List.mem_cons_of_mem b this.2⟩

/-- A sequence is made of pieces, and between any two of them there is one element to cut at. No piece
holds such an element. -/
inductive CutInto (cuts : α → Bool) : List α → List (List α) → Prop
  | last {piece : List α} (hpiece : ∀ a ∈ piece, cuts a = false) : CutInto cuts piece [piece]
  | cons {piece rest : List α} {pieces : List (List α)} {c : α} (hpiece : ∀ a ∈ piece, cuts a = false)
      (hc : cuts c = true) (hrest : CutInto cuts rest pieces) :
      CutInto cuts (piece ++ c :: rest) (piece :: pieces)

theorem CutInto.cons_of_not_cut {a : α} (ha : cuts a = false) {rest piece : List α}
    {pieces : List (List α)} (h : CutInto cuts rest (piece :: pieces)) :
    CutInto cuts (a :: rest) ((a :: piece) :: pieces) := by
  cases h with
  | last hpiece => exact .last (List.forall_mem_cons.mpr ⟨ha, hpiece⟩)
  | cons hpiece hc hrest => exact .cons (List.forall_mem_cons.mpr ⟨ha, hpiece⟩) hc hrest

theorem cutInto_splitWhere (cuts : α → Bool) (sequence : List α) :
    CutInto cuts sequence (splitWhere cuts sequence) := by
  induction sequence with
  | nil => exact .last (by simp)
  | cons a rest ih =>
    cases ha : cuts a with
    | true =>
      rw [splitWhere, if_pos ha]
      have hnil : ∀ b ∈ ([] : List α), cuts b = false := by simp
      exact .cons hnil ha ih
    | false =>
      obtain ⟨piece, pieces, hrest, hcons⟩ := splitWhere_cons_of_not_cut ha rest
      rw [hcons]
      rw [hrest] at ih
      exact ih.cons_of_not_cut ha

/-- There is one way to cut a sequence. -/
theorem cutInto_iff {sequence : List α} {pieces : List (List α)} :
    CutInto cuts sequence pieces ↔ splitWhere cuts sequence = pieces := by
  constructor
  · intro h
    induction h with
    | last hpiece => exact splitWhere_eq_singleton hpiece
    | cons hpiece hc _ ih =>
      rw [splitWhere_append_cons hc, splitWhere_eq_singleton hpiece, ih, List.singleton_append]
  · rintro rfl
    exact cutInto_splitWhere cuts sequence

theorem splitWhere_map {β : Type} {cuts' : β → Bool} {f : α → β} (h : ∀ a, cuts' (f a) = cuts a)
    (sequence : List α) :
    splitWhere cuts' (sequence.map f) = (splitWhere cuts sequence).map (List.map f) := by
  induction sequence with
  | nil => rfl
  | cons a rest ih =>
    cases ha : cuts a with
    | true => simp [splitWhere, h, ha, ih]
    | false =>
      obtain ⟨piece, pieces, hrest, hcons⟩ := splitWhere_cons_of_not_cut ha rest
      rw [hcons, List.map_cons, splitWhere, h, ha, ih, hrest]
      rfl

section Parts
variable {β : Type} {c : α} {f : β → List α}

/-- Parts with a cut behind each of them are pieces. -/
theorem splitWhere_flatMap_append (hc : cuts c = true) {parts : List β}
    (h : ∀ part ∈ parts, ∀ a ∈ f part, cuts a = false) (back : List α) :
    splitWhere cuts (parts.flatMap (fun part => f part ++ [c]) ++ back) =
      parts.map f ++ splitWhere cuts back := by
  induction parts with
  | nil => rfl
  | cons part rest ih =>
    obtain ⟨hpart, hrest⟩ := List.forall_mem_cons.mp h
    rw [List.flatMap_cons, List.append_assoc, List.append_assoc, List.singleton_append,
      splitWhere_append_cons hc, splitWhere_eq_singleton hpart, ih hrest]
    rfl

/-- Parts with a cut in front of each of them are pieces behind what stands first. -/
theorem splitWhere_append_flatMap (hc : cuts c = true) {parts : List β}
    (h : ∀ part ∈ parts, ∀ a ∈ f part, cuts a = false) {first : List α}
    (hfirst : ∀ a ∈ first, cuts a = false) :
    splitWhere cuts (first ++ parts.flatMap fun part => c :: f part) = first :: parts.map f := by
  induction parts generalizing first with
  | nil => rw [List.flatMap_nil, List.append_nil, splitWhere_eq_singleton hfirst, List.map_nil]
  | cons part rest ih =>
    obtain ⟨hpart, hrest⟩ := List.forall_mem_cons.mp h
    rw [List.flatMap_cons, List.cons_append, splitWhere_append_cons hc,
      splitWhere_eq_singleton hfirst, ih hrest hpart]
    rfl

end Parts

end Cutting

/-! ## Trimming -/

section Trimming
variable {α : Type} {drops : α → Bool}

/-- Trimming takes away elements of the class at the two ends. -/
theorem exists_trimWhere (drops : α → Bool) (sequence : List α) :
    ∃ front back, sequence = front ++ (trimWhere drops sequence ++ back) ∧
      (∀ a ∈ front, drops a = true) ∧ ∀ a ∈ back, drops a = true := by
  have hback := List.takeWhile_append_dropWhile (p := drops)
    (l := (sequence.dropWhile drops).reverse)
  refine ⟨sequence.takeWhile drops, ((sequence.dropWhile drops).reverse.takeWhile drops).reverse,
    ?_, fun a ha => List.mem_takeWhile_imp ha,
    fun a ha => List.mem_takeWhile_imp (List.mem_reverse.mp ha)⟩
  rw [trimWhere, ← List.reverse_append, hback, List.reverse_reverse, List.takeWhile_append_dropWhile]

/-- What is left begins and ends with an element to keep. -/
theorem not_drops_of_trimWhere {sequence : List α} {a : α}
    (h : a ∈ (trimWhere drops sequence).head? ∨ a ∈ (trimWhere drops sequence).getLast?) :
    drops a = false := by
  have hfirst (kept : List α) (hkept : a ∈ (kept.dropWhile drops).head?) : drops a = false := by
    have := List.head?_dropWhile_not drops kept
    rw [Option.mem_def.mp hkept] at this
    simpa using this
  rcases h with h | h
  · have hbegins : trimWhere drops sequence <+: sequence.dropWhile drops := by
      rw [trimWhere, ← List.reverse_suffix, List.reverse_reverse]
      exact List.dropWhile_suffix _
    obtain ⟨rest, hrest⟩ := hbegins
    refine hfirst sequence ?_
    rw [← hrest, List.head?_append, Option.mem_def.mp h]
    rfl
  · rw [trimWhere, List.getLast?_reverse] at h
    exact hfirst _ h

theorem trimWhere_eq_self {sequence : List α}
    (hhead : ∀ a ∈ sequence.head?, drops a = false) (hlast : ∀ a ∈ sequence.getLast?, drops a = false) :
    trimWhere drops sequence = sequence := by
  have hkeeps (kept : List α) (hkept : ∀ a ∈ kept.head?, drops a = false) :
      kept.dropWhile drops = kept := by
    cases kept with
    | nil => rfl
    | cons a rest => rw [List.dropWhile_cons_of_neg (by simp [hkept a rfl])]
  rw [trimWhere, hkeeps sequence hhead, hkeeps _ (by rwa [List.head?_reverse]), List.reverse_reverse]

/-- Nothing is left if there is nothing to keep. -/
theorem trimWhere_eq_nil_iff {sequence : List α} :
    trimWhere drops sequence = [] ↔ ∀ a ∈ sequence, drops a = true := by
  constructor
  · intro h
    obtain ⟨front, back, hparts, hfront, hback⟩ := exists_trimWhere drops sequence
    rw [h, List.nil_append] at hparts
    intro a ha
    rw [hparts] at ha
    exact (List.mem_append.mp ha).elim (hfront a) (hback a)
  · intro h
    rw [trimWhere, List.dropWhile_eq_nil_iff.mpr h]
    rfl

/-- Elements of the class at the end are trimmed. -/
theorem trimWhere_append_of_drops {sequence back : List α} (h : ∀ a ∈ back, drops a = true) :
    trimWhere drops (sequence ++ back) = trimWhere drops sequence := by
  have hback : ∀ a ∈ back.reverse, drops a = true := fun a ha => h a (List.mem_reverse.mp ha)
  rw [trimWhere, trimWhere, List.dropWhile_append]
  split
  · rename_i hempty
    have hnil : sequence.dropWhile drops = [] := by simpa using hempty
    rw [hnil, List.dropWhile_eq_nil_iff.mpr h]
  · rw [List.reverse_append, List.dropWhile_append_of_pos hback]

theorem trimWhere_of_drops_append {front sequence : List α} (h : ∀ a ∈ front, drops a = true) :
    trimWhere drops (front ++ sequence) = trimWhere drops sequence := by
  rw [trimWhere, trimWhere, List.dropWhile_append_of_pos h]

/-- What is left of a sequence when elements of a class are taken away at both ends as far as they go. -/
structure TrimsTo (drops : α → Bool) (sequence kept : List α) : Prop where
  ends : ∃ front back, sequence = front ++ (kept ++ back) ∧
    (∀ a ∈ front, drops a = true) ∧ ∀ a ∈ back, drops a = true
  head : ∀ a ∈ kept.head?, drops a = false
  last : ∀ a ∈ kept.getLast?, drops a = false

/-- There is one way to trim a sequence. -/
theorem trimsTo_iff {sequence kept : List α} :
    TrimsTo drops sequence kept ↔ trimWhere drops sequence = kept := by
  constructor
  · rintro ⟨⟨front, back, rfl, hfront, hback⟩, hhead, hlast⟩
    rw [trimWhere_of_drops_append hfront, trimWhere_append_of_drops hback,
      trimWhere_eq_self hhead hlast]
  · rintro rfl
    exact ⟨exists_trimWhere drops sequence, fun a ha => not_drops_of_trimWhere (.inl ha),
      fun a ha => not_drops_of_trimWhere (.inr ha)⟩

theorem trimWhere_map {β : Type} {drops' : β → Bool} {f : α → β} (h : ∀ a, drops' (f a) = drops a)
    (sequence : List α) : trimWhere drops' (sequence.map f) = (trimWhere drops sequence).map f := by
  have hdrops : drops' ∘ f = drops := funext h
  simp only [trimWhere, List.dropWhile_map, ← List.map_reverse, hdrops]

end Trimming

/-! ## The last element -/

theorem mem_getLast?_cons {α : Type} {a b : α} {rest : List α} (h : b ∈ rest.getLast?) :
    b ∈ (a :: rest).getLast? := by
  cases rest with
  | nil => simp at h
  | cons next more => simpa [List.getLast?_cons_cons] using h

theorem forall_mem_getLast?_cons {α : Type} {p : α → Prop} {a : α} {rest : List α}
    (hfirst : rest = [] → p a) (hrest : ∀ b ∈ rest.getLast?, p b) :
    ∀ b ∈ (a :: rest).getLast?, p b := by
  intro b hb
  cases rest with
  | nil =>
    obtain rfl : a = b := by simpa using hb
    exact hfirst rfl
  | cons next more => exact hrest b (by simpa using hb)

/-! ## Mapping with faults -/

section Mapping
variable {α β ε : Type} {f : α → Except ε β}

theorem isOk_iff_exists {result : Except ε α} : result.isOk = true ↔ ∃ a, result = .ok a := by
  cases result with
  | error fault => simp [Except.isOk, Except.toBool]
  | ok a => simp [Except.isOk, Except.toBool]

theorem isOk_bind (result : Except ε α) (g : α → Except ε β) {ok : Bool} (h : ∀ a, (g a).isOk = ok) :
    (result >>= g).isOk = (result.isOk && ok) := by
  cases result with
  | error fault => rfl
  | ok a => exact (h a).trans (Bool.true_and ok).symm

theorem isOk_return (result : Except ε α) (g : α → β) :
    (result >>= fun a => return g a).isOk = result.isOk := by
  cases result <;> rfl

theorem exists_of_map_eq_ok {result : Except ε α} {g : α → β} {b : β} (h : result.map g = .ok b) :
    ∃ a, result = .ok a ∧ g a = b := by
  cases result with
  | error fault => exact absurd h (by simp [Except.map])
  | ok a => exact ⟨a, rfl, Except.ok.inj h⟩

theorem mapM_eq_ok_iff {xs : List α} {ys : List β} :
    xs.mapM f = .ok ys ↔ List.Forall₂ (fun x y => f x = .ok y) xs ys := by
  induction xs generalizing ys with
  | nil =>
    rw [List.mapM_nil, List.forall₂_nil_left_iff]
    exact ⟨fun h => (Except.ok.inj h).symm, fun h => h ▸ rfl⟩
  | cons x xs ih =>
    rw [List.mapM_cons]
    constructor
    · intro h
      cases hx : f x with
      | error fault => simp [hx, bind, Except.bind] at h
      | ok y =>
        cases hxs : xs.mapM f with
        | error fault => simp [hx, hxs, bind, Except.bind] at h
        | ok rest =>
          have hys : y :: rest = ys := by simpa [hx, hxs, bind, Except.bind, pure, Except.pure] using h
          exact hys ▸ .cons hx (ih.mp hxs)
    · intro h
      cases h with
      | cons hx hrest => simp [hx, ih.mpr hrest, bind, Except.bind, pure, Except.pure]

theorem mapM_eq_ok_map {g : α → β} (h : ∀ x, f x = .ok (g x)) (xs : List α) :
    xs.mapM f = .ok (xs.map g) :=
  mapM_eq_ok_iff.mpr (List.forall₂_map_right_iff.mpr (List.forall₂_same.mpr fun x _ => h x))

theorem exists_mapM_eq_ok {xs : List α} (h : ∀ x ∈ xs, ∃ y, f x = .ok y) :
    ∃ ys, xs.mapM f = .ok ys := by
  induction xs with
  | nil => exact ⟨[], rfl⟩
  | cons x xs ih =>
    obtain ⟨y, hy⟩ := h x (by simp)
    obtain ⟨ys, hys⟩ := ih fun z hz => h z (by simp [hz])
    exact ⟨y :: ys, by rw [mapM_eq_ok_iff]; exact .cons hy (mapM_eq_ok_iff.mp hys)⟩

/-- The fault of a sequence is that of one of its elements. -/
theorem exists_of_mapM_eq_error {xs : List α} {fault : ε} (h : xs.mapM f = .error fault) :
    ∃ x ∈ xs, f x = .error fault := by
  induction xs with
  | nil => exact absurd h (by simp [pure, Except.pure])
  | cons x xs ih =>
    rw [List.mapM_cons] at h
    cases hx : f x with
    | error first =>
      have hfirst : first = fault := by simpa [hx, bind, Except.bind] using h
      exact ⟨x, by simp, by rw [hx, hfirst]⟩
    | ok y =>
      cases hxs : xs.mapM f with
      | ok rest => simp [hx, hxs, bind, Except.bind, pure, Except.pure] at h
      | error later =>
        have hlater : later = fault := by simpa [hx, hxs, bind, Except.bind] using h
        obtain ⟨z, hz, hfault⟩ := ih (hlater ▸ hxs)
        exact ⟨z, by simp [hz], hfault⟩

theorem exists_of_mem_forall₂_left {R : α → β → Prop} {xs : List α} {ys : List β}
    (h : List.Forall₂ R xs ys) {x : α} (hx : x ∈ xs) : ∃ y ∈ ys, R x y := by
  induction h with
  | nil => simp at hx
  | cons hxy _ ih =>
    rcases List.mem_cons.mp hx with rfl | hmem
    · exact ⟨_, by simp, hxy⟩
    · obtain ⟨y, hy, hrel⟩ := ih hmem
      exact ⟨y, by simp [hy], hrel⟩

theorem exists_mapM_eq_ok_iff {xs : List α} :
    (∃ ys, xs.mapM f = .ok ys) ↔ ∀ x ∈ xs, ∃ y, f x = .ok y := by
  refine ⟨?_, exists_mapM_eq_ok⟩
  rintro ⟨ys, hys⟩ x hx
  obtain ⟨y, -, hy⟩ := exists_of_mem_forall₂_left (mapM_eq_ok_iff.mp hys) hx
  exact ⟨y, hy⟩

theorem mem_of_mapM_eq_ok {xs : List α} {ys : List β} (h : xs.mapM f = .ok ys) (y : β) :
    y ∈ ys ↔ ∃ x ∈ xs, f x = .ok y := by
  have hall := mapM_eq_ok_iff.mp h
  clear h
  induction hall with
  | nil => simp
  | cons hx _ ih => simp [ih, hx, eq_comm]

theorem exists_of_mem_forall₂_right {R : α → β → Prop} {xs : List α} {ys : List β}
    (h : List.Forall₂ R xs ys) {y : β} (hy : y ∈ ys) : ∃ x ∈ xs, R x y := by
  induction h with
  | nil => simp at hy
  | cons hxy _ ih =>
    rcases List.mem_cons.mp hy with rfl | hmem
    · exact ⟨_, by simp, hxy⟩
    · obtain ⟨x, hx, hrel⟩ := ih hmem
      exact ⟨x, by simp [hx], hrel⟩

/-- Sequences that stand to a third one place by place stand to each other so. -/
theorem forall₂_of_forall₂ {γ : Type} {R : α → β → Prop} {R' : α → γ → Prop} {S : β → γ → Prop}
    {xs : List α} {ys : List β} {zs : List γ} (h : List.Forall₂ R xs ys) (h' : List.Forall₂ R' xs zs)
    (hboth : ∀ x ∈ xs, ∀ y z, R x y → R' x z → S y z) : List.Forall₂ S ys zs := by
  induction h generalizing zs with
  | nil =>
    cases h'
    exact .nil
  | cons hxy _ ih =>
    cases h' with
    | cons hxz hrest =>
      obtain ⟨hfirst, hothers⟩ := List.forall_mem_cons.mp hboth
      exact .cons (hfirst _ _ hxy hxz) (ih hrest hothers)

end Mapping

/-! ## Selecting by a key -/

section Selecting
variable {α β κ : Type}

theorem filter_key_eq_singleton [BEq κ] [LawfulBEq κ] {key : α → κ} {xs : List α}
    (h : (xs.map key).Nodup) {a : α} (ha : a ∈ xs) : (xs.filter fun b => key b == key a) = [a] := by
  induction xs with
  | nil => exact absurd ha (by simp)
  | cons x xs ih =>
    rw [List.map_cons, List.nodup_cons] at h
    obtain ⟨hx, hxs⟩ := h
    rcases List.mem_cons.mp ha with rfl | hmem
    · have hothers : (xs.filter fun b => key b == key a) = [] := by
        apply List.filter_eq_nil_iff.mpr
        intro b hb hsame
        exact hx (List.mem_map.mpr ⟨b, hb, beq_iff_eq.mp hsame⟩)
      simp [hothers]
    · have hne : key x ≠ key a := by
        intro heq
        exact hx (List.mem_map.mpr ⟨a, hmem, heq.symm⟩)
      rw [List.filter_cons_of_neg (by simpa using hne), ih hxs hmem]

/-- Sequences that have the same elements of a class at the same places have the same elements of it. -/
theorem filter_eq_of_forall₂ {keeps : α → Bool} {xs ys : List α}
    (h : List.Forall₂ (fun x y => keeps x = keeps y ∧ (keeps x = true → x = y)) xs ys) :
    xs.filter keeps = ys.filter keeps := by
  induction h with
  | nil => rfl
  | @cons x y xs ys hxy _ ih =>
    obtain ⟨hsame, heq⟩ := hxy
    cases hx : keeps x with
    | true =>
      obtain rfl := heq hx
      rw [List.filter_cons_of_pos hx, List.filter_cons_of_pos hx, ih]
    | false =>
      have hy : keeps y = false := hsame.symm.trans hx
      rw [List.filter_cons_of_neg (by simp [hx]), List.filter_cons_of_neg (by simp [hy]), ih]

theorem map_eq_of_forall₂ {γ : Type} {R : α → β → Prop} {f : α → γ} {g : β → γ} {xs : List α}
    {ys : List β} (h : List.Forall₂ R xs ys) (hkey : ∀ x ∈ xs, ∀ y, R x y → f x = g y) :
    xs.map f = ys.map g := by
  induction h with
  | nil => rfl
  | cons hxy _ ih =>
    obtain ⟨hfirst, hrest⟩ := List.forall_mem_cons.mp hkey
    rw [List.map_cons, List.map_cons, hfirst _ hxy, ih hrest]

/-- A sequence can be put into the order of its images. -/
theorem exists_map_eq_of_perm {f : α → β} {xs : List α} {ys : List β} (h : (xs.map f).Perm ys) :
    ∃ zs : List α, zs.map f = ys ∧ zs.Perm xs := by
  have himages : List.Forall₂ (fun y x => y = f x) (xs.map f) xs :=
    List.forall₂_map_left_iff.mpr (List.forall₂_same.mpr fun _ _ => rfl)
  obtain ⟨zs, hzs, hperm⟩ := List.perm_comp_forall₂ h.symm himages
  refine ⟨zs, ?_, hperm⟩
  simpa using (map_eq_of_forall₂ (f := id) hzs fun y _ x hyx => hyx).symm

end Selecting

/-! ## First occurrences -/

section Distinct
variable {α : Type} [BEq α] [LawfulBEq α]

theorem eraseDups_concat (xs : List α) (a : α) :
    (xs ++ [a]).eraseDups = xs.eraseDups ++ if a ∈ xs then [] else [a] := by
  rw [List.eraseDups_append]
  by_cases h : a ∈ xs <;> simp [List.removeAll, List.eraseDups_cons, h]

theorem eraseDups_filter (keeps : α → Bool) (xs : List α) :
    (xs.filter keeps).eraseDups = xs.eraseDups.filter keeps := by
  induction xs using List.reverseRecOn with
  | nil => rfl
  | append_singleton xs a ih =>
    rw [eraseDups_concat, List.filter_append, List.filter_append, ← ih]
    cases ha : keeps a with
    | false => split <;> simp [ha]
    | true =>
      rw [List.filter_cons_of_pos ha, List.filter_nil, eraseDups_concat]
      by_cases hmem : a ∈ xs <;> simp [hmem, ha]

/-- Behind the elements of a first sequence, those of a second one follow that are new. -/
theorem eraseDups_append_eq (xs ys : List α) :
    (xs ++ ys).eraseDups = xs.eraseDups ++ ys.eraseDups.filter fun a => !xs.eraseDups.contains a := by
  rw [List.eraseDups_append, List.removeAll, eraseDups_filter]
  refine congrArg _ (List.filter_congr fun a _ => ?_)
  simp [List.mem_eraseDups]

/-- Without repetitions, elements stand in the order of their first places. -/
theorem pairwise_idxOf_eraseDups (xs : List α) :
    xs.eraseDups.Pairwise fun a b => xs.idxOf a < xs.idxOf b := by
  induction xs using List.reverseRecOn with
  | nil => exact .nil
  | append_singleton xs a ih =>
    rw [eraseDups_concat, List.pairwise_append]
    refine ⟨ih.imp_of_mem ?_, ?_, ?_⟩
    · intro b c hb hc hlt
      rw [List.mem_eraseDups] at hb hc
      rwa [List.idxOf_append, List.idxOf_append, if_pos hb, if_pos hc]
    · split <;> simp
    · intro b hb c hc
      rw [List.mem_eraseDups] at hb
      split at hc
      · exact absurd hc (by simp)
      · rename_i hnew
        obtain rfl := List.mem_singleton.mp hc
        rw [List.idxOf_append, List.idxOf_append, if_pos hb, if_neg hnew]
        exact Nat.lt_of_lt_of_le (List.idxOf_lt_length_of_mem hb) (Nat.le_add_left _ _)

end Distinct

/-! ## Sorting by a key -/

section Sorting
variable {α : Type} (key : α → Nat)

theorem keyed_trans (a b c : α) (hab : decide (key a ≤ key b) = true)
    (hbc : decide (key b ≤ key c) = true) : decide (key a ≤ key c) = true := by
  rw [decide_eq_true_eq] at *
  exact Nat.le_trans hab hbc

theorem keyed_total (a b : α) : (decide (key a ≤ key b) || decide (key b ≤ key a)) = true := by
  simp only [Bool.or_eq_true, decide_eq_true_eq]
  exact Nat.le_total _ _

theorem pairwise_mergeSort_key (xs : List α) :
    (xs.mergeSort fun a b => key a ≤ key b).Pairwise fun a b => key a ≤ key b := by
  exact (List.pairwise_mergeSort (keyed_trans key) (keyed_total key) xs).imp fun hab => by
    simpa using hab

theorem mergeSort_eq_of_perm {xs ys : List α} (h : xs.Perm ys)
    (hkey : ∀ a ∈ xs, ∀ b ∈ xs, key a = key b → a = b) :
    xs.mergeSort (fun a b => key a ≤ key b) = ys.mergeSort fun a b => key a ≤ key b := by
  have hxs := List.mergeSort_perm xs fun a b => key a ≤ key b
  have hys := List.mergeSort_perm ys fun a b => key a ≤ key b
  refine List.Perm.eq_of_pairwise ?_ (pairwise_mergeSort_key key xs) (pairwise_mergeSort_key key ys)
    ((hxs.trans h).trans hys.symm)
  intro a b ha hb hab hba
  exact hkey a (hxs.mem_iff.mp ha) b (h.mem_iff.mpr (hys.mem_iff.mp hb)) (Nat.le_antisymm hab hba)

/-- A sequence is sorted by a key, and elements with one key stand in it as they came in. -/
structure StablySorted (arrived sorted : List α) : Prop where
  pairwise : sorted.Pairwise fun a b => key a ≤ key b
  filter_eq : ∀ n, (sorted.filter fun a => key a == n) = arrived.filter fun a => key a == n

variable {key}

/-- Keys and stability leave no choice. -/
theorem StablySorted.unique {arrived sorted other : List α} (h : StablySorted key arrived sorted)
    (h' : StablySorted key arrived other) : sorted = other := by
  have hsame : ∀ n, (sorted.filter fun a => key a == n) = other.filter fun a => key a == n :=
    fun n => (h.filter_eq n).trans (h'.filter_eq n).symm
  have hsorted := h.pairwise
  have hother := h'.pairwise
  clear h h'
  induction sorted generalizing other with
  | nil =>
    symm
    apply List.eq_nil_iff_forall_not_mem.mpr
    intro b hb
    have hnil := hsame (key b)
    rw [List.filter_nil, eq_comm, List.filter_eq_nil_iff] at hnil
    exact hnil b hb (by simp)
  | cons a rest ih =>
    have hmem : ∀ b, b ∈ a :: rest ↔ b ∈ other := by
      intro b
      have hclass := congrArg (b ∈ ·) (hsame (key b))
      simpa using hclass
    cases other with
    | nil => exact absurd ((hmem a).mp List.mem_cons_self) (by simp)
    | cons b others =>
      rw [List.pairwise_cons] at hsorted hother
      have hle : key a ≤ key b := by
        rcases List.mem_cons.mp ((hmem b).mpr List.mem_cons_self) with rfl | hb
        · exact Nat.le_refl _
        · exact hsorted.1 b hb
      have hge : key b ≤ key a := by
        rcases List.mem_cons.mp ((hmem a).mp List.mem_cons_self) with rfl | ha
        · exact Nat.le_refl _
        · exact hother.1 a ha
      have hkey : key b = key a := Nat.le_antisymm hge hle
      have hfirst := hsame (key a)
      simp only [List.filter_cons, hkey, beq_self_eq_true, if_true] at hfirst
      obtain ⟨rfl, -⟩ := List.cons.inj hfirst
      rw [ih (fun n => ?_) hsorted.2 hother.2]
      have hn := hsame n
      simp only [List.filter_cons] at hn
      split at hn
      · exact (List.cons.inj hn).2
      · exact hn

theorem StablySorted.of_pairwise {xs : List α} (h : xs.Pairwise fun a b => key a ≤ key b) :
    StablySorted key xs xs :=
  ⟨h, fun _ => rfl⟩

theorem stablySorted_mergeSort (xs : List α) :
    StablySorted key xs (xs.mergeSort fun a b => key a ≤ key b) := by
  refine ⟨pairwise_mergeSort_key key xs, fun n => ?_⟩
  -- A class of equal keys is sorted as it stands, so sorting keeps it as a subsequence.
  have hclass : (xs.filter fun a => key a == n).Pairwise fun a b => decide (key a ≤ key b) = true := by
    apply List.pairwise_of_forall_mem_list
    intro a ha b hb
    have ha : key a = n := by simpa using (List.mem_filter.mp ha).2
    have hb : key b = n := by simpa using (List.mem_filter.mp hb).2
    simp [ha, hb]
  have hsub := (List.sublist_mergeSort (keyed_trans key) (keyed_total key) hclass
    List.filter_sublist).filter fun a => key a == n
  rw [List.filter_filter] at hsub
  simp only [Bool.and_self] at hsub
  exact (hsub.eq_of_length ((List.mergeSort_perm xs _).filter _).length_eq.symm).symm

end Sorting

end StyleOrigin
