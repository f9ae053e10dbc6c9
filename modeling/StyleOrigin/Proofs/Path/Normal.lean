import Mathlib.Data.List.Induction
import StyleOrigin.Path.Basic
import StyleOrigin.Proofs.Text.Cutting

/-! # Normal forms of paths

A path is its root and its parts; detours are resolved by a stack of parts. Everything here goes
through `Path.parts`: what joining, putting together and resolving do to the parts of a path.

* `parts_join`, `parts_build`: the parts of joined paths and of a path put together from parts.
* `normalize_join`: the normal form of joined paths, by their parts.
* `resolveDots_append_resolveDots`: detours behind other parts may be resolved beforehand.
* `absolute_normalize`: bringing a path to its normal form first does not change its absolute form.
* `IsPlain`, `eq_of_absolute_eq`: paths in normal form that lead down from a directory, of which there is
  one for each file.
-/
set_option autoImplicit false

namespace StyleOrigin.Path

/-! ## Parts -/

/-- A text that can be a part of a path: not empty, not a single dot, and without a slash. -/
def IsPart (part : Text) : Prop :=
  part ≠ [] ∧ part ≠ ['.'] ∧ '/' ∉ part

theorem parts_nil : parts [] = [] := rfl

theorem parts_dot : parts ['.'] = [] := rfl

theorem parts_append_slash (front back : Text) :
    parts (front ++ '/' :: back) = parts front ++ parts back := by
  unfold parts
  rw [Text.splitOn_append_cons, List.filter_append]

theorem parts_slash_cons (path : Text) : parts ('/' :: path) = parts path :=
  parts_append_slash [] path

theorem isPart_of_mem_parts {path part : Text} (h : part ∈ parts path) :
    IsPart part ∧ ∀ c ∈ part, c ∈ path := by
  unfold parts at h
  rw [List.mem_filter] at h
  obtain ⟨hslash, hmem⟩ := Text.notMem_of_mem_splitOn h.1
  have hshape : part ≠ [] ∧ part ≠ ['.'] := by simpa using h.2
  exact ⟨⟨hshape.1, hshape.2, hslash⟩, hmem⟩

theorem parts_joinWith {pieces : List Text} (h : ∀ piece ∈ pieces, IsPart piece) :
    parts (Text.joinWith ['/'] pieces) = pieces := by
  by_cases hne : pieces = []
  · rw [hne]
    rfl
  · unfold parts
    rw [Text.splitOn_joinWith hne fun piece hpiece => (h piece hpiece).2.2, List.filter_eq_self]
    intro piece hpiece
    obtain ⟨hnil, hdot, -⟩ := h piece hpiece
    simp [hnil, hdot]

theorem parts_join (base path : Text) :
    parts (join base path) = if isAbsolute path then parts path else parts base ++ parts path := by
  unfold join
  split
  · rfl
  · split
    · rename_i hbase
      rcases Bool.or_eq_true_iff.mp hbase with hempty | hslash
      · have hnil : base = [] := by simpa using hempty
        simp [hnil, parts_nil]
      · obtain ⟨init, rfl⟩ : ∃ init, base = init ++ ['/'] := by
          have hlast : base.getLast? = some '/' := by simpa using hslash
          exact List.getLast?_eq_some_iff.mp hlast
        rw [List.append_assoc, List.singleton_append, parts_append_slash, parts_append_slash,
          parts_nil, List.append_nil]
    · exact parts_append_slash base path

theorem root_eq_nil_iff (path : Text) : root path = [] ↔ isAbsolute path = false := by
  cases path with
  | nil => simp [root, isAbsolute]
  | cons c rest =>
    by_cases hc : c = '/'
    · subst hc
      unfold root isAbsolute
      split <;> simp_all
    · have hroot : root (c :: rest) = [] := by
        unfold root
        split <;> simp_all
      simp [hroot, isAbsolute, hc]

theorem root_mem (path : Text) : ∀ c ∈ root path, c = '/' := by
  unfold root
  split <;> simp

theorem isEmpty_root (path : Text) : (root path).isEmpty = !isAbsolute path := by
  have h := root_eq_nil_iff path
  cases hroot : root path <;> cases habs : isAbsolute path <;> simp_all

/-- The root is in front of everything else, so no relative path behind it counts. -/
theorem root_append_of_relative {front back : Text} (h : isAbsolute back = false) :
    root (front ++ back) = root front := by
  cases back with
  | nil => rw [List.append_nil]
  | cons d back =>
    have hd : d ≠ '/' := by simpa [isAbsolute] using h
    match front with
    | [] => exact (root_eq_nil_iff _).mpr h
    | [a] => by_cases ha : a = '/' <;> simp [root, ha, hd]
    | [a, b] => by_cases ha : a = '/' <;> by_cases hb : b = '/' <;> simp [root, ha, hb, hd]
    | a :: b :: c :: front =>
      by_cases ha : a = '/' <;> by_cases hb : b = '/' <;> by_cases hc : c = '/' <;>
        simp [root, ha, hb, hc]

theorem root_join {base path : Text} (hpath : isAbsolute path = false) :
    root (join base path) = root base := by
  unfold join
  simp only [hpath, Bool.false_eq_true, if_false]
  split
  · exact root_append_of_relative hpath
  · rename_i hbase
    obtain ⟨hne, hlast⟩ : base ≠ [] ∧ base.getLast? ≠ some '/' := by simpa using hbase
    obtain ⟨init, c, rfl⟩ := (List.eq_nil_or_concat' base).resolve_left hne
    have hc : isAbsolute (c :: '/' :: path) = false := by simpa [isAbsolute] using hlast
    calc root (init ++ [c] ++ '/' :: path) = root (init ++ c :: '/' :: path) := by simp
      _ = root init := root_append_of_relative hc
      _ = root (init ++ [c]) := (root_append_of_relative (by simpa [isAbsolute] using hlast)).symm

theorem parts_root_append (root rest : Text) (hroot : ∀ c ∈ root, c = '/') :
    parts (root ++ rest) = parts rest := by
  induction root with
  | nil => rfl
  | cons c root ih =>
    have hc : c = '/' := hroot c (by simp)
    rw [hc, List.cons_append, parts_slash_cons]
    exact ih fun d hd => hroot d (by simp [hd])

theorem build_eq (root : Text) (pieces : List Text) :
    build root pieces = if root ++ Text.joinWith ['/'] pieces = [] then ['.']
      else root ++ Text.joinWith ['/'] pieces := by
  unfold build
  split <;> simp_all

theorem parts_build {root : Text} {pieces : List Text} (hroot : ∀ c ∈ root, c = '/')
    (h : ∀ piece ∈ pieces, IsPart piece) : parts (build root pieces) = pieces := by
  rw [build_eq]
  split
  · rename_i hempty
    have hjoined : Text.joinWith ['/'] pieces = [] := (List.append_eq_nil_iff.mp hempty).2
    rw [parts_dot, ← parts_joinWith h, hjoined, parts_nil]
  · rw [parts_root_append root _ hroot, parts_joinWith h]

theorem mem_joinWith_slash {pieces : List Text} {c : Char}
    (h : c ∈ Text.joinWith ['/'] pieces) : c = '/' ∨ ∃ piece ∈ pieces, c ∈ piece := by
  unfold Text.joinWith at h
  induction pieces with
  | nil => simp at h
  | cons piece rest ih =>
    cases rest with
    | nil => exact .inr ⟨piece, by simp, by simpa using h⟩
    | cons next rest =>
      rw [List.intercalate_cons_cons, List.append_assoc, List.mem_append, List.mem_append] at h
      rcases h with hpiece | hslash | hrest
      · exact .inr ⟨piece, by simp, hpiece⟩
      · exact .inl (by simpa using hslash)
      · rcases ih hrest with hslash | ⟨other, hother, hc⟩
        · exact .inl hslash
        · exact .inr ⟨other, List.mem_cons_of_mem piece hother, hc⟩

theorem isAbsolute_build {root : Text} {pieces : List Text} (hroot : ∀ c ∈ root, c = '/')
    (h : ∀ piece ∈ pieces, IsPart piece) : isAbsolute (build root pieces) = !root.isEmpty := by
  rw [build_eq]
  cases root with
  | cons c root =>
    have hc : c = '/' := hroot c (by simp)
    simp [hc, isAbsolute]
  | nil =>
    cases pieces with
    | nil => rfl
    | cons piece rest =>
      obtain ⟨hnil, -, hslash⟩ := h piece (by simp)
      obtain ⟨c, cs, rfl⟩ := List.exists_cons_of_ne_nil hnil
      have hc : c ≠ '/' := fun heq => hslash (by simp [heq])
      cases rest <;> simp [Text.joinWith, List.intercalate, List.intersperse, isAbsolute, hc]

/-! ## The stack of parts -/

/-- The stack of parts, last first, when further parts have been pushed on it. -/
def pushAll (rooted : Bool) (kept pieces : List Text) : List Text :=
  pieces.foldl (pushPart rooted) kept

theorem pushAll_append (rooted : Bool) (kept front back : List Text) :
    pushAll rooted kept (front ++ back) = pushAll rooted (pushAll rooted kept front) back :=
  List.foldl_append

theorem pushAll_concat (rooted : Bool) (kept front : List Text) (part : Text) :
    pushAll rooted kept (front ++ [part]) = pushPart rooted (pushAll rooted kept front) part := by
  rw [pushAll_append]
  rfl

theorem pushPart_of_ne_dots {rooted : Bool} {kept : List Text} {part : Text}
    (h : part ≠ ['.', '.']) : pushPart rooted kept part = part :: kept := by
  simp [pushPart, h]

theorem pushPart_dots_cons {rooted : Bool} {kept : List Text} {last : Text}
    (h : last ≠ ['.', '.']) : pushPart rooted (last :: kept) ['.', '.'] = kept := by
  simp [pushPart, h]

/-- A stack on top of another does the same as the parts that it was made from: two dots that find
nothing to take back are still there to be pushed, and a part taken back would be taken back again. -/
theorem pushAll_reverse_pushAll (rooted : Bool) (kept pieces : List Text) :
    pushAll rooted kept (pushAll false [] pieces).reverse = pushAll rooted kept pieces := by
  induction pieces using List.reverseRecOn with
  | nil => rfl
  | append_singleton pieces part ih =>
    rw [pushAll_concat, pushAll_concat]
    by_cases hpart : part = ['.', '.']
    · subst hpart
      cases hstack : pushAll false [] pieces with
      | nil =>
        rw [hstack] at ih
        rw [← ih]
        rfl
      | cons last before =>
        rw [hstack, List.reverse_cons, pushAll_concat] at ih
        by_cases hlast : last = ['.', '.']
        · have htop : pushPart false (last :: before) ['.', '.'] = ['.', '.'] :: last :: before := by
            simp [pushPart, hlast]
          rw [htop, List.reverse_cons, pushAll_concat, List.reverse_cons, pushAll_concat, ih]
        · rw [pushPart_dots_cons hlast, ← ih, pushPart_of_ne_dots hlast, pushPart_dots_cons hlast]
    · rw [pushPart_of_ne_dots hpart, List.reverse_cons, pushAll_concat, ih]

/-- At the root a stack is made of ordinary parts only, so pushing it again rebuilds it. -/
theorem pushAll_reverse_pushAll_rooted (pieces : List Text) :
    pushAll true [] (pushAll true [] pieces).reverse = pushAll true [] pieces := by
  induction pieces using List.reverseRecOn with
  | nil => rfl
  | append_singleton pieces part ih =>
    rw [pushAll_concat]
    by_cases hpart : part = ['.', '.']
    · subst hpart
      cases hstack : pushAll true [] pieces with
      | nil => rfl
      | cons last before =>
        rw [hstack, List.reverse_cons, pushAll_concat] at ih
        by_cases hlast : last = ['.', '.']
        · have htop : pushPart true (last :: before) ['.', '.'] = ['.', '.'] :: last :: before := by
            simp [pushPart, hlast]
          rw [htop, List.reverse_cons, pushAll_concat, List.reverse_cons, pushAll_concat, ih, htop]
        · rw [pushPart_of_ne_dots hlast, List.cons.injEq] at ih
          rw [pushPart_dots_cons hlast, ih.2]
    · rw [pushPart_of_ne_dots hpart, List.reverse_cons, pushAll_concat, ih, pushPart_of_ne_dots hpart]

theorem mem_of_mem_pushAll {rooted : Bool} {kept pieces : List Text} {part : Text}
    (h : part ∈ pushAll rooted kept pieces) : part ∈ kept ∨ part ∈ pieces := by
  induction pieces generalizing kept with
  | nil => exact .inl h
  | cons piece pieces ih =>
    rcases ih h with hkept | hmem
    · have hpush : part ∈ kept ∨ part = piece := by
        unfold pushPart at hkept
        split at hkept
        · cases kept with
          | nil => cases rooted <;> simp_all
          | cons last before =>
            by_cases hlast : last = ['.', '.'] <;> simp_all
        · simp only [List.mem_cons] at hkept
          tauto
      rcases hpush with hkept | rfl
      · exact .inl hkept
      · exact .inr (by simp)
    · exact .inr (by simp [hmem])

theorem mem_of_mem_resolveDots {rooted : Bool} {pieces : List Text} {part : Text}
    (h : part ∈ resolveDots rooted pieces) : part ∈ pieces := by
  have hmem : part ∈ pushAll rooted [] pieces := by simpa [resolveDots, pushAll] using h
  simpa using mem_of_mem_pushAll hmem

/-- Detours behind other parts may be resolved beforehand. -/
theorem resolveDots_append_resolveDots (rooted : Bool) (front back : List Text) :
    resolveDots rooted (front ++ resolveDots false back) = resolveDots rooted (front ++ back) := by
  have h := pushAll_reverse_pushAll rooted (pushAll rooted [] front) back
  rw [← pushAll_append, ← pushAll_append] at h
  unfold resolveDots
  exact congrArg List.reverse h

theorem resolveDots_resolveDots_rooted (pieces : List Text) :
    resolveDots true (resolveDots true pieces) = resolveDots true pieces :=
  congrArg List.reverse (pushAll_reverse_pushAll_rooted pieces)

/-! ## Normal and absolute forms -/

theorem isPart_of_mem_resolveDots {rooted : Bool} {path part : Text}
    (h : part ∈ resolveDots rooted (parts path)) : IsPart part :=
  (isPart_of_mem_parts (mem_of_mem_resolveDots h)).1

theorem parts_normalize (path : Text) :
    parts (normalize path) = resolveDots (isAbsolute path) (parts path) := by
  unfold normalize
  simp only [isEmpty_root, Bool.not_not]
  exact parts_build (root_mem path) fun part hpart => isPart_of_mem_resolveDots hpart

theorem isAbsolute_normalize (path : Text) : isAbsolute (normalize path) = isAbsolute path := by
  unfold normalize
  rw [isAbsolute_build (root_mem path) fun part hpart => isPart_of_mem_resolveDots hpart, isEmpty_root,
    Bool.not_not]

theorem normalize_of_relative {path : Text} (h : isAbsolute path = false) :
    normalize path = build [] (resolveDots false (parts path)) := by
  unfold normalize
  simp [(root_eq_nil_iff path).mpr h]

theorem normalize_join {base path : Text} (hpath : isAbsolute path = false) :
    normalize (join base path) =
      build (root base) (resolveDots (isAbsolute base) (parts base ++ parts path)) := by
  unfold normalize
  simp [root_join hpath, isEmpty_root, parts_join, hpath]

theorem mem_normalize {path : Text} {c : Char} (h : c ∈ normalize path) :
    c = '/' ∨ c = '.' ∨ c ∈ path := by
  unfold normalize at h
  simp only [build_eq] at h
  split at h
  · exact .inr (.inl (by simpa using h))
  · rcases List.mem_append.mp h with hroot | hjoined
    · exact .inl (root_mem path c hroot)
    · rcases mem_joinWith_slash hjoined with hslash | ⟨piece, hpiece, hc⟩
      · exact .inl hslash
      · exact .inr (.inr ((isPart_of_mem_parts (mem_of_mem_resolveDots hpiece)).2 c hc))

theorem mem_join {base path : Text} {c : Char} (h : c ∈ join base path) :
    c = '/' ∨ c ∈ base ∨ c ∈ path := by
  unfold join at h
  split at h
  · exact .inr (.inr h)
  · split at h <;> simp only [List.mem_append, List.mem_cons] at h <;> tauto

theorem null_notMem_join {base path : Text} (hbase : '\x00' ∉ base) (hpath : '\x00' ∉ path) :
    '\x00' ∉ join base path := by
  intro hmem
  rcases mem_join hmem with h | h | h
  · exact absurd h (by decide)
  · exact hbase h
  · exact hpath h

theorem mem_join_of_relative {base path : Text} (hpath : isAbsolute path = false) {c : Char}
    (h : c ∈ base ∨ c ∈ path) : c ∈ join base path := by
  unfold join
  simp only [hpath, Bool.false_eq_true, if_false]
  split <;> simp only [List.mem_append, List.mem_cons] <;> tauto

theorem isAbsolute_join {base path : Text} (hpath : isAbsolute path = false) :
    isAbsolute (join base path) = isAbsolute base := by
  unfold join
  simp only [hpath, Bool.false_eq_true, if_false]
  cases base with
  | nil => simpa [isAbsolute] using hpath
  | cons c base => split <;> rfl

/-- The directory that a path is relative to, before the working directory comes in. -/
def baseOf (workingDirectory : Text) (directory : Option Text) : Text :=
  match directory with
  | none | some [] => workingDirectory
  | some found => found

theorem absolute_eq (workingDirectory : Text) (directory : Option Text) (path : Text)
    (h : '\x00' ∉ join (baseOf workingDirectory directory) path) :
    absolute workingDirectory directory path =
      .ok (if isAbsolute (join (baseOf workingDirectory directory) path) then
        build ['/'] (resolveDots true (parts (join (baseOf workingDirectory directory) path)))
      else normalize (join workingDirectory (join (baseOf workingDirectory directory) path))) := by
  have hcontains : (join (baseOf workingDirectory directory) path).contains '\x00' = false := by
    simpa using h
  unfold absolute
  change (if (join (baseOf workingDirectory directory) path).contains '\x00' then _
    else if isAbsolute (join (baseOf workingDirectory directory) path) then _ else _) = _
  rw [hcontains]
  simp only [Bool.false_eq_true, if_false]
  cases isAbsolute (join (baseOf workingDirectory directory) path) <;> rfl

theorem absolute_eq_error (workingDirectory : Text) (directory : Option Text) (path : Text)
    (h : '\x00' ∈ join (baseOf workingDirectory directory) path) :
    absolute workingDirectory directory path = .error .embedded := by
  have hcontains : (join (baseOf workingDirectory directory) path).contains '\x00' = true := by
    simpa using h
  unfold absolute
  change (if (join (baseOf workingDirectory directory) path).contains '\x00' then _ else _) = _
  rw [hcontains]
  rfl

theorem exists_absolute_eq_ok {workingDirectory path : Text} {directory : Option Text}
    (hbase : '\x00' ∉ baseOf workingDirectory directory) (hpath : '\x00' ∉ path) :
    ∃ form, absolute workingDirectory directory path = .ok form :=
  ⟨_, absolute_eq workingDirectory directory path (null_notMem_join hbase hpath)⟩

/-- A path has an absolute form if there is no U+0000 in it once it stands behind its directory. -/
theorem exists_absolute_eq_ok_iff {workingDirectory path : Text} {directory : Option Text} :
    (∃ form, absolute workingDirectory directory path = .ok form) ↔
      '\x00' ∉ join (baseOf workingDirectory directory) path := by
  constructor
  · rintro ⟨form, hform⟩ hmem
    rw [absolute_eq_error _ _ _ hmem] at hform
    exact absurd hform (by simp)
  · exact fun hmem => ⟨_, absolute_eq _ _ _ hmem⟩

/-- Bringing a path to its normal form first does not change its absolute form. -/
theorem absolute_normalize (workingDirectory : Text) {directory : Option Text} {path : Text}
    (hpath : '\x00' ∉ path) :
    absolute workingDirectory directory (normalize path) = absolute workingDirectory directory path := by
  have hnormal : '\x00' ∉ normalize path := by
    intro hmem
    rcases mem_normalize hmem with h | h | h
    · exact absurd h (by decide)
    · exact absurd h (by decide)
    · exact hpath h
  cases habs : isAbsolute path with
  | true =>
    have hjoin : ∀ base, join base path = path := fun base => by simp [join, habs]
    have hjoin' : ∀ base, join base (normalize path) = normalize path := fun base => by
      simp [join, isAbsolute_normalize, habs]
    rw [absolute_eq _ _ _ (by rwa [hjoin']), absolute_eq _ _ _ (by rwa [hjoin]), hjoin, hjoin',
      isAbsolute_normalize, habs, if_pos rfl, if_pos rfl, parts_normalize, habs,
      resolveDots_resolveDots_rooted]
  | false =>
    let base := baseOf workingDirectory directory
    have habs' : isAbsolute (normalize path) = false := by rw [isAbsolute_normalize, habs]
    by_cases hbase : '\x00' ∈ base
    · rw [absolute_eq_error _ _ _ (mem_join_of_relative habs' (.inl hbase)),
        absolute_eq_error _ _ _ (mem_join_of_relative habs (.inl hbase))]
    have hparts : parts (join base (normalize path)) = parts base ++ resolveDots false (parts path) := by
      simp [parts_join, habs', parts_normalize, habs]
    have hparts' : parts (join base path) = parts base ++ parts path := by simp [parts_join, habs]
    -- A relative base leaves it to the working directory whether detours end at the root.
    rw [absolute_eq _ _ _ (null_notMem_join hbase hnormal),
      absolute_eq _ _ _ (null_notMem_join hbase hpath)]
    cases hrooted : isAbsolute base with
    | true =>
      rw [isAbsolute_join habs', isAbsolute_join habs, hrooted, if_pos rfl, if_pos rfl, hparts, hparts',
        resolveDots_append_resolveDots]
    | false =>
      have hwhole := (isAbsolute_join habs).trans hrooted
      have hwhole' := (isAbsolute_join habs').trans hrooted
      rw [hwhole, hwhole', if_neg (by simp), if_neg (by simp), normalize_join hwhole,
        normalize_join hwhole', hparts, hparts', ← List.append_assoc, ← List.append_assoc,
        resolveDots_append_resolveDots]

/-! ## Plain paths -/

/-- A path in normal form that leads down from a directory. -/
structure IsPlain (path : Text) : Prop where
  relative : isAbsolute path = false
  normal : normalize path = path
  descends : ['.', '.'] ∉ parts path

instance (path : Text) : Decidable (IsPlain path) :=
  decidable_of_iff (isAbsolute path = false ∧ normalize path = path ∧ ['.', '.'] ∉ parts path)
    ⟨fun h => ⟨h.1, h.2.1, h.2.2⟩, fun h => ⟨h.relative, h.normal, h.descends⟩⟩

/-- Parts without detours stay on the stack. -/
theorem pushAll_of_dots_notMem {rooted : Bool} {kept pieces : List Text}
    (h : ['.', '.'] ∉ pieces) : pushAll rooted kept pieces = pieces.reverse ++ kept := by
  induction pieces generalizing kept with
  | nil => rfl
  | cons piece pieces ih =>
    obtain ⟨hpiece, hpieces⟩ := not_or.mp (List.mem_cons.not.mp h)
    change pushAll rooted (pushPart rooted kept piece) pieces = _
    rw [pushPart_of_ne_dots (Ne.symm hpiece), ih hpieces, List.reverse_cons, List.append_assoc,
      List.singleton_append]

theorem resolveDots_append_of_dots_notMem {rooted : Bool} {front back : List Text}
    (h : ['.', '.'] ∉ back) : resolveDots rooted (front ++ back) = resolveDots rooted front ++ back := by
  change (pushAll rooted [] (front ++ back)).reverse = (pushAll rooted [] front).reverse ++ back
  rw [pushAll_append, pushAll_of_dots_notMem h, List.reverse_append, List.reverse_reverse]

/-- The parts of an absolute form are those of a directory and of the path behind it, detours resolved. -/
theorem exists_parts_absolute (workingDirectory : Text) (directory : Option Text) :
    ∃ rooted front, ∀ path form, isAbsolute path = false →
      absolute workingDirectory directory path = .ok form →
        parts form = resolveDots rooted (front ++ parts path) := by
  let base := baseOf workingDirectory directory
  have hform {path form : Text} (h : absolute workingDirectory directory path = .ok form) :
      form = if isAbsolute (join base path) then
          build ['/'] (resolveDots true (parts (join base path)))
        else normalize (join workingDirectory (join base path)) := by
    have hnull := exists_absolute_eq_ok_iff.mp ⟨form, h⟩
    exact (Except.ok.inj ((absolute_eq _ _ _ hnull).symm.trans h)).symm
  cases hbase : isAbsolute base with
  | true =>
    refine ⟨true, parts base, fun path form hpath h => ?_⟩
    rw [hform h, isAbsolute_join hpath, hbase, if_pos rfl,
      parts_build (by simp) (fun part hpart => isPart_of_mem_resolveDots hpart), parts_join, hpath]
    rfl
  | false =>
    refine ⟨isAbsolute workingDirectory, parts workingDirectory ++ parts base, fun path form hpath h => ?_⟩
    have hwhole : isAbsolute (join base path) = false := (isAbsolute_join hpath).trans hbase
    rw [hform h, hwhole, if_neg (by simp), parts_normalize, isAbsolute_join hwhole, parts_join, hwhole,
      parts_join, hpath]
    simp

/-- Plain paths that stand for one file are one path. -/
theorem eq_of_absolute_eq {workingDirectory path other form : Text} {directory : Option Text}
    (hpath : IsPlain path) (hother : IsPlain other)
    (hform : absolute workingDirectory directory path = .ok form)
    (hform' : absolute workingDirectory directory other = .ok form) : path = other := by
  obtain ⟨rooted, front, hparts⟩ := exists_parts_absolute workingDirectory directory
  have hsame := (hparts path form hpath.relative hform).symm.trans
    (hparts other form hother.relative hform')
  rw [resolveDots_append_of_dots_notMem hpath.descends, resolveDots_append_of_dots_notMem hother.descends,
    List.append_cancel_left_eq] at hsame
  calc path = normalize path := hpath.normal.symm
    _ = normalize other := by
      rw [normalize_of_relative hpath.relative, normalize_of_relative hother.relative, hsame]
    _ = other := hother.normal

end StyleOrigin.Path
