import StyleOrigin.Proofs.Path.Normal

/-! # One absolute form for each file

Following a path part by part says which file it leads to, whatever it is given relative to. The absolute
form of a path spells out the names on the way there, so it is one form for each file. Only a working
directory that begins with two slashes keeps them, and only in front of a path that is given relative to
a relative directory: then one file has two forms.

* `IsCanonical`: a form with one slash in front, and with names only.
* `follow`, `destination`: where a path leads to, and where a path behind a directory does.
* `KeepsTwoSlashes`: when two slashes are kept.
* `absolute_eq_destination`: the absolute form of a path, by its destination.
* `one_absolute_form_iff`: when an absolute form is the one form of its file.
* `second_form_of_one_file`: a file with two forms.
-/
set_option autoImplicit false

namespace StyleOrigin.Path

/-! ## Canonical forms -/

/-- A text that can be the name of a file: a part that does not lead up. -/
def IsName (name : Text) : Prop :=
  IsPart name ∧ name ≠ ['.', '.']

/-- A path that starts with one slash only. Unless it is that slash, each of its components is a name and
no slash stands at its end. -/
structure IsCanonical (form : Text) : Prop where
  one_slash : ∃ rest, form = '/' :: rest ∧ isAbsolute rest = false
  components : form = ['/'] ∨ ∀ component ∈ (Text.splitOn '/' form).tail,
    component ≠ [] ∧ component ≠ ['.'] ∧ component ≠ ['.', '.']
  ending : form = ['/'] ∨ form.getLast? ≠ some '/'

theorem not_isCanonical_of_two_slashes (rest : Text) : ¬IsCanonical ('/' :: '/' :: rest) := by
  rintro ⟨⟨_, hform, hrest⟩, -, -⟩
  obtain rfl := (List.cons.inj hform).2
  simp [isAbsolute] at hrest

theorem isCanonical_of_isName {names : List Text} (h : ∀ name ∈ names, IsName name) :
    IsCanonical ('/' :: Text.joinWith ['/'] names) := by
  by_cases hne : names = []
  · rw [hne]
    exact ⟨⟨[], rfl, rfl⟩, .inl rfl, .inl rfl⟩
  have hempty : [] ∉ names := fun hmem => (h [] hmem).1.1 rfl
  have hsplit : Text.splitOn '/' ('/' :: Text.joinWith ['/'] names) = [] :: names := by
    rw [← List.nil_append ('/' :: _), Text.splitOn_append_cons,
      Text.splitOn_joinWith hne fun name hname => (h name hname).1.2.2]
    rfl
  refine ⟨⟨_, rfl, Bool.eq_false_iff.mpr fun habs => hempty ?_⟩, .inr ?_, .inr fun hlast => hempty ?_⟩
  · obtain ⟨rest, hrest⟩ : ∃ rest, Text.joinWith ['/'] names = '/' :: rest := by
      unfold isAbsolute at habs
      exact List.head?_eq_some_iff.mp (by simpa using habs)
    rw [← Text.splitOn_joinWith hne fun name hname => (h name hname).1.2.2, hrest]
    simp [Text.splitOn, splitWhere]
  · rw [hsplit]
    intro name hname
    exact ⟨(h name hname).1.1, (h name hname).1.2.1, (h name hname).2⟩
  · obtain ⟨init, hinit⟩ := List.getLast?_eq_some_iff.mp hlast
    have hpieces := hsplit
    rw [hinit, Text.splitOn_append_cons] at hpieces
    have hpiece : ([] :: names).getLast? = some [] := by
      rw [← hpieces]
      exact List.getLast?_concat
    rw [List.getLast?_cons, List.getLast?_eq_getLast_of_ne_nil hne] at hpiece
    exact Option.some.inj hpiece ▸ List.getLast_mem hne

/-! ## Following a path -/

/-- The place that a component of a path leads to. A place is told by the names that lead there from the
root. -/
def enter (place : List Text) (component : Text) : List Text :=
  if component = [] ∨ component = ['.'] then place
  else if component = ['.', '.'] then place.dropLast
  else place ++ [component]

/-- The place that a path leads to. An absolute path leads there from the root. -/
def follow (place : List Text) (path : Text) : List Text :=
  (Text.splitOn '/' path).foldl enter (if isAbsolute path then [] else place)

/-- The place that a path leads to that is given relative to a directory, itself relative to the working
directory. Without a directory it is relative to the working directory. -/
def destination (workingDirectory : Text) (directory : Option Text) (path : Text) : List Text :=
  follow (follow (follow [] workingDirectory) (directory.getD [])) path

section Follow
variable {place : List Text} {name path : Text}

/-- Names are entered, and nothing else is. -/
theorem mem_of_mem_foldl_enter {components : List Text} (h : name ∈ components.foldl enter place) :
    name ∈ place ∨ (name ∈ components ∧ name ≠ [] ∧ name ≠ ['.'] ∧ name ≠ ['.', '.']) := by
  induction components generalizing place with
  | nil => exact .inl h
  | cons component rest ih =>
    rcases ih h with hplace | ⟨hmem, hname⟩
    · unfold enter at hplace
      split at hplace
      · exact .inl hplace
      · rename_i hshort
        obtain ⟨hempty, hdot⟩ := not_or.mp hshort
        split at hplace
        · exact .inl (List.dropLast_subset place hplace)
        · rename_i hdots
          rcases List.mem_append.mp hplace with hplace | hlast
          · exact .inl hplace
          · obtain rfl := List.mem_singleton.mp hlast
            exact .inr ⟨by simp, hempty, hdot, hdots⟩
    · exact .inr ⟨List.mem_cons_of_mem component hmem, hname⟩

theorem mem_of_mem_follow (h : name ∈ follow place path) :
    name ∈ place ∨ (IsName name ∧ ∀ c ∈ name, c ∈ path) := by
  rcases mem_of_mem_foldl_enter h with hplace | ⟨hmem, hempty, hdot, hdots⟩
  · split at hplace
    · simp at hplace
    · exact .inl hplace
  · obtain ⟨hslash, hchars⟩ := Text.notMem_of_mem_splitOn hmem
    exact .inr ⟨⟨⟨hempty, hdot, hslash⟩, hdots⟩, hchars⟩

/-- A place, last name first, is the stack of parts that resolves detours. -/
theorem reverse_foldl_enter (hplace : ['.', '.'] ∉ place) (components : List Text) :
    (components.foldl enter place).reverse =
      pushAll true place.reverse
        (components.filter fun part => !part.isEmpty && part != ['.']) := by
  -- No pair of dots is ever on the way, so each of them takes back a name, or nothing at the root.
  induction components generalizing place with
  | nil => rfl
  | cons component rest ih =>
    rw [List.foldl_cons]
    by_cases hshort : component = [] ∨ component = ['.']
    · have hentered : enter place component = place := if_pos hshort
      rw [hentered, ih hplace, List.filter_cons_of_neg (by rcases hshort with rfl | rfl <;> simp)]
    · obtain ⟨hempty, hdot⟩ := not_or.mp hshort
      rw [List.filter_cons_of_pos (by simp [hempty, hdot])]
      by_cases hdots : component = ['.', '.']
      · have hentered : enter place component = place.dropLast := by simp [enter, hdots]
        have hpushed : pushPart true place.reverse component = place.dropLast.reverse := by
          rw [← List.tail_reverse, hdots]
          cases hstack : place.reverse with
          | nil => rfl
          | cons last before =>
            have hlast : last ≠ ['.', '.'] := by
              rintro rfl
              exact hplace (List.mem_reverse.mp (by simp [hstack]))
            exact pushPart_dots_cons hlast
        rw [hentered, ih fun hmem => hplace (List.dropLast_subset place hmem), ← hpushed]
        rfl
      · have hentered : enter place component = place ++ [component] := by
          simp [enter, hempty, hdot, hdots]
        have hnone : ['.', '.'] ∉ place ++ [component] := by
          simpa [hplace] using Ne.symm hdots
        rw [hentered, ih hnone, List.reverse_append, List.reverse_singleton, List.singleton_append,
          ← pushPart_of_ne_dots hdots]
        rfl

theorem reverse_follow (hplace : ['.', '.'] ∉ place) (path : Text) :
    (follow place path).reverse =
      pushAll true (if isAbsolute path then [] else place.reverse) (parts path) := by
  unfold follow
  rw [reverse_foldl_enter (by split <;> simp [hplace])]
  split <;> rfl

theorem dots_notMem_follow (hplace : ['.', '.'] ∉ place) (path : Text) :
    ['.', '.'] ∉ follow place path := fun hmem =>
  (mem_of_mem_follow hmem).elim hplace fun hname => hname.1.2 rfl

theorem follow_nil (place : List Text) : follow place [] = place := by
  simp [follow, Text.splitOn, splitWhere, enter, isAbsolute]

theorem follow_of_isAbsolute (h : isAbsolute path = true) (place other : List Text) :
    follow place path = follow other path := by
  unfold follow
  rw [h, if_pos rfl, if_pos rfl]

/-- From the root on, detours are resolved. -/
theorem follow_root (path : Text) : follow [] path = resolveDots true (parts path) := by
  rw [← List.reverse_reverse (follow [] path), reverse_follow (by simp)]
  simp [resolveDots, pushAll]

/-- Joined paths are followed one after the other. -/
theorem follow_join (hplace : ['.', '.'] ∉ place) (base path : Text) :
    follow place (join base path) = follow (follow place base) path := by
  cases habs : isAbsolute path with
  | true => simpa [join, habs] using follow_of_isAbsolute habs place (follow place base)
  | false =>
    refine List.reverse_injective ?_
    have hparts : parts (join base path) = parts base ++ parts path := by simp [parts_join, habs]
    rw [reverse_follow hplace, isAbsolute_join habs, hparts, pushAll_append, ← reverse_follow hplace,
      reverse_follow (dots_notMem_follow hplace base), habs, if_neg (by simp)]

theorem follow_append_slash {front back : Text} (hback : isAbsolute back = false) :
    follow [] (front ++ '/' :: back) = follow (follow [] front) back := by
  refine List.reverse_injective ?_
  rw [follow_root, reverse_follow (dots_notMem_follow (by simp) front), hback, if_neg (by simp),
    follow_root, parts_append_slash]
  simp [resolveDots, pushAll]

/-- Names are followed one by one. -/
theorem follow_joinWith {slashes : Text} {names : List Text} (hslashes : ∀ c ∈ slashes, c = '/')
    (hnames : ∀ name ∈ names, IsName name) :
    follow [] (slashes ++ Text.joinWith ['/'] names) = names := by
  have hdots : ['.', '.'] ∉ names := fun hmem => (hnames _ hmem).2 rfl
  rw [follow_root, parts_root_append _ _ hslashes,
    parts_joinWith fun name hname => (hnames name hname).1, resolveDots]
  change (pushAll true [] names).reverse = names
  rw [pushAll_of_dots_notMem hdots, List.append_nil, List.reverse_reverse]

end Follow

/-! ## Absolute forms -/

/-- The two slashes that a working directory begins with stay in front of the absolute form of a path:
the path is relative, and so is the directory that it is given relative to. -/
structure KeepsTwoSlashes (workingDirectory : Text) (directory : Option Text) (path : Text) : Prop where
  two_slashes : root workingDirectory = ['/', '/']
  relative_directory : ∃ given, directory = some given ∧ given ≠ [] ∧ isAbsolute given = false
  relative_path : isAbsolute path = false

/-- The slashes in front of an absolute form. -/
def slashes (workingDirectory : Text) (directory : Option Text) (path : Text) : Text :=
  if isAbsolute (join (baseOf workingDirectory directory) path) then ['/'] else root workingDirectory

section Absolute
variable {workingDirectory : Text} {directory : Option Text} {path : Text}

theorem root_of_isAbsolute (h : isAbsolute path = true) : root path = ['/'] ∨ root path = ['/', '/'] := by
  have hne : root path ≠ [] := by simp [root_eq_nil_iff, h]
  unfold root at hne ⊢
  split <;> simp_all

/-- A path behind a relative directory is not absolute before the working directory comes in. -/
theorem isAbsolute_join_baseOf_eq_false_iff (hrooted : isAbsolute workingDirectory = true)
    (directory : Option Text) (path : Text) :
    isAbsolute (join (baseOf workingDirectory directory) path) = false ↔
      (∃ given, directory = some given ∧ given ≠ [] ∧ isAbsolute given = false) ∧
        isAbsolute path = false := by
  cases hpath : isAbsolute path with
  | true => simp [join, hpath]
  | false =>
    rw [isAbsolute_join hpath]
    unfold baseOf
    split <;> simp_all

theorem slashes_cases (hrooted : isAbsolute workingDirectory = true) (directory : Option Text)
    (path : Text) :
    (KeepsTwoSlashes workingDirectory directory path ∧
        slashes workingDirectory directory path = ['/', '/']) ∨
      (¬KeepsTwoSlashes workingDirectory directory path ∧
        slashes workingDirectory directory path = ['/']) := by
  have hrelative := isAbsolute_join_baseOf_eq_false_iff hrooted directory path
  unfold slashes
  cases habs : isAbsolute (join (baseOf workingDirectory directory) path) with
  | true =>
    refine .inr ⟨fun hkeeps => ?_, rfl⟩
    have := hrelative.mpr ⟨hkeeps.relative_directory, hkeeps.relative_path⟩
    simp [habs] at this
  | false =>
    obtain ⟨hdirectory, hpath⟩ := hrelative.mp habs
    rcases root_of_isAbsolute hrooted with hone | htwo
    · exact .inr ⟨fun hkeeps => by simpa [hone] using hkeeps.two_slashes, hone⟩
    · exact .inl ⟨⟨htwo, hdirectory, hpath⟩, htwo⟩

theorem destination_eq (hrooted : isAbsolute workingDirectory = true) :
    destination workingDirectory directory path =
      follow [] (join workingDirectory (join (baseOf workingDirectory directory) path)) := by
  have hnone : ['.', '.'] ∉ follow [] workingDirectory := dots_notMem_follow (by simp) _
  rw [follow_join (by simp), follow_join hnone]
  unfold destination baseOf
  split
  · rw [Option.getD_none, follow_nil, follow_of_isAbsolute hrooted (follow [] workingDirectory) []]
  · rw [Option.getD_some, follow_nil, follow_of_isAbsolute hrooted (follow [] workingDirectory) []]
  · rw [Option.getD_some]

/-- A path leads along names, which are made of its characters and of those in front of it. -/
theorem mem_destination {name : Text} (h : name ∈ destination workingDirectory directory path) :
    IsName name ∧ ∀ c ∈ name, c ∈ workingDirectory ∨ c ∈ directory.getD [] ∨ c ∈ path := by
  rcases mem_of_mem_follow h with h | ⟨hname, hchars⟩
  · rcases mem_of_mem_follow h with h | ⟨hname, hchars⟩
    · rcases mem_of_mem_follow h with h | ⟨hname, hchars⟩
      · simp at h
      · exact ⟨hname, fun c hc => .inl (hchars c hc)⟩
    · exact ⟨hname, fun c hc => .inr (.inl (hchars c hc))⟩
  · exact ⟨hname, fun c hc => .inr (.inr (hchars c hc))⟩

/-- An absolute form spells out the names that lead to the place of the path. -/
theorem absolute_eq_destination (hrooted : isAbsolute workingDirectory = true)
    (hnull : '\x00' ∉ join (baseOf workingDirectory directory) path) :
    absolute workingDirectory directory path = .ok (slashes workingDirectory directory path ++
      Text.joinWith ['/'] (destination workingDirectory directory path)) := by
  have hform : ∀ pieces, build (root workingDirectory) pieces =
      root workingDirectory ++ Text.joinWith ['/'] pieces := by
    intro pieces
    rw [build_eq, if_neg fun hempty => ?_]
    simpa [hrooted] using (root_eq_nil_iff _).mp (List.append_eq_nil_iff.mp hempty).1
  rw [absolute_eq _ _ _ hnull, destination_eq hrooted, follow_root]
  unfold slashes
  generalize join (baseOf workingDirectory directory) path = whole
  cases habs : isAbsolute whole with
  | true =>
    have hstands : join workingDirectory whole = whole := by simp [join, habs]
    rw [hstands]
    rfl
  | false =>
    rw [normalize_join habs, parts_join, habs, hrooted, hform]
    rfl

theorem absolute_eq_of_isAbsolute (hrooted : isAbsolute workingDirectory = true)
    (hpath : isAbsolute path = true) (hnull : '\x00' ∉ path) :
    absolute workingDirectory directory path = .ok ('/' :: Text.joinWith ['/'] (follow [] path)) := by
  have hstands : join (baseOf workingDirectory directory) path = path := by simp [join, hpath]
  have hone : slashes workingDirectory directory path = ['/'] := by simp [slashes, hstands, hpath]
  have hplace : destination workingDirectory directory path = follow [] path :=
    follow_of_isAbsolute hpath _ []
  rw [absolute_eq_destination hrooted (by rwa [hstands]), hone, hplace]
  rfl

theorem eq_slash_of_mem_slashes : ∀ c ∈ slashes workingDirectory directory path, c = '/' := by
  unfold slashes
  split
  · simp
  · exact root_mem workingDirectory

/-! ## The form of a place -/

/-- The form that spells out the place of a path. -/
def formOf (workingDirectory : Text) (directory : Option Text) (path : Text) : Text :=
  slashes workingDirectory directory path ++
    Text.joinWith ['/'] (destination workingDirectory directory path)

theorem follow_formOf :
    follow [] (formOf workingDirectory directory path) = destination workingDirectory directory path :=
  follow_joinWith eq_slash_of_mem_slashes fun _ hname => (mem_destination hname).1

theorem isAbsolute_append {front : Text} (h : isAbsolute front = true) (back : Text) :
    isAbsolute (front ++ back) = true := by
  cases front with
  | nil => simp [isAbsolute] at h
  | cons c front => exact h

/-- A path may be followed from the place of its directory. -/
theorem follow_destination_nil :
    follow (destination workingDirectory directory []) path =
      destination workingDirectory directory path := by
  unfold destination
  rw [follow_nil]

theorem isAbsolute_formOf (hrooted : isAbsolute workingDirectory = true) :
    isAbsolute (formOf workingDirectory directory path) = true := by
  refine isAbsolute_append ?_ _
  rcases slashes_cases hrooted directory path with ⟨-, hfront⟩ | ⟨-, hfront⟩
  · rw [hfront]
    rfl
  · rw [hfront]
    rfl

theorem isCanonical_formOf_iff (hrooted : isAbsolute workingDirectory = true) :
    IsCanonical (formOf workingDirectory directory path) ↔
      ¬KeepsTwoSlashes workingDirectory directory path := by
  unfold formOf
  rcases slashes_cases hrooted directory path with ⟨hkeeps, htwo⟩ | ⟨hkeeps, hone⟩
  · rw [htwo]
    exact iff_of_false (not_isCanonical_of_two_slashes _) (not_not_intro hkeeps)
  · rw [hone]
    exact iff_of_true (isCanonical_of_isName fun _ hname => (mem_destination hname).1) hkeeps

/-- Forms are told apart by their places and by the slashes in front. -/
theorem formOf_eq_formOf_iff (hrooted : isAbsolute workingDirectory = true) {other : Option Text}
    {path' : Text} :
    formOf workingDirectory other path' = formOf workingDirectory directory path ↔
      destination workingDirectory other path' = destination workingDirectory directory path ∧
        (KeepsTwoSlashes workingDirectory other path' ↔
          KeepsTwoSlashes workingDirectory directory path) := by
  have hslashes : slashes workingDirectory other path' = slashes workingDirectory directory path ↔
      (KeepsTwoSlashes workingDirectory other path' ↔
        KeepsTwoSlashes workingDirectory directory path) := by
    rcases slashes_cases hrooted directory path with ⟨hkeeps, hfront⟩ | ⟨hkeeps, hfront⟩ <;>
      rcases slashes_cases hrooted other path' with ⟨hkeeps', hfront'⟩ | ⟨hkeeps', hfront'⟩ <;>
      simp [hkeeps, hfront, hkeeps', hfront']
  constructor
  · intro hforms
    have hplaces : destination workingDirectory other path' =
        destination workingDirectory directory path := by
      rw [← follow_formOf, hforms, follow_formOf]
    unfold formOf at hforms
    rw [hplaces, List.append_cancel_right_eq] at hforms
    exact ⟨hplaces, hslashes.mp hforms⟩
  · rintro ⟨hplaces, hkeeps⟩
    unfold formOf
    rw [hplaces, hslashes.mpr hkeeps]

/-- Without a directory two slashes are never kept, so a path has the form of one behind a directory if and
only if both lead to the same place and two slashes are not kept for the other. -/
theorem absolute_none_eq_iff (hrooted : isAbsolute workingDirectory = true) {given form : Text}
    (hform : absolute workingDirectory directory path = .ok form)
    (hgiven : ∃ form', absolute workingDirectory none given = .ok form') :
    absolute workingDirectory none given = .ok form ↔
      destination workingDirectory none given = destination workingDirectory directory path ∧
        ¬KeepsTwoSlashes workingDirectory directory path := by
  have hnone : ¬KeepsTwoSlashes workingDirectory none given := fun hkeeps => by
    simpa using hkeeps.relative_directory
  rw [absolute_eq_destination hrooted (exists_absolute_eq_ok_iff.mp ⟨form, hform⟩)] at hform
  rw [absolute_eq_destination hrooted (exists_absolute_eq_ok_iff.mp hgiven), ← hform, Except.ok.injEq,
    ← formOf, ← formOf, formOf_eq_formOf_iff hrooted, iff_false_left hnone]

/-- One slash in front makes a form where two slashes are not kept. -/
theorem cons_eq_formOf_iff (hrooted : isAbsolute workingDirectory = true) :
    '/' :: Text.joinWith ['/'] (destination workingDirectory directory path) =
        formOf workingDirectory directory path ↔
      ¬KeepsTwoSlashes workingDirectory directory path := by
  unfold formOf
  rcases slashes_cases hrooted directory path with ⟨hkeeps, htwo⟩ | ⟨hkeeps, hone⟩
  · refine iff_of_false (fun heq => ?_) (not_not_intro hkeeps)
    rw [htwo, ← List.singleton_append, List.append_cancel_right_eq] at heq
    simp at heq
  · exact iff_of_true (by rw [hone]; rfl) hkeeps

section NullFree
variable (hworking : '\x00' ∉ workingDirectory) (hdirectory : ∀ given ∈ directory, '\x00' ∉ given)
  (hpath : '\x00' ∉ path)
include hworking hdirectory hpath

theorem null_notMem_join_baseOf : '\x00' ∉ join (baseOf workingDirectory directory) path := by
  refine null_notMem_join ?_ hpath
  unfold baseOf
  split
  · exact hworking
  · exact hworking
  · exact hdirectory _ rfl

theorem null_notMem_formOf : '\x00' ∉ formOf workingDirectory directory path := by
  intro hmem
  rcases List.mem_append.mp hmem with h | h
  · exact absurd (eq_slash_of_mem_slashes _ h) (by decide)
  rcases mem_joinWith_slash h with h | ⟨name, hname, hnull⟩
  · exact absurd h (by decide)
  rcases (mem_destination hname).2 _ hnull with h | h | h
  · exact hworking h
  · cases directory with
    | none => simp at h
    | some given => exact hdirectory given rfl h
  · exact hpath h

theorem absolute_eq_formOf (hrooted : isAbsolute workingDirectory = true) :
    absolute workingDirectory directory path = .ok (formOf workingDirectory directory path) :=
  absolute_eq_destination hrooted (null_notMem_join_baseOf hworking hdirectory hpath)

end NullFree
end Absolute

/-! ## The laws -/

/-- A path that is given relative to a directory, with an absolute working directory, has an absolute form.
The form is canonical, it is its own absolute form, and a relative path has it too behind the form of the
directory, if and only if two slashes of the working directory are not kept. In every case the normal form
of the path has it, and another path has it if and only if it leads to the same place and the two slashes
are kept for both or for none of them. -/
theorem one_absolute_form_iff (workingDirectory : Text) (directory : Option Text) (path : Text)
    (hrooted : isAbsolute workingDirectory = true) (hworking : '\x00' ∉ workingDirectory)
    (hdirectory : ∀ given ∈ directory, '\x00' ∉ given) (hpath : '\x00' ∉ path) :
    ∃ form, absolute workingDirectory directory path = .ok form ∧
      (IsCanonical form ↔ ¬KeepsTwoSlashes workingDirectory directory path) ∧
      (∀ other, absolute workingDirectory other form = .ok form ↔
        ¬KeepsTwoSlashes workingDirectory directory path) ∧
      absolute workingDirectory directory (normalize path) = .ok form ∧
      (isAbsolute path = false → ∃ start, absolute workingDirectory directory [] = .ok start ∧
        ∀ other, absolute workingDirectory other (start ++ '/' :: path) = .ok form ↔
          ¬KeepsTwoSlashes workingDirectory directory path) ∧
      ∀ other path', (∀ given ∈ other, '\x00' ∉ given) → '\x00' ∉ path' →
        (absolute workingDirectory other path' = .ok form ↔
          destination workingDirectory other path' = destination workingDirectory directory path ∧
            (KeepsTwoSlashes workingDirectory other path' ↔
              KeepsTwoSlashes workingDirectory directory path)) := by
  have hform := absolute_eq_formOf hworking hdirectory hpath hrooted
  have hnull := null_notMem_formOf hworking hdirectory hpath
  refine ⟨_, hform, isCanonical_formOf_iff hrooted, fun other => ?_,
    (absolute_normalize workingDirectory hpath).trans hform, fun hrelative => ?_, ?_⟩
  · rw [absolute_eq_of_isAbsolute hrooted (isAbsolute_formOf hrooted) hnull, follow_formOf,
      Except.ok.injEq]
    exact cons_eq_formOf_iff hrooted
  · let start := formOf workingDirectory directory []
    have hempty : '\x00' ∉ ([] : Text) := by simp
    have hbehind : isAbsolute (start ++ '/' :: path) = true :=
      isAbsolute_append (isAbsolute_formOf hrooted) _
    have hbehindNull : '\x00' ∉ start ++ '/' :: path := by
      simpa [hpath] using null_notMem_formOf hworking hdirectory hempty
    refine ⟨start, absolute_eq_formOf hworking hdirectory hempty hrooted, fun other => ?_⟩
    rw [absolute_eq_of_isAbsolute hrooted hbehind hbehindNull, follow_append_slash hrelative,
      follow_formOf, follow_destination_nil, Except.ok.injEq]
    exact cons_eq_formOf_iff hrooted
  · intro other path' hother hpath'
    rw [absolute_eq_formOf hworking hother hpath' hrooted, Except.ok.injEq]
    exact formOf_eq_formOf_iff hrooted

/-- A path with a detour, behind a directory with another one. -/
theorem one_absolute_form_iff_detour :
    isAbsolute "/work" = true ∧ '\x00' ∉ "/work".toList ∧
      (∀ given ∈ some "../repo/./styles/".toList, '\x00' ∉ given) ∧ '\x00' ∉ "..//a.less".toList ∧
      absolute "/work" (some "../repo/./styles/") "..//a.less" = .ok "/repo/a.less" ∧
      IsCanonical "/repo/a.less" ∧
      (∀ other, absolute "/work" other "/repo/a.less" = .ok "/repo/a.less") ∧
      (∃ start, absolute "/work" (some "../repo/./styles/") [] = .ok start ∧
        ∀ other, absolute "/work" other (start ++ '/' :: "..//a.less".toList) = .ok "/repo/a.less") ∧
      absolute "/work" none "../repo/a.less" = .ok "/repo/a.less" := by
  have hdirectory : ∀ given ∈ some "../repo/./styles/".toList, '\x00' ∉ given := by decide +kernel
  have hkeeps : ∀ directory path, ¬KeepsTwoSlashes "/work" directory path := fun _ _ hkeeps =>
    absurd hkeeps.two_slashes (by decide +kernel)
  obtain ⟨form, hform, hcanonical, hfixed, -, hbehind, halike⟩ := one_absolute_form_iff "/work"
    (some "../repo/./styles/") "..//a.less" (by decide +kernel) (by decide +kernel) hdirectory
    (by decide +kernel)
  obtain rfl : form = "/repo/a.less" :=
    Except.ok.inj (hform.symm.trans (by decide +kernel))
  obtain ⟨start, hstart, hspelled⟩ := hbehind (by decide +kernel)
  refine ⟨by decide +kernel, by decide +kernel, hdirectory, by decide +kernel, hform,
    hcanonical.mpr (hkeeps _ _), fun other => (hfixed other).mpr (hkeeps _ _),
    ⟨start, hstart, fun other => (hspelled other).mpr (hkeeps _ _)⟩, ?_⟩
  refine (halike none "../repo/a.less" (by simp) (by decide +kernel)).mpr ⟨by decide +kernel, ?_⟩
  exact iff_of_false (hkeeps _ _) (hkeeps _ _)

/-- Where the working directory begins with two slashes, a file has one form for its path behind a relative
directory, which is not its own absolute form, and another one without the directory. -/
theorem second_form_of_one_file :
    isAbsolute "//work" = true ∧ '\x00' ∉ "//work".toList ∧
      (∀ given ∈ some ".".toList, '\x00' ∉ given) ∧ '\x00' ∉ "main.less".toList ∧
      absolute "//work" (some ".") "main.less" = .ok "//work/main.less" ∧
      ¬IsCanonical "//work/main.less" ∧
      (∀ other, absolute "//work" other "//work/main.less" = .ok "/work/main.less") ∧
      absolute "//work" (some ".") [] = .ok "//work" ∧
      destination "//work" (some ".") "main.less" = destination "//work" none "main.less" ∧
      absolute "//work" none "main.less" = .ok "/work/main.less" := by
  refine ⟨by decide +kernel, by decide +kernel, by decide +kernel, by decide +kernel, by decide +kernel,
    not_isCanonical_of_two_slashes _, fun other => ?_, by decide +kernel, by decide +kernel,
    by decide +kernel⟩
  rw [absolute_eq_of_isAbsolute (by decide +kernel) (by decide +kernel) (by decide +kernel)]
  decide +kernel

end StyleOrigin.Path
