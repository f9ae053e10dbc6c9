import StyleOrigin.Proofs.Css.Leaves
import StyleOrigin.Proofs.Css.Scanning

/-! # Texts that show nothing

A stylesheet without nodes is made of white space, comments, and the two marks that once hid a
stylesheet. Whether a text is one can be told character by character: no lexeme has to be finished to
know that it shows something.

* `Cover`, `Cover.run`: how far such a text has come, and how a text takes it on.
* `Cover.run_cleaned`: the form of line ends is all the same.
* `isHidden_run_iff`: a text stays hidden exactly if all its lexemes do.
* `isPassed_nest_iff`, `nodesFrom_eq_nil_iff`: so do its tokens, and so there are no nodes.
* `parse_eq_nil_iff`: a source has no nodes exactly if it stays hidden.
-/
set_option autoImplicit false

namespace StyleOrigin.Css

/-! ## Character by character -/

/-- How far a text that shows nothing has come: between comments, at a mark that has begun, in a
comment, or behind a star in one. In the end something may be shown. -/
inductive Cover
  | between
  | slash
  | angle
  | angleBang
  | angleHyphen
  | hyphen
  | hyphens
  | comment
  | star
  | shown
deriving DecidableEq, Repr

namespace Cover

/-- White space before line ends are unified. -/
def isBlank (c : Char) : Bool :=
  isWhitespace c || c == '\r' || c == '\x0C'

def step (cover : Cover) (c : Char) : Cover :=
  match cover with
  | between =>
    if isBlank c then between
    else if c = '/' then slash
    else if c = '<' then angle
    else if c = '-' then hyphen
    else shown
  | slash => if c = '*' then comment else shown
  | angle => if c = '!' then angleBang else shown
  | angleBang => if c = '-' then angleHyphen else shown
  | angleHyphen => if c = '-' then between else shown
  | hyphen => if c = '-' then hyphens else shown
  | hyphens => if c = '>' then between else shown
  | comment => if c = '*' then star else comment
  | star => if c = '/' then between else if c = '*' then star else comment
  | shown => shown

def run (cover : Cover) (text : Text) : Cover :=
  text.foldl step cover

/-- Whether nothing is shown when the text ends here. The end of a text ends a comment too. -/
def isHidden : Cover → Bool
  | between | comment | star => true
  | _ => false

theorem run_cons (cover : Cover) (c : Char) (cs : Text) :
    cover.run (c :: cs) = (cover.step c).run cs :=
  rfl

theorem run_append (cover : Cover) (front back : Text) :
    cover.run (front ++ back) = (cover.run front).run back :=
  List.foldl_append

theorem run_shown (text : Text) : shown.run text = shown := by
  induction text with
  | nil => rfl
  | cons c cs ih => exact ih

theorem run_between_of_blank {text : Text} (h : ∀ c ∈ text, isWhitespace c = true) :
    between.run text = between := by
  induction text with
  | nil => rfl
  | cons c cs ih =>
    obtain ⟨hc, hcs⟩ := List.forall_mem_cons.mp h
    have hstep : between.step c = between := by simp [step, isBlank, hc]
    rw [run_cons, hstep, ih hcs]

/-! ## Line ends -/

theorem run_map {f : Char → Char} (hf : ∀ cover c, step cover (f c) = step cover c) (cover : Cover)
    (text : Text) : cover.run (text.map f) = cover.run text := by
  induction text generalizing cover with
  | nil => rfl
  | cons c cs ih => rw [List.map_cons, run_cons, run_cons, hf, ih]

theorem step_return (cover : Cover) : cover.step '\r' = cover.step '\n' := by
  cases cover <;> rfl

theorem step_feed (cover : Cover) : cover.step '\x0C' = cover.step '\n' := by
  cases cover <;> rfl

theorem step_null (cover : Cover) : cover.step '\x00' = cover.step '\uFFFD' := by
  cases cover <;> rfl

/-- A second line end changes nothing. -/
theorem step_lines (cover : Cover) : (cover.step '\n').step '\n' = cover.step '\n' := by
  cases cover <;> rfl

theorem run_unifyLineEnds (cover : Cover) (text : Text) :
    cover.run (Text.unifyLineEnds text) = cover.run text := by
  induction text using Text.unifyLineEnds.induct generalizing cover with
  | case1 => rfl
  | case2 cs ih => rw [Text.unifyLineEnds, run_cons, run_cons, run_cons, step_return, step_lines, ih]
  | case3 c cs hne ih =>
    have hstep : cover.step (if c = '\r' then '\n' else c) = cover.step c := by
      split
      · rename_i hreturn
        rw [hreturn, step_return]
      · rfl
    rw [Text.unifyLineEnds.eq_3 _ _ hne, run_cons, run_cons, hstep, ih]

/-- Whether something is shown does not depend on the form of line ends. -/
theorem run_cleaned (cover : Cover) (source : Text) :
    cover.run (cleaned source) = cover.run source := by
  have hnull : ∀ cover c, step cover (if c = '\x00' then '\uFFFD' else c) = step cover c := by
    intro cover c
    split
    · rename_i heq
      rw [heq, step_null]
    · rfl
  have hfeed : ∀ cover c, step cover (if c = '\x0C' then '\n' else c) = step cover c := by
    intro cover c
    split
    · rename_i heq
      rw [heq, step_feed]
    · rfl
  rw [cleaned, run_map hfeed, run_unifyLineEnds, run_map hnull]

/-! ## In comments -/

/-- Only a slash tells a star in a comment from the other characters there. -/
theorem isHidden_run_star {text : Text} (h : text.head? ≠ some '/') :
    (star.run text).isHidden = (comment.run text).isHidden := by
  cases text with
  | nil => rfl
  | cons c cs =>
    have hslash : c ≠ '/' := fun heq => h (by rw [heq]; rfl)
    have hstep : star.step c = comment.step c := by simp [step, hslash]
    rw [run_cons, run_cons, hstep]

/-- In a comment nothing is shown, so what counts is the text behind it. -/
theorem isHidden_run_comment (text : Text) :
    (comment.run text).isHidden = (between.run (text.drop (scanComment text).2)).isHidden := by
  induction text using scanComment.induct with
  | case1 => rfl
  | case2 cs => rfl
  | case3 c cs hne ih =>
    have htaken : (scanComment (c :: cs)).2 = (scanComment cs).2 + 1 := by
      rw [scanComment.eq_3 _ _ hne]
      rfl
    rw [htaken, List.drop_succ_cons, ← ih, run_cons]
    by_cases hstar : c = '*'
    · subst hstar
      apply isHidden_run_star
      intro hslash
      obtain ⟨tail, rfl⟩ := List.head?_eq_some_iff.mp hslash
      exact hne tail rfl rfl
    · simp [step, hstar]

end Cover

/-! ## Lexemes -/

/-- Whether a lexeme is passed over between rules. -/
def Lexeme.isHidden : Lexeme → Bool
  | .leaf (.whitespace _) => true
  | .leaf (.comment _) => true
  | .leaf (.literal text) => text == "<!--" || text == "-->"
  | _ => false

/-- Whether what starts here is passed over between rules. -/
def startsHidden (c : Char) (cs : Text) : Bool :=
  isWhitespace c || startsClosingMark (c :: cs) || (c == '/' && cs.head? == some '*')
    || (c == '<' && List.isPrefixOf "!--".toList cs)

theorem exists_shown_ident (text : Text) :
    ∃ lexeme ∈ (Step.ident text).lexemes, lexeme.isHidden = false := by
  simp only [Step.ident, Step.quotation]
  split
  · split
    · split <;> exact ⟨_, List.mem_cons_self, rfl⟩
    · exact ⟨_, List.mem_cons_self, rfl⟩
  · exact ⟨_, List.mem_cons_self, rfl⟩

theorem exists_shown_quotation (found : Quotation) (taken : Nat) :
    ∃ lexeme ∈ (Step.quotation found taken .string .unclosedString .badString).lexemes,
      lexeme.isHidden = false := by
  unfold Step.quotation
  split <;> exact ⟨_, List.mem_cons_self, rfl⟩

theorem exists_shown_numeral (text numeral : Text) :
    ∃ lexeme ∈ (Step.numeral text numeral).lexemes, lexeme.isHidden = false := by
  simp only [Step.numeral]
  split
  · exact ⟨_, List.mem_cons_self, rfl⟩
  · split <;> exact ⟨_, List.mem_cons_self, rfl⟩

theorem exists_shown_mark {c : Char} {cs : Text} (h : startsHidden c cs = false) :
    ∃ lexeme ∈ (Step.mark c cs).lexemes, lexeme.isHidden = false := by
  unfold Step.mark
  split
  all_goals first
    | exact ⟨_, List.mem_cons_self, rfl⟩
    | exact exists_shown_quotation _ _
    | split <;> exact ⟨_, List.mem_cons_self, rfl⟩
    | (simp [startsHidden] at h; done)
    | exact ⟨_, List.mem_cons_self, by simp [Lexeme.isHidden]⟩

/-- What is not passed over brings a lexeme that is not passed over either. -/
theorem exists_shown_next {c : Char} {cs : Text} (h : startsHidden c cs = false) :
    ∃ lexeme ∈ (Lexeme.next c cs).lexemes, lexeme.isHidden = false := by
  unfold Lexeme.next
  split
  · rename_i hspace
    exact absurd h (by simp [startsHidden, hspace])
  split
  · exact ⟨_, List.mem_cons_self, rfl⟩
  split
  · rename_i hclosing
    exact absurd h (by simp [startsHidden, hclosing])
  split
  · exact exists_shown_ident _
  split
  · exact exists_shown_numeral _ _
  · exact exists_shown_mark h

namespace Cover

/-- A mark that has begun has to go on. -/
theorem exists_cons_of_isHidden {cover next : Cover} {c : Char} (hcover : cover.isHidden = false)
    (hstep : ∀ d, cover.step d = if d = c then next else shown) {text : Text}
    (h : (cover.run text).isHidden = true) :
    ∃ rest, text = c :: rest ∧ (next.run rest).isHidden = true := by
  cases text with
  | nil => exact absurd (hcover.symm.trans h) (by simp)
  | cons d ds =>
    rw [run_cons, hstep] at h
    split at h
    · rename_i heq
      exact ⟨ds, by rw [heq], h⟩
    · rw [run_shown] at h
      exact absurd h (by decide)

/-- What is not passed over is shown, whatever follows. -/
theorem isHidden_run_of_shown {c : Char} {cs : Text} (hclean : isClean c = true)
    (h : startsHidden c cs = false) : (between.run (c :: cs)).isHidden = false := by
  refine Bool.eq_false_iff.mpr fun hhidden => ?_
  rw [run_cons] at hhidden
  by_cases hslash : c = '/'
  · subst hslash
    change (slash.run cs).isHidden = true at hhidden
    obtain ⟨rest, rfl, -⟩ := exists_cons_of_isHidden rfl (fun _ => rfl) hhidden
    exact absurd h (by simp [startsHidden])
  by_cases hangle : c = '<'
  · subst hangle
    change (angle.run cs).isHidden = true at hhidden
    obtain ⟨first, rfl, hfirst⟩ := exists_cons_of_isHidden rfl (fun _ => rfl) hhidden
    obtain ⟨second, rfl, hsecond⟩ := exists_cons_of_isHidden rfl (fun _ => rfl) hfirst
    obtain ⟨third, rfl, -⟩ := exists_cons_of_isHidden rfl (fun _ => rfl) hsecond
    exact absurd h (by simp [startsHidden])
  by_cases hhyphen : c = '-'
  · subst hhyphen
    change (hyphen.run cs).isHidden = true at hhidden
    obtain ⟨first, rfl, hfirst⟩ := exists_cons_of_isHidden rfl (fun _ => rfl) hhidden
    obtain ⟨second, rfl, -⟩ := exists_cons_of_isHidden rfl (fun _ => rfl) hfirst
    exact absurd h (by simp [startsHidden, startsClosingMark])
  obtain ⟨-, hreturn, hfeed⟩ := isClean_iff.mp hclean
  have hspace : isWhitespace c = false := by
    simp only [startsHidden, Bool.or_eq_false_iff] at h
    exact h.1.1.1
  have hstep : between.step c = shown := by
    simp [step, isBlank, hspace, hreturn, hfeed, hslash, hangle, hhyphen]
  rw [hstep, run_shown] at hhidden
  exact absurd hhidden (by decide)

end Cover

/-- A step of the reader that is passed over, and characters that show nothing. -/
structure PassesOver (c : Char) (cs : Text) : Prop where
  hidden : ∀ lexeme ∈ (Lexeme.next c cs).lexemes, lexeme.isHidden = true
  run_eq : (Cover.between.run (c :: cs)).isHidden =
    (Cover.between.run (cs.drop (Lexeme.next c cs).more)).isHidden

theorem passesOver_whitespace {c : Char} (h : isWhitespace c = true) (cs : Text) :
    PassesOver c cs := by
  have hnext : Lexeme.next c cs = ⟨[.leaf (.whitespace (c :: cs.takeWhile isWhitespace))],
      (cs.takeWhile isWhitespace).length⟩ := by
    rw [Lexeme.next, if_pos h]
    rfl
  have hblank : ∀ d ∈ c :: cs.takeWhile isWhitespace, isWhitespace d = true := by
    refine List.forall_mem_cons.mpr ⟨h, fun d hd => ?_⟩
    exact List.all_eq_true.mp List.all_takeWhile d hd
  have hsplit : c :: cs = c :: cs.takeWhile isWhitespace ++ cs.dropWhile isWhitespace := by
    rw [List.cons_append, List.takeWhile_append_dropWhile]
  constructor
  · rw [hnext]
    simp [Lexeme.isHidden]
  · rw [hnext, drop_takeWhile_length, hsplit, Cover.run_append, Cover.run_between_of_blank hblank]

theorem passesOver_comment (cs : Text) : PassesOver '/' ('*' :: cs) := by
  have hnext : Lexeme.next '/' ('*' :: cs) =
      ⟨[.leaf (.comment (scanComment cs).1)], (scanComment cs).2 + 1⟩ :=
    next_eq_mark (by decide) _
  constructor
  · rw [hnext]
    simp [Lexeme.isHidden]
  · rw [hnext, List.drop_succ_cons]
    exact Cover.isHidden_run_comment cs

/-- The two marks that once hid a stylesheet leave the text between comments. -/
theorem passesOver_literal {c : Char} {cs text : Text} (hnext : Lexeme.next c cs = .literal text)
    (htext : text = "<!--" ∨ text = "-->")
    (hrun : Cover.between.run (c :: cs) = Cover.between.run (cs.drop (text.length - 1))) :
    PassesOver c cs := by
  constructor
  · rw [hnext]
    rcases htext with rfl | rfl <;> simp [Step.literal, Step.leaf, Lexeme.isHidden]
  · rw [hnext, hrun]
    rfl

theorem passesOver_of_startsHidden {c : Char} {cs : Text} (h : startsHidden c cs = true) :
    PassesOver c cs := by
  simp only [startsHidden, Bool.or_eq_true, Bool.and_eq_true, beq_iff_eq, List.isPrefixOf_iff_prefix]
    at h
  rcases h with ((hspace | hclosing) | ⟨rfl, hstar⟩) | ⟨rfl, rest, rfl⟩
  · exact passesOver_whitespace hspace cs
  · obtain ⟨rest, heq⟩ := exists_of_startsClosingMark hclosing
    obtain ⟨rfl, rfl⟩ := List.cons.inj heq
    exact passesOver_literal rfl (.inr rfl) rfl
  · obtain ⟨rest, rfl⟩ := List.head?_eq_some_iff.mp hstar
    exact passesOver_comment rest
  · exact passesOver_literal rfl (.inl rfl) rfl

/-- A clean text stays hidden exactly if all its lexemes are passed over. -/
theorem isHidden_run_iff : ∀ {text : Text}, (∀ c ∈ text, isClean c = true) →
    ((Cover.between.run text).isHidden = true ↔ ∀ lexeme ∈ lexemesOf text, lexeme.isHidden = true)
  | [], _ => by simp [Cover.run, Cover.isHidden, lexemesOf, lexemesFrom]
  | c :: cs, hclean => by
    have hrest : ∀ d ∈ cs.drop (Lexeme.next c cs).more, isClean d = true :=
      fun d hd => hclean d (List.mem_cons_of_mem c (List.mem_of_mem_drop hd))
    have ih := isHidden_run_iff hrest
    rw [lexemesOf_cons]
    simp only [List.mem_append, or_imp, forall_and]
    cases hstarts : startsHidden c cs with
    | true =>
      obtain ⟨hnext, hrun⟩ := passesOver_of_startsHidden hstarts
      rw [hrun, ih]
      exact ⟨fun hall => ⟨hnext, hall⟩, fun hall => hall.2⟩
    | false =>
      rw [Cover.isHidden_run_of_shown (hclean c List.mem_cons_self) hstarts]
      obtain ⟨lexeme, hmem, hshown⟩ := exists_shown_next hstarts
      refine ⟨fun hfalse => absurd hfalse (by simp), fun hall => ?_⟩
      exact absurd (hall.1 lexeme hmem) (by simp [hshown])
termination_by text => text.length
decreasing_by
  rw [List.length_drop, List.length_cons]
  omega

/-! ## Tokens and nodes -/

theorem isPassedAtTop_leaf (position : Position) (value : Leaf) :
    isPassedAtTop (.leaf position value) = (Lexeme.leaf value).isHidden := by
  cases value <;> rfl

/-- Whether a token among those read so far, or an open group, will be shown. -/
def Exposed (groups : List OpenGroup) (content : List Token) : Prop :=
  groups ≠ [] ∨ ∃ token ∈ content, isPassedAtTop token = false

theorem Exposed.finish (group : OpenGroup) (groups : List OpenGroup) (content : List Token) :
    Exposed groups (group.finish content) :=
  .inr ⟨_, List.mem_cons_self, rfl⟩

theorem Exposed.finishAll {groups : List OpenGroup} {content : List Token}
    (h : Exposed groups content) :
    ∃ token ∈ groups.foldl (fun content group => group.finish content) content,
      isPassedAtTop token = false := by
  induction groups generalizing content with
  | nil => exact h.resolve_left (by simp)
  | cons group groups ih => exact ih (Exposed.finish group groups content)

/-- Nothing that will be shown gets lost. -/
theorem Exposed.nestFrom {groups : List OpenGroup} {content : List Token}
    (h : Exposed groups content) (lexemes : List (Position × Lexeme)) :
    ∃ token ∈ nestFrom groups content lexemes, isPassedAtTop token = false := by
  induction lexemes generalizing groups content with
  | nil =>
    obtain ⟨token, htoken, hshown⟩ := h.finishAll
    refine ⟨token, ?_, hshown⟩
    cases groups <;> exact List.mem_reverse.mpr htoken
  | cons found rest ih =>
    obtain ⟨position, lexeme⟩ := found
    cases lexeme with
    | leaf value =>
      have hpushed : Exposed groups (.leaf position value :: content) :=
        h.imp_right fun ⟨token, htoken, hshown⟩ => ⟨token, List.mem_cons_of_mem _ htoken, hshown⟩
      have hstep : Css.nestFrom groups content ((position, .leaf value) :: rest) =
          Css.nestFrom groups (.leaf position value :: content) rest := by
        cases groups <;> rfl
      rw [hstep]
      exact ih hpushed
    | opens opening =>
      have hopened : Exposed (⟨position, opening, content⟩ :: groups) [] := .inl (by simp)
      have hstep : Css.nestFrom groups content ((position, .opens opening) :: rest) =
          Css.nestFrom (⟨position, opening, content⟩ :: groups) [] rest := by
        cases groups <;> rfl
      rw [hstep]
      exact ih hopened
    | closes bracket =>
      cases groups with
      | nil => exact ih (.inr ⟨_, List.mem_cons_self, rfl⟩)
      | cons group groups =>
        rw [Css.nestFrom]
        split
        · exact ih (.finish group groups content)
        · exact ih (.inl (by simp))

theorem isPassed_nestFrom_iff (content : List Token) (lexemes : List (Position × Lexeme)) :
    (∀ token ∈ nestFrom [] content lexemes, isPassedAtTop token = true) ↔
      (∀ token ∈ content, isPassedAtTop token = true) ∧
        ∀ found ∈ lexemes, found.2.isHidden = true := by
  have hexposed : ∀ groups content rest, Exposed groups content →
      ¬∀ token ∈ nestFrom groups content rest, isPassedAtTop token = true := by
    intro groups content rest h hall
    obtain ⟨token, htoken, hshown⟩ := h.nestFrom rest
    exact absurd (hall token htoken) (by simp [hshown])
  induction lexemes generalizing content with
  | nil => simp [nestFrom]
  | cons found rest ih =>
    obtain ⟨position, lexeme⟩ := found
    rw [List.forall_mem_cons]
    cases lexeme with
    | leaf value =>
      refine (ih (.leaf position value :: content)).trans ?_
      rw [List.forall_mem_cons, isPassedAtTop_leaf]
      tauto
    | opens opening =>
      refine ⟨fun hall => absurd hall ?_, fun h => absurd h.2.1 (by simp [Lexeme.isHidden])⟩
      exact hexposed [⟨position, opening, content⟩] [] rest (.inl (by simp))
    | closes bracket =>
      refine ⟨fun hall => absurd hall ?_, fun h => absurd h.2.1 (by simp [Lexeme.isHidden])⟩
      exact hexposed [] (.leaf position (.flaw (.unmatched bracket)) :: content) rest
        (.inr ⟨_, List.mem_cons_self, rfl⟩)

/-- No token is shown exactly if all lexemes are passed over. -/
theorem isPassed_nest_iff (lexemes : List (Position × Lexeme)) :
    (∀ token ∈ nest lexemes, isPassedAtTop token = true) ↔
      ∀ found ∈ lexemes, found.2.isHidden = true := by
  rw [nest, isPassed_nestFrom_iff]
  simp

theorem nodesFrom_some_ne_nil (skips : Token → Bool) (pending : Pending) (tokens : List Token) :
    nodesFrom skips (some pending) tokens ≠ [] := by
  induction tokens generalizing pending with
  | nil => simp [nodesFrom]
  | cons token rest ih =>
    rw [nodesFrom]
    split
    · simp
    · split
      · simp
      · exact ih _

theorem nodesFrom_eq_nil_iff (skips : Token → Bool) (tokens : List Token) :
    nodesFrom skips none tokens = [] ↔ ∀ token ∈ tokens, skips token = true := by
  induction tokens with
  | nil => simp [nodesFrom]
  | cons token rest ih =>
    rw [nodesFrom, List.forall_mem_cons]
    split
    · rename_i hskips
      rw [ih]
      exact ⟨fun h => ⟨hskips, h⟩, fun h => h.2⟩
    · rename_i hshown
      refine ⟨fun hnone => absurd hnone ?_, fun h => absurd h.1 hshown⟩
      split
      · simp
      · exact nodesFrom_some_ne_nil _ _ _

theorem overlong_of_isHidden {lexeme : Lexeme} (h : lexeme.isHidden = true) :
    lexeme.overlong? = none := by
  unfold Lexeme.isHidden at h
  split at h <;> first | rfl | exact absurd h (by simp)

theorem isHidden_of_isComment {lexeme : Lexeme} (h : lexeme.isComment = true) :
    lexeme.isHidden = true := by
  unfold Lexeme.isComment at h
  split at h
  · rfl
  · exact absurd h (by simp)

theorem nodesFrom_nest_eq_nil_iff (lexemes : List (Position × Lexeme)) :
    nodesFrom isPassedAtTop none
        (nest (lexemes.filter fun found => false || !found.2.isComment)) = [] ↔
      ∀ found ∈ lexemes, found.2.isHidden = true := by
  rw [nodesFrom_eq_nil_iff, isPassed_nest_iff]
  constructor
  · intro hall found hfound
    cases hcomment : found.2.isComment with
    | true => exact isHidden_of_isComment hcomment
    | false => exact hall found (List.mem_filter.mpr ⟨hfound, by simp [hcomment]⟩)
  · exact fun hall found hfound => hall found (List.mem_filter.mp hfound).1

/-- A source has no nodes exactly if nothing in it is shown. -/
theorem parse_eq_nil_iff (source : Text) :
    parse source = .ok [] ↔ (Cover.between.run source).isHidden = true := by
  have hlexemes : (∀ lexeme ∈ lexemesOf (cleaned source), lexeme.isHidden = true) ↔
      ∀ found ∈ lexemes source, found.2.isHidden = true := by
    rw [lexemesOf, List.forall_mem_map]
    rfl
  rw [← Cover.run_cleaned, isHidden_run_iff fun c => isClean_of_mem_cleaned, hlexemes,
    ← nodesFrom_nest_eq_nil_iff]
  unfold parse tokens
  cases hlong : (lexemes source).findSome? (·.2.overlong?) with
  | none => simp [hlong, Except.map]
  | some fault =>
    simp only [hlong, Except.map, reduceCtorEq, false_iff]
    rw [nodesFrom_nest_eq_nil_iff]
    intro hall
    obtain ⟨found, hfound, hfault⟩ := List.exists_of_findSome?_eq_some hlong
    rw [overlong_of_isHidden (hall found hfound)] at hfault
    exact absurd hfault (by simp)

end StyleOrigin.Css
