import StyleOrigin.Cli.Session
import StyleOrigin.Proofs.Css.Cover

/-! # Output as a stylesheet

Without fragments and rules, the output of a run is comments and line ends. The comments are made
around texts that come from outside: the path of the input file, and the paths of matches. A path that
ends the comment it stands in shows what follows.

* `withoutCodes_before`, `withoutCodes_behind`: terminal codes do not reach from a path to its comment.
* `StaysInComment`: what is asked of a path.
* `output_is_hidden_iff`: the output has no nodes exactly if all paths in it stay in their comments.
-/
set_option autoImplicit false

namespace StyleOrigin.Cli

open Css

/-! ## Terminal codes -/

theorem codeLength_of_ne {c : Char} (h : c ≠ escape) (cs : Text) : codeLength? (c :: cs) = none := by
  unfold codeLength?
  split
  · rename_i heq
    obtain ⟨rfl, -⟩ := List.cons.inj heq
    simp [h]
  · rfl

theorem codeLength_of_ne_bracket {c d : Char} (h : d ≠ '[') (cs : Text) :
    codeLength? (c :: d :: cs) = none := by
  unfold codeLength?
  split
  · rename_i heq
    exact absurd (List.cons.inj (List.cons.inj heq).2).1 h
  · rfl

/-- A text without escapes stays as it is in front of others. -/
theorem withoutCodes_before {front : Text} (h : escape ∉ front) (back : Text) :
    withoutCodes (front ++ back) = front ++ withoutCodes back := by
  induction front with
  | nil => rfl
  | cons c cs ih =>
    rw [List.mem_cons, not_or] at h
    have hc : c ≠ escape := fun heq => h.1 heq.symm
    have ih := ih h.2
    unfold withoutCodes at ih ⊢
    rw [List.cons_append, withoutCodesFrom, codeLength_of_ne hc]
    exact congrArg (c :: ·) ih

/-- What ends a comment. -/
def closing : Text :=
  " */"

/-- How many characters a terminal code has between its two first ones and its last one. -/
def codeInside (text : Text) : Nat :=
  let parameters := (text.takeWhile isCodeParameter).length
  parameters + ((text.drop parameters).takeWhile isCodeIntermediate).length

theorem codeLength_cons_cons (c : Char) (cs : Text) :
    codeLength? (c :: '[' :: cs) =
      if c = escape && ((cs.drop (codeInside cs)).head?.map isCodeFinal).getD false then
        some (codeInside cs + 3)
      else none :=
  rfl

/-- Behind a text, the end of a comment is no end of a code: a code that is still open takes all of
it. -/
theorem codeInside_append_closing (text : Text) :
    codeInside (text ++ closing) =
      if codeInside text < text.length then codeInside text else text.length + closing.length := by
  have hle := (List.takeWhile_prefix (l := text) isCodeParameter).length_le
  have hparameters : (text ++ closing).takeWhile isCodeParameter = text.takeWhile isCodeParameter := by
    rw [List.takeWhile_append]
    split
    · rename_i hall
      rw [show closing.takeWhile isCodeParameter = [] by decide, List.append_nil]
      exact ((List.takeWhile_prefix isCodeParameter).eq_of_length hall).symm
    · rfl
  unfold codeInside
  rw [hparameters]
  generalize (text.takeWhile isCodeParameter).length = parameters at hle ⊢
  simp only [List.drop_append_of_le_length hle]
  have hrest : (text.drop parameters).length = text.length - parameters := List.length_drop
  rw [List.takeWhile_append]
  split
  · rename_i hall
    rw [if_neg (by omega), show closing.takeWhile isCodeIntermediate = closing by decide,
      List.length_append]
    omega
  · rename_i hsome
    have hless := (List.takeWhile_prefix (l := text.drop parameters) isCodeIntermediate).length_le
    rw [if_pos (by omega)]

theorem codeLength_append_closing (text : Text) :
    codeLength? (text ++ closing) = codeLength? text := by
  match text with
  | [] => rfl
  | [c] => rfl
  | c :: d :: cs =>
    by_cases hd : d = '['
    · subst hd
      rw [List.cons_append, List.cons_append, codeLength_cons_cons, codeLength_cons_cons,
        codeInside_append_closing]
      split
      · rename_i hless
        rw [List.drop_append_of_le_length (Nat.le_of_lt hless), List.head?_append_of_ne_nil]
        rwa [ne_eq, List.drop_eq_nil_iff, not_le]
      · rename_i hall
        have hnone : cs.drop (codeInside cs) = [] := List.drop_eq_nil_of_le (by omega)
        have hnone' : (cs ++ closing).drop (cs.length + closing.length) = [] :=
          List.drop_eq_nil_of_le (by rw [List.length_append])
        rw [hnone, hnone']
        simp
    · rw [List.cons_append, List.cons_append, codeLength_of_ne_bracket hd, codeLength_of_ne_bracket hd]

theorem codeLength_le {text : Text} {length : Nat} (h : codeLength? text = some length) :
    length ≤ text.length := by
  match text with
  | [] => exact absurd h (by simp [codeLength?])
  | [c] => exact absurd h (by simp [codeLength?])
  | c :: d :: cs =>
    by_cases hd : d = '['
    · subst hd
      rw [codeLength_cons_cons] at h
      split at h
      · rename_i hfinal
        have hless : codeInside cs < cs.length := by
          by_contra hnot
          rw [List.drop_eq_nil_of_le (by omega)] at hfinal
          exact absurd hfinal (by simp)
        have hlength := Option.some.inj h
        simp only [List.length_cons]
        omega
      · exact absurd h (by simp)
    · rw [codeLength_of_ne_bracket hd] at h
      exact absurd h (by simp)

theorem withoutCodesFrom_append_closing (skip : Nat) (text : Text) (h : skip ≤ text.length) :
    withoutCodesFrom skip (text ++ closing) = withoutCodesFrom skip text ++ closing := by
  induction text generalizing skip with
  | nil =>
    obtain rfl : skip = 0 := Nat.le_zero.mp h
    rfl
  | cons c cs ih =>
    cases skip with
    | succ skip => exact ih skip (Nat.le_of_succ_le_succ h)
    | zero =>
      have hlength := codeLength_append_closing (c :: cs)
      rw [List.cons_append] at hlength ⊢
      rw [withoutCodesFrom, withoutCodesFrom, hlength]
      split
      · rename_i length hcode
        have hle := codeLength_le hcode
        rw [List.length_cons] at hle
        exact ih (length - 1) (by omega)
      · exact congrArg (c :: ·) (ih 0 (Nat.zero_le _))

/-- The end of a comment stays as it is behind any text. -/
theorem withoutCodes_behind (text : Text) :
    withoutCodes (text ++ closing) = withoutCodes text ++ closing :=
  withoutCodesFrom_append_closing 0 text (Nat.zero_le _)

/-! ## Texts in comments -/

/-- A text leaves open the comment that it stands in, perhaps after others. -/
def StaysInComment (text : Text) : Prop :=
  Cover.comment.run (withoutCodes text) = .comment ∨ Cover.comment.run (withoutCodes text) = .star

instance (text : Text) : Decidable (StaysInComment text) :=
  inferInstanceAs (Decidable (_ ∨ _))

theorem run_of_not_infix {text : Text} (h : ¬ ['*', '/'] <:+: text) :
    Cover.comment.run text = .comment ∨ Cover.comment.run text = .star := by
  have hboth : ∀ cover : Cover, (cover = .comment ∨ cover = .star ∧ text.head? ≠ some '/') →
      cover.run text = .comment ∨ cover.run text = .star := by
    induction text with
    | nil => exact fun cover hcover => hcover.imp_right And.left
    | cons c cs ih =>
      have hcs : ¬ ['*', '/'] <:+: cs := fun hwithin => h (hwithin.trans (List.suffix_cons c cs).isInfix)
      intro cover hcover
      rw [Cover.run_cons]
      apply ih hcs
      by_cases hstar : c = '*'
      · subst hstar
        have hhead : cs.head? ≠ some '/' := by
          intro hslash
          obtain ⟨rest, rfl⟩ := List.head?_eq_some_iff.mp hslash
          exact h ⟨[], rest, rfl⟩
        rcases hcover with rfl | ⟨rfl, -⟩ <;> exact .inr ⟨rfl, hhead⟩
      · rcases hcover with rfl | ⟨rfl, hslash⟩
        · exact .inl (by simp [Cover.step, hstar])
        · have hc : c ≠ '/' := fun heq => hslash (by rw [heq]; rfl)
          exact .inl (by simp [Cover.step, hstar, hc])
  exact hboth .comment (.inl rfl)

/-- A path that does not hold the end of a comment stays in its own. -/
theorem staysInComment_of_not_infix {text : Text} (h : ¬ ['*', '/'] <:+: withoutCodes text) :
    StaysInComment text :=
  run_of_not_infix h

/-- Behind the end of a comment and of its line a text is between comments, or has shown something. -/
theorem run_closing (cover : Cover) :
    cover.run (closing ++ ['\n']) =
      if cover = .comment ∨ cover = .star then .between else .shown := by
  cases cover <;> rfl

/-! ## Prints -/

/-- What a print takes a text to that has been between comments: back there if it shows nothing. -/
def Print.cover (print : Print) : Cover :=
  Cover.between.run (print.render false ++ ['\n'])

theorem run_comment_of_notMem {text : Text} (h : '*' ∉ text) :
    Cover.comment.run text = .comment := by
  induction text with
  | nil => rfl
  | cons c cs ih =>
    rw [List.mem_cons, not_or] at h
    have hc : c ≠ '*' := fun heq => h.1 heq.symm
    have hstep : Cover.comment.step c = .comment := by simp [Cover.step, hc]
    rw [Cover.run_cons, hstep, ih h.2]

/-- A text that may stand in front of a path in a comment. -/
structure IsLabel (label : Text) : Prop where
  noEscape : escape ∉ label
  noStar : '*' ∉ label

/-- A comment with a path behind a label. -/
theorem IsLabel.cover_eq {label : Text} (h : IsLabel label) (path : Text) (stream : Stream)
    (colour : Option Colour) :
    Print.cover ⟨stream, colour, comment (label ++ path)⟩ =
      if StaysInComment path then .between else .shown := by
  have hfront : escape ∉ "/* ".toList ++ label := by
    rw [List.mem_append, not_or]
    exact ⟨by decide, h.noEscape⟩
  have hcomment : comment (label ++ path) = "/* ".toList ++ label ++ (path ++ closing) := by
    simp [comment, closing]
  have hrender : Print.render false ⟨stream, colour, comment (label ++ path)⟩ =
      "/* ".toList ++ label ++ (withoutCodes path ++ closing) := by
    rw [← withoutCodes_behind, ← withoutCodes_before hfront, ← hcomment]
    rfl
  have hopened : Cover.between.run ("/* ".toList ++ label) = .comment := by
    rw [Cover.run_append, show Cover.between.run "/* ".toList = .comment by decide,
      run_comment_of_notMem h.noStar]
  rw [Print.cover, hrender, List.append_assoc, Cover.run_append, hopened, List.append_assoc,
    Cover.run_append, run_closing]
  rfl

theorem IsLabel.cover_iff {label : Text} (h : IsLabel label) (path : Text) (stream : Stream)
    (colour : Option Colour) :
    Print.cover ⟨stream, colour, comment (label ++ path)⟩ = .between ↔ StaysInComment path := by
  rw [h.cover_eq]
  split <;> simp_all

theorem IsLabel.cover_cases {label : Text} (h : IsLabel label) (path : Text) (stream : Stream)
    (colour : Option Colour) :
    Print.cover ⟨stream, colour, comment (label ++ path)⟩ = .between ∨
      Print.cover ⟨stream, colour, comment (label ++ path)⟩ = .shown := by
  rw [h.cover_eq]
  split
  · exact .inl rfl
  · exact .inr rfl

theorem cover_emptyLine : emptyLine.cover = .between := rfl

theorem isHidden_run_prints {prints : List Print}
    (h : ∀ print ∈ prints, print.cover = .between ∨ print.cover = .shown) :
    (Cover.between.run (prints.flatMap fun print => print.render false ++ ['\n'])).isHidden = true ↔
      ∀ print ∈ prints, print.cover = .between := by
  induction prints with
  | nil => simp [Cover.run, Cover.isHidden]
  | cons print rest ih =>
    obtain ⟨hprint, hrest⟩ := List.forall_mem_cons.mp h
    have ih := ih hrest
    rw [List.flatMap_cons, Cover.run_append, List.forall_mem_cons, ← ih]
    change ((print.cover).run _).isHidden = true ↔ _
    rcases hprint with hbetween | hshown
    · rw [hbetween]
      simp
    · rw [hshown, Cover.run_shown]
      simp [Cover.isHidden]

/-- What a stream shows has no nodes exactly if none of its prints shows anything, where each of them
leaves the text between comments or shows something. -/
theorem parse_shown_iff {stream : Stream} {prints : List Print}
    (h : ∀ print ∈ prints, print.stream = stream → print.cover = .between ∨ print.cover = .shown) :
    parse (shown false stream prints) = .ok [] ↔
      ∀ print ∈ prints, print.stream = stream → print.cover = .between := by
  have hfilter : ∀ p : Print → Prop, (∀ print ∈ prints.filter (·.stream == stream), p print) ↔
      ∀ print ∈ prints, print.stream = stream → p print := by
    intro p
    simp only [List.mem_filter, beq_iff_eq, and_imp]
  rw [parse_eq_nil_iff, shown, isHidden_run_prints ((hfilter _).mpr h), hfilter]

/-! ## Sessions -/

theorem notMem_ofNat (n : Nat) : escape ∉ Text.ofNat n ∧ '*' ∉ Text.ofNat n := by
  have hdigit : ∀ c ∈ Text.ofNat n, c.isDigit = true := fun c hc =>
    Nat.isDigit_of_mem_toDigits (by decide) (by decide) hc
  exact ⟨fun h => absurd (hdigit _ h) (by decide), fun h => absurd (hdigit _ h) (by decide)⟩

theorem notMem_ofInt (n : Int) : escape ∉ Text.ofInt n ∧ '*' ∉ Text.ofInt n := by
  cases n with
  | ofNat n => exact notMem_ofNat n
  | negSucc n =>
    have h := notMem_ofNat (n + 1)
    simp only [Text.ofInt, List.mem_cons, not_or]
    exact ⟨⟨by decide, h.1⟩, by decide, h.2⟩

theorem notMem_summary (report : Report) : escape ∉ summary report ∧ '*' ∉ summary report := by
  have hunits := notMem_ofInt report.unitCount
  have hattributed := notMem_ofInt report.attributedCount
  have hfiles := notMem_ofNat report.files.length
  have hunresolved := notMem_ofNat report.unresolved.length
  simp only [summary, List.mem_append, not_or, hunits, hattributed, hfiles, hunresolved]
  decide

theorem stream_of_mem_coursePrints {settings : Settings} {course : Course} {print : Print}
    (h : print ∈ coursePrints settings course) : print.stream = .errors := by
  unfold coursePrints at h
  split at h
  · obtain ⟨entry, -, rfl⟩ := List.mem_map.mp h
    rfl
  · exact absurd h (by simp)

theorem staysInComment_summary (report : Report) : StaysInComment (summary report) := by
  obtain ⟨hescape, hstar⟩ := notMem_summary report
  have hplain := withoutCodes_before hescape []
  rw [List.append_nil, show withoutCodes [] = [] from rfl, List.append_nil] at hplain
  left
  rw [hplain, run_comment_of_notMem hstar]

/-- What a run prints as output when it is asked for neither fragments nor entries. -/
theorem output_prints_iff {settings : Settings} (hqueries : settings.printQueries = false)
    (hunmatched : settings.showUnmatched = false) {course : Course} {report : Report}
    (hreport : course.outcome = .ok report) (p : Print → Prop) (hempty : p emptyLine) :
    (∀ print ∈ (conclude settings course).prints, print.stream = .output → p print) ↔
      p ⟨.output, some .green, comment ("Analysing: " ++ settings.inputPath)⟩ ∧
      (∀ file ∈ report.files, p ⟨.output, some .blue, comment ("Origin file: " ++ file.1)⟩) ∧
      p (.plain .output (comment (summary report))) := by
  have hprints : (conclude settings course).prints =
      header settings ++ coursePrints settings course ++ reportPrints settings report := by
    unfold conclude
    rw [hreport]
  have hheader : (∀ print ∈ header settings, print.stream = .output → p print) ↔
      p ⟨.output, some .green, comment ("Analysing: " ++ settings.inputPath)⟩ := by
    rw [header, List.forall_mem_cons, List.forall_mem_singleton]
    exact ⟨fun h => h.1 rfl, fun h => ⟨fun _ => h, fun _ => hempty⟩⟩
  have hcourse : ∀ print ∈ coursePrints settings course, print.stream = .output → p print := by
    intro print hprint hstream
    rw [stream_of_mem_coursePrints hprint] at hstream
    exact absurd hstream (by decide)
  have hreport : (∀ print ∈ reportPrints settings report, print.stream = .output → p print) ↔
      (∀ file ∈ report.files, p ⟨.output, some .blue, comment ("Origin file: " ++ file.1)⟩) ∧
        p (.plain .output (comment (summary report))) := by
    have hfile : ∀ file, filePrints settings file =
        [⟨.output, some .blue, comment ("Origin file: " ++ file.1)⟩, emptyLine] := by
      intro file
      simp [filePrints, hqueries]
    have hnone : unmatchedPrints settings report = [] := by simp [unmatchedPrints, hunmatched]
    rw [reportPrints, hnone, List.append_nil]
    simp only [List.mem_append, or_imp, forall_and, List.mem_flatMap, hfile]
    constructor
    · intro h
      refine ⟨fun file hmem => ?_, h.2 _ List.mem_cons_self rfl⟩
      exact h.1 _ ⟨file, hmem, List.mem_cons_self⟩ rfl
    · rintro ⟨hfiles, hsummary⟩
      refine ⟨?_, fun print hprint _ => List.mem_singleton.mp hprint ▸ hsummary⟩
      rintro print ⟨file, hmem, hprint⟩ -
      rcases List.mem_cons.mp hprint with rfl | hprint
      · exact hfiles file hmem
      · exact List.mem_singleton.mp hprint ▸ hempty
  rw [hprints]
  simp only [List.mem_append, or_imp, forall_and]
  rw [hheader, hreport]
  exact ⟨fun h => ⟨h.1.1, h.2⟩, fun h => ⟨⟨h.1, hcourse⟩, h.2⟩⟩

theorem conclude_eq_success {settings : Settings} {course : Course}
    (h : (conclude settings course).status = success) : ∃ report, course.outcome = .ok report := by
  unfold conclude at h
  cases hreport : course.outcome with
  | ok report => exact ⟨report, rfl⟩
  | error fault =>
    simp only [hreport] at h
    split at h <;> exact absurd h (show failure ≠ success by decide)

/-! ## The law -/

/-- The output of a run that ends well, without fragments, entries and colours, has no nodes exactly if
the path of the input file and the paths of the report stay in their comments. A path does so if no end
of a comment is in it. -/
theorem output_is_hidden_iff (machine : Machine) (arguments : List Text) (settings : Settings)
    (hread : read machine.files arguments = .ok (.run settings))
    (hqueries : settings.printQueries = false) (hunmatched : settings.showUnmatched = false)
    (hstatus : (session machine arguments).status = success) :
    ∃ report, (machine.runWithGrep settings none id).outcome = .ok report ∧
      (parse (shown false .output (session machine arguments).prints) = .ok [] ↔
        ∀ path ∈ settings.inputPath :: report.files.map Prod.fst, StaysInComment path) ∧
      ∀ path, ¬ "*/".toList <:+: withoutCodes path → StaysInComment path := by
  have hsession : session machine arguments =
      conclude settings (machine.runWithGrep settings none id) := by
    unfold session
    rw [hread]
  rw [hsession] at hstatus ⊢
  obtain ⟨report, hreport⟩ := conclude_eq_success hstatus
  have hbetween := output_prints_iff hqueries hunmatched hreport
    (fun print => print.cover = .between) cover_emptyLine
  have hcases := output_prints_iff hqueries hunmatched hreport
    (fun print => print.cover = .between ∨ print.cover = .shown) (.inl cover_emptyLine)
  have hinput : IsLabel "Analysing: " := ⟨by decide, by decide⟩
  have horigin : IsLabel "Origin file: " := ⟨by decide, by decide⟩
  have hnone : IsLabel [] := ⟨by simp, by simp⟩
  have hsummary : (Print.plain .output (comment (summary report))).cover = .between :=
    (hnone.cover_iff (summary report) .output none).mpr (staysInComment_summary report)
  refine ⟨report, hreport, ?_, fun path => staysInComment_of_not_infix⟩
  rw [parse_shown_iff (hcases.mpr ⟨hinput.cover_cases _ _ _, fun file _ =>
    horigin.cover_cases _ _ _, .inl hsummary⟩), hbetween, hinput.cover_iff, List.forall_mem_cons,
    List.forall_mem_map]
  simp only [horigin.cover_iff, hsummary, and_true]

/-- A machine whose one file is a stylesheet with one rule, and whose searches all find `a.less`. -/
def singleMachine (path : Text) : Machine :=
  ⟨"/work", .ofContents [(path, "@media print\x7b.a\x7bb:c\x7d\x7d".toList.map fun c => UInt8.ofNat c.toNat)],
    fun _ => .exited 0 "a.less:.a\n" [], fun _ => none⟩

theorem output_is_hidden_iff_single_file :
    parse (shown false .output (session (singleMachine "x.css") ["--no-compile", "x.css"]).prints) =
      .ok [] := by
  have hstatus : (session (singleMachine "x.css") ["--no-compile", "x.css"]).status = success := by
    decide +kernel
  obtain ⟨report, hreport, hiff, hstays⟩ := output_is_hidden_iff (singleMachine "x.css")
    ["--no-compile", "x.css"] { inputPath := "x.css", precompile := false } rfl rfl rfl hstatus
  have hfiles : report.files.map Prod.fst = ["a.less"] := by
    have hmap : ((singleMachine "x.css").runWithGrep
        { inputPath := "x.css", precompile := false } none id).outcome.map
          (fun report => report.files.map Prod.fst) = .ok ["a.less"] := by
      decide +kernel
    rw [hreport] at hmap
    exact Except.ok.inj hmap
  rw [hiff, hfiles]
  intro path hpath
  apply hstays
  rcases List.mem_pair.mp hpath with rfl | rfl <;> decide

/-- A path that ends the comment it is named in: the rest of the path stands outside of any comment. -/
theorem output_shows_the_end_of_a_path :
    read (singleMachine "a*/x.css").files ["--no-compile", "a*/x.css"] =
        .ok (.run { inputPath := "a*/x.css", precompile := false }) ∧
      (session (singleMachine "a*/x.css") ["--no-compile", "a*/x.css"]).status = success ∧
      parse (shown false .output
        (session (singleMachine "a*/x.css") ["--no-compile", "a*/x.css"]).prints) ≠ .ok [] := by
  refine ⟨rfl, by decide +kernel, fun hnone => ?_⟩
  have hlength : ((parse (shown false .output (session (singleMachine "a*/x.css")
      ["--no-compile", "a*/x.css"]).prints)).map List.length) = .ok 1 := by
    decide +kernel
  rw [hnone] at hlength
  exact absurd hlength (by decide)

end StyleOrigin.Cli
