import StyleOrigin.Proofs.Cli.Output
import StyleOrigin.Proofs.Run.Conservation
import StyleOrigin.Proofs.Source.Loading

/-! # What the summary says

A session that comes to a report ends with one line of numbers. They are numbers of what is printed in
front of that line: the prints of the output fall into paragraphs with an empty line between them, one
for each origin file and, if they are asked for, one for each entry without an origin.

* `paragraphs`, `paragraphs_of_report`: the paragraphs of the output, and those of a report.
* `originComments`, `listedEntries`: the files that the output names, and the entries that it lists.
* `counts_of_collect_eq_ok`: each unit of a report is a rule of it or an entry.
* `printed_numbers_add_up`: a fault leaves the header and no summary, and a summary is right.
-/
set_option autoImplicit false

namespace StyleOrigin

namespace Cli

/-! ## Paragraphs -/

def Print.isEmptyLine (print : Print) : Bool :=
  print == emptyLine

/-- The paragraphs of the output: what is printed between empty lines. -/
def paragraphs (prints : List Print) : List (List Print) :=
  splitWhere Print.isEmptyLine (prints.filter (·.stream == .output))

/-- A print of the output, in a colour or in none, that is no empty line. -/
structure Print.IsLine (colour : Option Colour) (print : Print) : Prop where
  stream : print.stream = .output
  colour : print.colour = colour
  text : print.text ≠ []

theorem Print.IsLine.not_isEmptyLine {colour : Option Colour} {print : Print}
    (h : print.IsLine colour) : print.isEmptyLine = false := by
  rw [isEmptyLine, beq_eq_false_iff_ne]
  rintro rfl
  exact h.text rfl

theorem isEmptyLine_emptyLine : emptyLine.isEmptyLine = true :=
  beq_self_eq_true emptyLine

theorem comment_ne_nil (text : Text) : comment text ≠ [] :=
  List.append_ne_nil_of_right_ne_nil _ (by decide)

theorem ruleText_ne_nil (rule : Css.Rule) : rule.write ≠ [] :=
  List.append_ne_nil_of_right_ne_nil _ (List.cons_ne_nil _ _)

theorem fragmentText_ne_nil (fragment : Fragment) : fragment.write ≠ [] :=
  List.append_ne_nil_of_right_ne_nil _ (by decide)

theorem isLine_comment (colour : Option Colour) (text : Text) :
    Print.IsLine colour ⟨.output, colour, comment text⟩ :=
  ⟨rfl, rfl, comment_ne_nil text⟩

/-- What names a file. -/
def originLine (file : Text × List Fragment) : Print :=
  ⟨.output, some .blue, comment ("Origin file: " ++ file.1)⟩

/-- What is printed of the fragments of a file. -/
def fragmentLines (settings : Settings) (file : Text × List Fragment) : List Print :=
  if settings.printQueries then file.2.map fun fragment => .plain .output fragment.write else []

/-- What is printed about an entry. -/
def entryParagraph (settings : Settings) (entry : Resolution) : List Print :=
  (entryPrints settings entry).tail

theorem filePrints_eq (settings : Settings) (file : Text × List Fragment) :
    filePrints settings file = originLine file :: fragmentLines settings file ++ [emptyLine] := rfl

theorem entryPrints_eq (settings : Settings) (entry : Resolution) :
    entryPrints settings entry = emptyLine :: entryParagraph settings entry := rfl

theorem isLine_of_mem_fragmentLines {settings : Settings} {file : Text × List Fragment}
    {print : Print} (h : print ∈ fragmentLines settings file) : print.IsLine none := by
  unfold fragmentLines at h
  split at h
  · obtain ⟨fragment, -, rfl⟩ := List.mem_map.mp h
    exact ⟨rfl, rfl, fragmentText_ne_nil fragment⟩
  · exact absurd h List.not_mem_nil

theorem isLine_of_mem_entryParagraph {settings : Settings} {entry : Resolution} {print : Print}
    (h : print ∈ entryParagraph settings entry) : print.IsLine none := by
  rw [entryParagraph, entryPrints] at h
  simp only [List.cons_append, List.nil_append, List.tail_cons, List.mem_cons, List.mem_append,
    List.not_mem_nil, or_false] at h
  rcases h with rfl | (hcandidates | herror) | rfl
  · exact isLine_comment _ _
  · split at hcandidates
    · exact absurd hcandidates List.not_mem_nil
    · exact List.mem_singleton.mp hcandidates ▸ isLine_comment _ _
  · split at herror
    · exact List.mem_singleton.mp herror ▸ isLine_comment _ _
    · exact absurd herror List.not_mem_nil
  · exact ⟨rfl, rfl, ruleText_ne_nil _⟩

/-- The paragraphs of the entries that are listed, behind the one with the heading. -/
def unmatchedParagraphs (settings : Settings) (report : Report) : List (List Print) :=
  if settings.showUnmatched then
    [⟨.output, some .yellow, comment "Showing unmatched styles"⟩] ::
      report.unresolved.map (entryParagraph settings)
  else []

theorem conclude_of_report {settings : Settings} {course : Course} {report : Report}
    (h : course.outcome = .ok report) :
    conclude settings course = ⟨success,
      header settings ++ coursePrints settings course ++ reportPrints settings report,
      course.launches, none⟩ := by
  unfold conclude
  rw [h]

theorem stream_of_mem_filePrints {settings : Settings} {file : Text × List Fragment} {print : Print}
    (h : print ∈ filePrints settings file) : print.stream = .output := by
  rw [filePrints_eq, List.cons_append, List.mem_cons, List.mem_append, List.mem_singleton] at h
  rcases h with rfl | hline | rfl
  · rfl
  · exact (isLine_of_mem_fragmentLines hline).stream
  · rfl

theorem stream_of_mem_entryPrints {settings : Settings} {entry : Resolution} {print : Print}
    (h : print ∈ entryPrints settings entry) : print.stream = .output := by
  rw [entryPrints_eq, List.mem_cons] at h
  rcases h with rfl | hline
  · rfl
  · exact (isLine_of_mem_entryParagraph hline).stream

theorem stream_of_mem_unmatchedPrints {settings : Settings} {report : Report} {print : Print}
    (h : print ∈ unmatchedPrints settings report) : print.stream = .output := by
  unfold unmatchedPrints at h
  split at h
  · rw [List.cons_append, List.mem_cons, List.mem_append, List.mem_singleton] at h
    rcases h with rfl | hentries | rfl
    · rfl
    · obtain ⟨entry, -, hentry⟩ := List.mem_flatMap.mp hentries
      exact stream_of_mem_entryPrints hentry
    · rfl
  · exact absurd h List.not_mem_nil

theorem stream_of_mem_reportPrints {settings : Settings} {report : Report} {print : Print}
    (h : print ∈ reportPrints settings report) : print.stream = .output := by
  rw [reportPrints, List.mem_append, List.mem_append, List.mem_singleton] at h
  rcases h with (hfiles | hunmatched) | rfl
  · obtain ⟨file, -, hfile⟩ := List.mem_flatMap.mp hfiles
    exact stream_of_mem_filePrints hfile
  · exact stream_of_mem_unmatchedPrints hunmatched
  · rfl

theorem filter_coursePrints (settings : Settings) (course : Course) :
    (coursePrints settings course).filter (·.stream == .output) = [] := by
  rw [List.filter_eq_nil_iff]
  intro print hprint
  rw [stream_of_mem_coursePrints hprint]
  decide

/-- The output of a session that comes to a report. What is told about its course goes elsewhere. -/
theorem output_of_report {settings : Settings} {course : Course} {report : Report}
    (h : course.outcome = .ok report) :
    (conclude settings course).prints.filter (·.stream == .output) =
      header settings ++ reportPrints settings report := by
  have hheader : (header settings).filter (·.stream == .output) = header settings := rfl
  have hreport : (reportPrints settings report).filter (·.stream == .output) =
      reportPrints settings report := by
    rw [List.filter_eq_self]
    intro print hprint
    rw [stream_of_mem_reportPrints hprint]
    decide
  rw [conclude_of_report h, List.filter_append, List.filter_append, hheader,
    filter_coursePrints, hreport, List.append_nil]

theorem forall_not_isEmptyLine_comment (colour : Option Colour) (text : Text) :
    ∀ print ∈ [(⟨.output, colour, comment text⟩ : Print)], print.isEmptyLine = false :=
  List.forall_mem_singleton.mpr (isLine_comment colour text).not_isEmptyLine

/-- The entries that are listed and the summary are in paragraphs of their own. -/
theorem splitWhere_unmatchedPrints (settings : Settings) (report : Report) :
    splitWhere Print.isEmptyLine
        (unmatchedPrints settings report ++ [.plain .output (comment (summary report))]) =
      unmatchedParagraphs settings report ++ [[.plain .output (comment (summary report))]] := by
  have hempty := isEmptyLine_emptyLine
  have hentries : ∀ entry ∈ report.unresolved, ∀ print ∈ entryParagraph settings entry,
      print.isEmptyLine = false := fun entry _ print hprint =>
    (isLine_of_mem_entryParagraph hprint).not_isEmptyLine
  have hsummary := splitWhere_eq_singleton (forall_not_isEmptyLine_comment none (summary report))
  unfold unmatchedPrints unmatchedParagraphs
  split
  · rw [List.append_assoc, List.singleton_append, splitWhere_append_cons hempty]
    exact congrArg₂ _ (splitWhere_append_flatMap hempty hentries
      (forall_not_isEmptyLine_comment (some .yellow) "Showing unmatched styles")) hsummary
  · exact hsummary

/-- A session that comes to a report prints the header, the files, the entries it is asked for and the
summary, each in a paragraph of its own. -/
theorem paragraphs_of_report {settings : Settings} {course : Course} {report : Report}
    (h : course.outcome = .ok report) :
    paragraphs (conclude settings course).prints =
      [⟨.output, some .green, comment ("Analysing: " ++ settings.inputPath)⟩] ::
        (report.files.map (fun file => originLine file :: fragmentLines settings file) ++
          (unmatchedParagraphs settings report ++
            [[.plain .output (comment (summary report))]])) := by
  have hempty := isEmptyLine_emptyLine
  have hfiles : ∀ file ∈ report.files, ∀ print ∈ originLine file :: fragmentLines settings file,
      print.isEmptyLine = false := fun file _ => List.forall_mem_cons.mpr
    ⟨(isLine_comment _ _).not_isEmptyLine, fun print hprint =>
      (isLine_of_mem_fragmentLines hprint).not_isEmptyLine⟩
  have hall : header settings ++ reportPrints settings report =
      [⟨.output, some .green, comment ("Analysing: " ++ settings.inputPath)⟩] ++ emptyLine ::
        (report.files.flatMap (fun file =>
          originLine file :: fragmentLines settings file ++ [emptyLine]) ++
          (unmatchedPrints settings report ++ [.plain .output (comment (summary report))])) := by
    rw [← List.append_assoc (report.files.flatMap _)]
    rfl
  rw [paragraphs, output_of_report h, hall, splitWhere_append_cons hempty,
    splitWhere_eq_singleton (forall_not_isEmptyLine_comment _ _),
    splitWhere_flatMap_append hempty hfiles, splitWhere_unmatchedPrints]
  rfl

/-! ## Counting prints -/

/-- A comment with the name of an origin file. -/
def Print.namesOrigin (print : Print) : Bool :=
  print.colour == some .blue && "/* Origin file: ".toList.isPrefixOf print.text

/-- A comment with the place of an entry in the input file. -/
def Print.namesPlace (inputPath : Text) (print : Print) : Bool :=
  print.colour == none && ("/* " ++ inputPath ++ " Line: ").isPrefixOf print.text

/-- The number of origin files that the output names. It counts the comments that are printed for them, and
no text inside a rule or a path that looks like such a comment. -/
def originComments (prints : List Print) : Nat :=
  (prints.filter (·.stream == .output)).countP Print.namesOrigin

/-- The number of paragraphs that begin with the place of an entry. -/
def listedEntries (inputPath : Text) (prints : List Print) : Nat :=
  (paragraphs prints).countP fun paragraph => paragraph.head?.any (Print.namesPlace inputPath)

theorem not_namesOrigin_of_colour {print : Print} (h : print.colour ≠ some .blue) :
    ¬ print.namesOrigin = true := by
  simp [Print.namesOrigin, h]

theorem namesOrigin_originLine (file : Text × List Fragment) :
    (originLine file).namesOrigin = true := by
  rw [Print.namesOrigin, Bool.and_eq_true, List.isPrefixOf_iff_prefix]
  exact ⟨rfl, file.1 ++ " */", by simp [originLine, comment]⟩

theorem countP_filePrints (settings : Settings) (file : Text × List Fragment) :
    (filePrints settings file).countP Print.namesOrigin = 1 := by
  have hothers : ∀ print ∈ fragmentLines settings file ++ [emptyLine], ¬ print.namesOrigin = true := by
    intro print hprint
    apply not_namesOrigin_of_colour
    rw [List.mem_append, List.mem_singleton] at hprint
    rcases hprint with hline | rfl
    · simp [(isLine_of_mem_fragmentLines hline).colour]
    · decide
  rw [filePrints_eq, List.cons_append, List.countP_cons_of_pos (namesOrigin_originLine file),
    List.countP_eq_zero.mpr hothers]

theorem countP_unmatchedPrints (settings : Settings) (report : Report) :
    (unmatchedPrints settings report).countP Print.namesOrigin = 0 := by
  rw [List.countP_eq_zero]
  intro print hprint
  apply not_namesOrigin_of_colour
  unfold unmatchedPrints at hprint
  split at hprint
  · rw [List.cons_append, List.mem_cons, List.mem_append, List.mem_singleton] at hprint
    rcases hprint with rfl | hentries | rfl
    · simp
    · obtain ⟨entry, -, hentry⟩ := List.mem_flatMap.mp hentries
      rw [entryPrints_eq, List.mem_cons] at hentry
      rcases hentry with rfl | hline
      · decide
      · simp [(isLine_of_mem_entryParagraph hline).colour]
    · decide
  · exact absurd hprint List.not_mem_nil

/-- A report names its files, each of them once. -/
theorem originComments_of_report {settings : Settings} {course : Course} {report : Report}
    (h : course.outcome = .ok report) :
    originComments (conclude settings course).prints = report.files.length := by
  have hheader : (header settings).countP Print.namesOrigin = 0 := by
    rw [List.countP_eq_zero]
    intro print hprint
    apply not_namesOrigin_of_colour
    rcases List.mem_pair.mp hprint with rfl | rfl <;> simp [emptyLine, Print.plain]
  have hfiles : (report.files.flatMap (filePrints settings)).countP Print.namesOrigin =
      report.files.length := by
    rw [List.countP_flatMap, Function.comp_def]
    simp only [countP_filePrints, List.map_const', List.sum_replicate, smul_eq_mul, mul_one]
  have hsummary : [Print.plain .output (comment (summary report))].countP Print.namesOrigin = 0 := rfl
  rw [originComments, output_of_report h, List.countP_append, hheader, reportPrints, List.countP_append,
    List.countP_append, hfiles, countP_unmatchedPrints, hsummary]
  omega

theorem namesPlace_entryParagraph (settings : Settings) (entry : Resolution) :
    (entryParagraph settings entry).head?.any (Print.namesPlace settings.inputPath) = true := by
  have hplace : (entryParagraph settings entry).head? =
      some (.plain .output (comment (settings.inputPath ++ " Line: " ++
        Text.ofNat entry.unit.position.line ++ " (" ++ entry.status.toText ++ ")"))) := rfl
  rw [hplace, Option.any_some, Print.namesPlace, Bool.and_eq_true, List.isPrefixOf_iff_prefix]
  exact ⟨rfl, Text.ofNat entry.unit.position.line ++ " (" ++ entry.status.toText ++ ")" ++ " */",
    by simp [Print.plain, comment]⟩

/-- No letter of the word that stands in front of a line number is in a summary. -/
theorem notMem_summaryComment (report : Report) : 'L' ∉ comment (summary report) := by
  have hnat : ∀ n, 'L' ∉ Text.ofNat n := fun n h =>
    absurd (Nat.isDigit_of_mem_toDigits (by decide) (by decide) h) (by decide)
  have hint : ∀ n, 'L' ∉ Text.ofInt n := by
    intro n
    cases n with
    | ofNat n => exact hnat n
    | negSucc n => exact fun h => (List.mem_cons.mp h).elim (by decide) (hnat (n + 1))
  simp only [comment, summary, List.mem_append, not_or, hint, hnat]
  decide

theorem not_namesPlace_summary (inputPath : Text) (report : Report) :
    ¬ Print.namesPlace inputPath (.plain .output (comment (summary report))) = true := by
  rw [Print.namesPlace, Bool.and_eq_true, List.isPrefixOf_iff_prefix]
  rintro ⟨-, hbegins⟩
  have hletter : 'L' ∈ "/* ".toList ++ inputPath ++ " Line: ".toList :=
    List.mem_append_right _ (by decide)
  exact notMem_summaryComment report (hbegins.subset hletter)

theorem not_namesPlace_of_colour {print : Print} (h : print.colour ≠ none) (inputPath : Text) :
    ¬ print.namesPlace inputPath = true := by
  simp [Print.namesPlace, h]

/-- All entries without an origin are listed if they are asked for. -/
theorem listedEntries_of_report {settings : Settings} (hunmatched : settings.showUnmatched = true)
    {course : Course} {report : Report} (h : course.outcome = .ok report) :
    listedEntries settings.inputPath (conclude settings course).prints = report.unresolved.length := by
  let lists (paragraph : List Print) : Bool :=
    paragraph.head?.any (Print.namesPlace settings.inputPath)
  have hcoloured : ∀ (print : Print) (rest : List Print), print.colour ≠ none →
      ¬ lists (print :: rest) = true := fun print rest hcolour =>
    not_namesPlace_of_colour hcolour settings.inputPath
  have hfiles : (report.files.map fun file =>
      originLine file :: fragmentLines settings file).countP lists = 0 := by
    rw [List.countP_eq_zero, List.forall_mem_map]
    exact fun file _ => hcoloured _ _ (by simp [originLine])
  have hentries : (report.unresolved.map (entryParagraph settings)).countP lists =
      report.unresolved.length := by
    rw [← List.length_map (entryParagraph settings), List.countP_eq_length, List.forall_mem_map]
    exact fun entry _ => namesPlace_entryParagraph settings entry
  have hsummary : [[Print.plain .output (comment (summary report))]].countP lists = 0 :=
    List.countP_eq_zero.mpr (List.forall_mem_singleton.mpr
      (not_namesPlace_summary settings.inputPath report))
  have hheading : ∀ (colour : Colour) (text : Text),
      ¬ lists [⟨.output, some colour, comment text⟩] = true := fun colour text =>
    hcoloured _ _ (by simp)
  rw [listedEntries, paragraphs_of_report h, List.countP_cons_of_neg (hheading _ _),
    List.countP_append, hfiles, unmatchedParagraphs, if_pos hunmatched, List.cons_append,
    List.countP_cons_of_neg (hheading _ _), List.countP_append, hentries, hsummary]
  omega

end Cli

/-! ## Counting units -/

/-- Each resolution that arrives is a rule of the report or one of its entries. -/
theorem counts_of_collect_eq_ok {unitCount : Nat} {arrived : List Resolution} {report : Report}
    (h : collect unitCount arrived = .ok report) :
    report.unitCount = unitCount ∧ report.ruleCount + report.unresolved.length = unitCount := by
  obtain ⟨hcount, hreport⟩ := collect_eq_ok_iff.mp h
  have hledger := Ledger.places_addAll_perm .empty arrived
  rw [show Ledger.empty.places = [] from rfl, List.append_nil] at hledger
  have hplaces := ((Ledger.places_reportFor_perm hreport).trans hledger).length_eq
  rw [Report.length_places, List.length_map, hcount] at hplaces
  obtain ⟨found, -, rfl⟩ := Ledger.reportFor_eq_ok_iff.mp hreport
  exact ⟨rfl, hplaces⟩

namespace Cli

theorem summary_of_counts {report : Report} {units : Nat} (hunits : report.unitCount = units)
    (hadds : report.ruleCount + report.unresolved.length = units) :
    summary report = Text.ofNat units ++ " selector(s): " ++ Text.ofNat report.ruleCount
      ++ " attributed to " ++ Text.ofNat report.files.length ++ " file(s), "
      ++ Text.ofNat report.unresolved.length ++ " unresolved" := by
  have hattributed : report.attributedCount = report.ruleCount := by
    rw [Report.attributedCount, hunits]
    omega
  rw [summary, hunits, hattributed]
  rfl

/-- Behind the loading of the stylesheet no run fails for want of it. -/
theorem outcome_resolveUnits_ne_load (machine : Machine) (settings : Settings) (provider : Provider)
    (deliver : List Resolution → List Resolution) (units : List StyleUnit) (cause : LoadFault) :
    (machine.resolveUnits settings provider deliver units).outcome ≠ .error (.load cause) := by
  intro h
  cases hresolver : machine.resolverOf settings provider with
  | error fault => simp [Machine.resolveUnits, hresolver] at h
  | ok resolver =>
    cases hall : (resolver.resolveAll provider units).outcome with
    | error fault => simp [Machine.resolveUnits, hresolver, hall] at h
    | ok resolutions =>
      simp only [Machine.resolveUnits, hresolver, Recorded.outcome_bind, hall, Recorded.outcome_pure,
        collect] at h
      split at h
      · cases hreport : (Ledger.empty.addAll (deliver resolutions)).reportFor units.length <;>
          simp [hreport, Except.mapError] at h
      · simp at h

/-- Searches are made for the units of a stylesheet, and without a stylesheet there are none. -/
theorem course_of_load_fault {machine : Machine} {settings : Settings} {cause : LoadFault}
    (h : (machine.runWithGrep settings none id).outcome = .error (.load cause)) :
    (machine.runWithGrep settings none id).searches = [] ∧
      (machine.runWithGrep settings none id).launches = (machine.load settings).launches := by
  rw [Machine.runWithGrep, Machine.run, Machine.input] at h ⊢
  cases hload : (machine.load settings).outcome with
  | error fault => simp [hload]
  | ok text =>
    cases hnodes : Css.parse text with
    | error fault => simp [hload, hnodes] at h
    | ok nodes =>
      simp only [Recorded.outcome_bind, hload, hnodes] at h
      exact absurd h (outcome_resolveUnits_ne_load _ _ _ _ _ _)

theorem launches_conclude (settings : Settings) (course : Course) :
    (conclude settings course).launches = course.launches := by
  unfold conclude
  split
  · rfl
  · split <;> rfl

/-- A text for the other stream does not show. -/
theorem shown_of_fault (colours : Bool) (settings : Settings) (course : Course) (message : Text) :
    shown colours .output
        (header settings ++ coursePrints settings course ++ [errorPrint message]) =
      shown colours .output (header settings) := by
  rw [shown, List.filter_append, List.filter_append, filter_coursePrints, List.append_nil]
  rfl

/-! ## The law -/

/-- A session with a fault that is reported ends with status one. Its output is the header, and where the
stylesheet was not had, nothing but the preprocessor has been launched. A session that comes to a report
ends with status zero, and its last line has four numbers: the selectors are those attributed and those
unresolved, the attributed ones are the rules of the fragments, the files are those named in front of
their fragments, and the unresolved selectors are those listed if a list is asked for. -/
theorem printed_numbers_add_up (machine : Machine) (arguments : List Text) (settings : Settings)
    (hread : read machine.files arguments = .ok (.run settings)) :
    (∀ fault, (machine.runWithGrep settings none id).outcome = .error fault →
      fault.isReported = true →
      (session machine arguments).status = failure ∧
      (session machine arguments).breakdown = none ∧
      (∀ colours, shown colours .output (session machine arguments).prints =
        shown colours .output (header settings)) ∧
      ∀ cause, fault = .load cause →
        (machine.runWithGrep settings none id).searches = [] ∧
        ((session machine arguments).launches = [] ∨
          ∃ words, CommandWords.split settings.preprocessor = .ok words ∧
            (session machine arguments).launches =
              [⟨words ++ [settings.lookedUp], settings.preprocessLimit, none⟩])) ∧
    ∀ report, (machine.runWithGrep settings none id).outcome = .ok report →
      (session machine arguments).status = success ∧
      (session machine arguments).breakdown = none ∧
      ∃ units attributed files unresolved : Nat,
        (session machine arguments).prints.getLast? = some (.plain .output (comment (
          Text.ofNat units ++ " selector(s): " ++ Text.ofNat attributed ++ " attributed to "
            ++ Text.ofNat files ++ " file(s), " ++ Text.ofNat unresolved ++ " unresolved"))) ∧
        attributed + unresolved = units ∧
        files = originComments (session machine arguments).prints ∧
        attributed = report.ruleCount ∧
        (settings.showUnmatched = true →
          unresolved = listedEntries settings.inputPath (session machine arguments).prints) := by
  rw [session_eq_conclude hread]
  constructor
  · intro fault hfault hreported
    obtain ⟨hstatus, hprints, hbreakdown⟩ := conclude_of_reported hfault hreported
    refine ⟨hstatus, hbreakdown, fun colours => ?_, ?_⟩
    · rw [hprints, shown_of_fault]
    · rintro cause rfl
      obtain ⟨hsearches, hlaunches⟩ := course_of_load_fault hfault
      rw [launches_conclude, hlaunches]
      exact ⟨hsearches, machine.launches_load settings⟩
  · intro report hreport
    obtain ⟨nodes, -, resolutions, -, hcollect⟩ := exists_runStages_of_outcome_eq_ok hreport
    obtain ⟨hunits, hadds⟩ := counts_of_collect_eq_ok hcollect
    rw [originComments_of_report hreport, conclude_of_report hreport]
    refine ⟨rfl, rfl, _, _, _, _, ?_, hadds, rfl, rfl, fun hunmatched => ?_⟩
    · rw [← summary_of_counts hunits hadds, reportPrints, ← List.append_assoc, List.getLast?_concat]
    · rw [← listedEntries_of_report hunmatched hreport, conclude_of_report hreport]

/-- A machine with a stylesheet of two selectors: the first is found in one file, and the search for the
second fails. -/
def mixedMachine : Machine :=
  ⟨"/work", .ofContents [("x.css", "@media print\x7b.a,.b\x7b\x7d\x7d".toList.map fun c =>
      UInt8.ofNat c.toNat)],
    fun command =>
      if command.getLast? = some ".a" then .exited 0 "a.less:.a\n" [] else .exited 128 [] "fatal",
    fun _ => none⟩

def mixedArguments : List Text :=
  ["--no-compile", "--show-unmatched", "x.css"]

theorem printed_numbers_add_up_mixed :
    (session mixedMachine mixedArguments).status = success ∧
      ∃ units attributed : Nat, attributed + 1 = units ∧
        (session mixedMachine mixedArguments).prints.getLast? = some (.plain .output (comment (
          Text.ofNat units ++ " selector(s): " ++ Text.ofNat attributed ++ " attributed to "
            ++ Text.ofNat 1 ++ " file(s), " ++ Text.ofNat 1 ++ " unresolved"))) := by
  have hread : read mixedMachine.files mixedArguments =
      .ok (.run { inputPath := "x.css", precompile := false, showUnmatched := true }) := rfl
  have hcounts : (mixedMachine.runWithGrep
      { inputPath := "x.css", precompile := false, showUnmatched := true } none id).outcome.map
        (fun report => (report.files.length, report.unresolved.length)) = .ok (1, 1) := by
    decide +kernel
  obtain ⟨report, hreport, hboth⟩ := exists_of_map_eq_ok hcounts
  obtain ⟨hfileCount, hentryCount⟩ := Prod.mk.inj hboth
  obtain ⟨hstatus, -, units, attributed, files, unresolved, hlast, hadds, hfiles, -, hlisted⟩ :=
    (printed_numbers_add_up mixedMachine mixedArguments _ hread).2 report hreport
  rw [session_eq_conclude hread, originComments_of_report hreport, hfileCount] at hfiles
  rw [session_eq_conclude hread, listedEntries_of_report rfl hreport, hentryCount] at hlisted
  obtain rfl := hfiles
  obtain rfl := hlisted rfl
  exact ⟨hstatus, units, attributed, hadds, hlast⟩

end Cli
end StyleOrigin
