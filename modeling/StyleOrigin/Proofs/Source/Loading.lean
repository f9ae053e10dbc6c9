import StyleOrigin.Cli.Session
import StyleOrigin.Proofs.Source.CommandWords
import StyleOrigin.Proofs.Source.Lookup

/-! # What keeps a stylesheet from being had

The stylesheet is read from its file or printed by the preprocessor. Most of what can go wrong is a fault
of the input file or of the preprocessor, which the program reports. Four things are neither: a path that
is too long to be looked up, a command line that cannot be split, one with the character U+0000, and what
comes up in a launch that has no outcome, as where something is printed that is not UTF-8.

* `LoadFault.kind?`: the two kinds of fault that are reported.
* `FileTree.ReadsAs`, `Machine.ExpandsAs`: what comes of reading a file, and of the preprocessor.
* `Machine.load_is_settled_iff`: when there is a text, or else a fault of the two kinds.
* `Machine.load_prints_iff`: when the text is what the preprocessor printed.
* `load_reports_iff`: both laws, and what a session makes of a fault.
* `load_breaks_off_at_open_quotation`: a quotation mark too many in the command of the preprocessor.
-/
set_option autoImplicit false

namespace StyleOrigin

/-! ## Kinds of fault -/

/-- What a fault that is reported is a fault of. -/
inductive FaultKind
  | inputFile
  | preprocessor
deriving DecidableEq

namespace LoadFault

def kind? : LoadFault → Option FaultKind
  | missing _ | unreadable _ _ => some .inputFile
  | timedOut _ _ | notStarted _ _ | exited _ _ _ => some .preprocessor
  | tooLong _ | badCommand _ | nullInCommand | mishap _ => none

theorem isReported_eq_isSome (fault : LoadFault) : fault.isReported = fault.kind?.isSome := by
  cases fault <;> rfl

end LoadFault

/-! ## Reading and expanding -/

/-- There is a file at the end of a path. -/
def FileTree.HoldsFile (tree : FileTree) (path : Text) : Prop :=
  ∃ bytes, tree.file? path = .ok (some bytes)

theorem FileTree.not_isTooLong_of_file {tree : FileTree} {path : Text} {found : Option (List UInt8)}
    (h : tree.file? path = .ok found) : ¬ tree.IsTooLong path := by
  rw [← exists_file_eq_error_iff, h]
  simp

/-- What comes of reading the file at the end of a path. -/
inductive FileTree.ReadsAs (tree : FileTree) (path : Text) : Except LoadFault Text → Prop
  | tooLong (fault : TooLong) (long : tree.IsTooLong path) : ReadsAs tree path (.error (.tooLong fault))
  | failed {fault : LoadFault} (short : ¬ tree.IsTooLong path) (kind : fault.kind? = some .inputFile) :
      ReadsAs tree path (.error fault)
  | text (text : Text) (short : ¬ tree.IsTooLong path) : ReadsAs tree path (.ok text)

theorem FileTree.readsAs_readText (tree : FileTree) (path : Text) :
    tree.ReadsAs (Path.compact path) (tree.readText path) := by
  unfold readText
  cases hfile : tree.file? (Path.compact path) with
  | error fault =>
    simp only [hfile]
    exact .tooLong fault (exists_file_eq_error_iff.mp ⟨fault, hfile⟩)
  | ok found =>
    have hshort := not_isTooLong_of_file hfile
    cases found with
    | none =>
      simp only [hfile]
      exact .failed hshort rfl
    | some bytes =>
      simp only [hfile]
      cases Utf8.decode bytes with
      | error fault => exact .failed hshort rfl
      | ok text => exact .text _ hshort

/-- What comes of the preprocessor, and what is launched. Before its end is read, the path must be one that can
be looked up, a file must be there, and the command must be one that can be split and launched; then
nothing may come up in the launch. -/
inductive Machine.ExpandsAs (machine : Machine) (path preprocessor : Text) (limit : Seconds) :
    Except LoadFault Text → List Launch → Prop
  | tooLong (fault : FileTree.TooLong) (long : machine.files.IsTooLong path) :
      ExpandsAs machine path preprocessor limit (.error (.tooLong fault)) []
  | missing (short : ¬ machine.files.IsTooLong path) (absent : ¬ machine.files.HoldsFile path) :
      ExpandsAs machine path preprocessor limit (.error (.missing path)) []
  | unsplit (fault : CommandWords.Fault) (there : machine.files.HoldsFile path)
      (incomplete : ¬ CommandWords.Complete preprocessor) :
      ExpandsAs machine path preprocessor limit (.error (.badCommand fault)) []
  | unlaunched {words : List Text} (there : machine.files.HoldsFile path)
      (splits : CommandWords.split preprocessor = .ok words) (null : '\x00' ∈ preprocessor) :
      ExpandsAs machine path preprocessor limit (.error .nullInCommand) []
  | brokenOff {words : List Text} {fault : Mishap} (there : machine.files.HoldsFile path)
      (splits : CommandWords.split preprocessor = .ok words) (null : '\x00' ∉ preprocessor)
      (comesUp : machine.mishaps ⟨words ++ [path], limit, none⟩ = some fault) :
      ExpandsAs machine path preprocessor limit (.error (.mishap fault)) [⟨words ++ [path], limit, none⟩]
  | ended {words : List Text} (there : machine.files.HoldsFile path)
      (splits : CommandWords.split preprocessor = .ok words) (null : '\x00' ∉ preprocessor)
      (smooth : machine.mishaps ⟨words ++ [path], limit, none⟩ = none) :
      ExpandsAs machine path preprocessor limit
        (readExpansion (words ++ [path]) limit (machine.processes (words ++ [path])))
        [⟨words ++ [path], limit, none⟩]

/-- No file is at the end of a path with U+0000. -/
theorem FileTree.HoldsFile.null_notMem {tree : FileTree} {path : Text} (h : tree.HoldsFile path) :
    '\x00' ∉ path := by
  obtain ⟨bytes, hbytes⟩ := h
  intro hnull
  simp [file?, find, hnull, Except.map] at hbytes

section Compile
variable (machine : Machine) {command : List Text} (limit : Seconds)

theorem Machine.compile_of_null (h : ∃ word ∈ command, '\x00' ∈ word) :
    (machine.compile command limit).outcome = .error .nullInCommand ∧
      (machine.compile command limit).launches = [] := by
  simp only [compile, if_pos h]
  exact ⟨rfl, rfl⟩

theorem Machine.compile_of_not_null (h : ¬∃ word ∈ command, '\x00' ∈ word) :
    (machine.compile command limit).outcome =
        (match machine.mishaps ⟨command, limit, none⟩ with
          | some fault => .error (.mishap fault)
          | none => readExpansion command limit (machine.processes command)) ∧
      (machine.compile command limit).launches = [⟨command, limit, none⟩] := by
  simp only [compile, if_neg h]
  exact ⟨rfl, rfl⟩

end Compile

theorem Machine.expandsAs_expand (machine : Machine) (path preprocessor : Text) (limit : Seconds) :
    machine.ExpandsAs (Path.compact path) preprocessor limit
      (machine.expand path preprocessor limit).outcome
      (machine.expand path preprocessor limit).launches := by
  unfold expand
  cases hfile : machine.files.file? (Path.compact path) with
  | error fault =>
    simp only [hfile]
    exact .tooLong fault (FileTree.exists_file_eq_error_iff.mp ⟨fault, hfile⟩)
  | ok found =>
    cases found with
    | none =>
      simp only [hfile]
      refine .missing (FileTree.not_isTooLong_of_file hfile) ?_
      rintro ⟨bytes, hbytes⟩
      exact absurd (hfile.symm.trans hbytes) (by simp)
    | some bytes =>
      have hthere : machine.files.HoldsFile (Path.compact path) := ⟨bytes, hfile⟩
      simp only [hfile]
      cases hsplit : CommandWords.split preprocessor with
      | error fault =>
        refine .unsplit fault hthere ?_
        rw [← CommandWords.exists_split_iff, hsplit]
        simp
      | ok words =>
        have hnull : (∃ word ∈ words ++ [Path.compact path], '\x00' ∈ word) ↔ '\x00' ∈ preprocessor := by
          rw [← CommandWords.exists_mem_split_iff CommandWords.isOrdinary_null hsplit]
          simp [or_and_right, exists_or, hthere.null_notMem]
        by_cases hmem : '\x00' ∈ preprocessor
        · obtain ⟨houtcome, hlaunches⟩ := machine.compile_of_null limit (hnull.mpr hmem)
          rw [houtcome, hlaunches]
          exact .unlaunched hthere hsplit hmem
        · obtain ⟨houtcome, hlaunches⟩ := machine.compile_of_not_null limit (mt hnull.mp hmem)
          rw [houtcome, hlaunches]
          cases hmishap : machine.mishaps ⟨words ++ [Path.compact path], limit, none⟩ with
          | some fault => exact .brokenOff hthere hsplit hmem hmishap
          | none => exact .ended hthere hsplit hmem hmishap

theorem kind_readExpansion {command : List Text} {limit : Seconds} {outcome : Outcome}
    {fault : LoadFault} (h : readExpansion command limit outcome = .error fault) :
    fault.kind? = some .preprocessor := by
  cases outcome with
  | timedOut => rw [← Except.error.inj h]; rfl
  | notStarted reason => rw [← Except.error.inj h]; rfl
  | exited status output errors =>
    simp only [readExpansion] at h
    split at h
    · exact absurd h (by simp)
    · rw [← Except.error.inj h]; rfl

theorem readExpansion_eq_ok_iff {command : List Text} {limit : Seconds} {outcome : Outcome}
    {text : Text} :
    readExpansion command limit outcome = .ok text ↔ ∃ errors, outcome = .exited 0 text errors := by
  cases outcome with
  | timedOut => simp [readExpansion]
  | notStarted reason => simp [readExpansion]
  | exited status output errors => by_cases hzero : status = 0 <;> simp [readExpansion, hzero]

/-! ## Loading -/

/-- There is a text, or else a fault of one of the two kinds. -/
def IsSettled (outcome : Except LoadFault Text) : Prop :=
  ∀ fault, outcome = .error fault → fault.kind?.isSome = true

theorem isSettled_error_iff {fault : LoadFault} :
    IsSettled (.error fault) ↔ fault.kind?.isSome = true := by
  simp [IsSettled]

theorem isSettled_iff {outcome : Except LoadFault Text} :
    IsSettled outcome ↔ (∃ text, outcome = .ok text) ∨
      ∃ fault kind, outcome = .error fault ∧ fault.kind? = some kind := by
  cases outcome with
  | ok text => simp [IsSettled]
  | error fault => simp [IsSettled, Option.isSome_iff_exists]

theorem isSettled_readExpansion (command : List Text) (limit : Seconds) (outcome : Outcome) :
    IsSettled (readExpansion command limit outcome) := by
  intro fault hfault
  rw [kind_readExpansion hfault]
  rfl

/-- The text that there is was printed by a process that was launched for it, whatever its status. -/
def Loading.Prints (loading : Loading) (processes : Processes) (text : Text) : Prop :=
  loading.outcome = .ok text ∧
    ∃ launch ∈ loading.launches, ∃ status errors, processes launch.command = .exited status text errors

/-- The path of the input file as it is looked up. -/
def Settings.lookedUp (settings : Settings) : Text :=
  Path.compact settings.inputPath

theorem FileTree.HoldsFile.not_isTooLong {tree : FileTree} {path : Text} (h : tree.HoldsFile path) :
    ¬ tree.IsTooLong path := by
  obtain ⟨bytes, hbytes⟩ := h
  exact not_isTooLong_of_file hbytes

section Load
variable {machine : Machine} {path preprocessor : Text} {limit : Seconds}
  {outcome : Except LoadFault Text} {launches : List Launch}

theorem FileTree.ReadsAs.isSettled_iff {tree : FileTree} (h : tree.ReadsAs path outcome) :
    IsSettled outcome ↔ ¬ tree.IsTooLong path := by
  cases h with
  | tooLong fault long => simp [isSettled_error_iff, LoadFault.kind?, long]
  | failed short kind => simp [isSettled_error_iff, kind, short]
  | text text short => simp [IsSettled, short]

theorem Machine.ExpandsAs.isSettled_iff
    (h : machine.ExpandsAs path preprocessor limit outcome launches) :
    IsSettled outcome ↔ ¬ machine.files.IsTooLong path ∧
      (machine.files.HoldsFile path → CommandWords.Complete preprocessor ∧ '\x00' ∉ preprocessor ∧
        ∀ words, CommandWords.split preprocessor = .ok words →
          machine.mishaps ⟨words ++ [path], limit, none⟩ = none) := by
  have hcomplete : ∀ {words : List Text}, CommandWords.split preprocessor = .ok words →
      CommandWords.Complete preprocessor := fun hsplit => CommandWords.exists_split_iff.mp ⟨_, hsplit⟩
  cases h with
  | tooLong fault long => simp [isSettled_error_iff, LoadFault.kind?, long]
  | missing short absent => simp [isSettled_error_iff, LoadFault.kind?, short, absent]
  | unsplit fault there incomplete =>
    simp [isSettled_error_iff, LoadFault.kind?, there, incomplete]
  | unlaunched there splits null => simp [isSettled_error_iff, LoadFault.kind?, there, null]
  | brokenOff there splits null comesUp =>
    simp [isSettled_error_iff, LoadFault.kind?, there, splits, comesUp]
  | ended there splits null smooth =>
    simp [isSettled_readExpansion, there, there.not_isTooLong, hcomplete splits, null, splits, smooth]

theorem Machine.ExpandsAs.prints_iff
    (h : machine.ExpandsAs path preprocessor limit outcome launches) (text : Text) :
    (outcome = .ok text ∧
        ∃ launch ∈ launches, ∃ status errors,
          machine.processes launch.command = .exited status text errors) ↔
      machine.files.HoldsFile path ∧ '\x00' ∉ preprocessor ∧
        ∃ words errors, CommandWords.split preprocessor = .ok words ∧
          machine.mishaps ⟨words ++ [path], limit, none⟩ = none ∧
          machine.processes (words ++ [path]) = .exited 0 text errors := by
  cases h with
  | tooLong fault long =>
    have habsent : ¬ machine.files.HoldsFile path := fun there => there.not_isTooLong long
    simp [habsent]
  | missing short absent => simp [absent]
  | unsplit fault there incomplete =>
    have hunsplit : ∀ words, CommandWords.split preprocessor ≠ .ok words := fun words hsplit =>
      incomplete (CommandWords.exists_split_iff.mp ⟨words, hsplit⟩)
    simp [hunsplit]
  | unlaunched there splits null => simp [null]
  | brokenOff there splits null comesUp => simp [splits, comesUp]
  | @ended words there splits null smooth =>
    have hread : ∀ errors, machine.processes (words ++ [path]) = .exited 0 text errors →
        readExpansion (words ++ [path]) limit (machine.processes (words ++ [path])) = .ok text :=
      fun errors hexited => readExpansion_eq_ok_iff.mpr ⟨errors, hexited⟩
    constructor
    · rintro ⟨hok, -⟩
      obtain ⟨errors, hexited⟩ := readExpansion_eq_ok_iff.mp hok
      exact ⟨there, null, words, errors, splits, smooth, hexited⟩
    · rintro ⟨-, -, words', errors, hsplit, -, hexited⟩
      obtain rfl : words = words' := Except.ok.inj (splits.symm.trans hsplit)
      exact ⟨hread errors hexited, _, List.mem_singleton_self _, 0, errors, hexited⟩

/-- Nothing but the preprocessor is launched, and not more than once. -/
theorem Machine.ExpandsAs.launches_cases
    (h : machine.ExpandsAs path preprocessor limit outcome launches) :
    launches = [] ∨ ∃ words, CommandWords.split preprocessor = .ok words ∧
      launches = [⟨words ++ [path], limit, none⟩] := by
  cases h with
  | tooLong | missing | unsplit | unlaunched => exact .inl rfl
  | brokenOff there splits | ended there splits => exact .inr ⟨_, splits, rfl⟩

end Load

section Settled
variable (machine : Machine) (settings : Settings)

theorem Machine.load_is_settled_iff :
    IsSettled (machine.load settings).outcome ↔
      ¬ machine.files.IsTooLong settings.lookedUp ∧
        (settings.precompile = true → machine.files.HoldsFile settings.lookedUp →
          CommandWords.Complete settings.preprocessor ∧ '\x00' ∉ settings.preprocessor ∧
          ∀ words, CommandWords.split settings.preprocessor = .ok words →
            machine.mishaps ⟨words ++ [settings.lookedUp], settings.preprocessLimit, none⟩ = none) := by
  unfold load
  split
  · rename_i hprecompile
    have hexpands := machine.expandsAs_expand settings.inputPath settings.preprocessor
      settings.preprocessLimit
    rw [hexpands.isSettled_iff]
    simp only [hprecompile, true_implies, Settings.lookedUp]
  · rename_i hprecompile
    rw [Recorded.outcome_pure, (machine.files.readsAs_readText settings.inputPath).isSettled_iff]
    simp [hprecompile, Settings.lookedUp]

theorem Machine.load_prints_iff (text : Text) :
    (machine.load settings).Prints machine.processes text ↔
      settings.precompile = true ∧ machine.files.HoldsFile settings.lookedUp ∧
        '\x00' ∉ settings.preprocessor ∧
        ∃ words errors, CommandWords.split settings.preprocessor = .ok words ∧
          machine.mishaps ⟨words ++ [settings.lookedUp], settings.preprocessLimit, none⟩ = none ∧
          machine.processes (words ++ [settings.lookedUp]) = .exited 0 text errors := by
  unfold load
  split
  · rename_i hprecompile
    have hexpands := machine.expandsAs_expand settings.inputPath settings.preprocessor
      settings.preprocessLimit
    rw [Loading.Prints, hexpands.prints_iff]
    simp only [hprecompile, true_and, Settings.lookedUp]
  · rename_i hprecompile
    simp [Loading.Prints, hprecompile]

theorem Machine.launches_load :
    (machine.load settings).launches = [] ∨
      ∃ words, CommandWords.split settings.preprocessor = .ok words ∧
        (machine.load settings).launches =
          [⟨words ++ [settings.lookedUp], settings.preprocessLimit, none⟩] := by
  unfold load
  split
  · exact (machine.expandsAs_expand settings.inputPath settings.preprocessor
      settings.preprocessLimit).launches_cases
  · exact .inl rfl

end Settled

/-! ## Sessions -/

theorem outcome_runWithGrep_of_fault {machine : Machine} {settings : Settings} {fault : LoadFault}
    (h : (machine.load settings).outcome = .error fault) :
    (machine.runWithGrep settings none id).outcome = .error (.load fault) := by
  simp [Machine.runWithGrep, Machine.run, Machine.input, h]

namespace Cli

theorem session_eq_conclude {machine : Machine} {arguments : List Text} {settings : Settings}
    (h : read machine.files arguments = .ok (.run settings)) :
    session machine arguments = conclude settings (machine.runWithGrep settings none id) := by
  unfold session
  rw [h]

section Conclude
variable {settings : Settings} {course : Course} {fault : RunFault}

theorem conclude_of_reported (h : course.outcome = .error fault) (hreported : fault.isReported = true) :
    (conclude settings course).status = failure ∧
      (conclude settings course).prints =
        header settings ++ coursePrints settings course ++ [errorPrint fault.message] ∧
      (conclude settings course).breakdown = none := by
  unfold conclude
  rw [h]
  simp only [hreported, if_true]
  exact ⟨trivial, trivial, trivial⟩

theorem conclude_of_unreported (h : course.outcome = .error fault)
    (hreported : fault.isReported = false) :
    (conclude settings course).status = failure ∧
      (conclude settings course).prints = header settings ++ coursePrints settings course ∧
      (conclude settings course).breakdown = some (.run fault) := by
  unfold conclude
  rw [h]
  simp only [hreported, Bool.false_eq_true, if_false]
  exact ⟨trivial, trivial, trivial⟩

end Conclude
end Cli

/-! ## The law -/

/-- A stylesheet is had, or there is a fault of the input file or of the preprocessor, unless the path is too
long to be looked up, the command of the preprocessor is left open or holds U+0000, or something comes up
in its launch, as where it prints what is not UTF-8. The text that is had is what the preprocessor printed
exactly if it is asked for, the file is there, and the process is launched and exits with status zero,
with nothing coming up. A session reports a fault of the two kinds in words, and breaks down at any
other. -/
theorem load_reports_iff (machine : Machine) (settings : Settings) :
    ((∃ text, (machine.load settings).outcome = .ok text) ∨
        (∃ fault kind, (machine.load settings).outcome = .error fault ∧ fault.kind? = some kind) ↔
      ¬ machine.files.IsTooLong settings.lookedUp ∧
        (settings.precompile = true → machine.files.HoldsFile settings.lookedUp →
          CommandWords.Complete settings.preprocessor ∧ '\x00' ∉ settings.preprocessor ∧
          ∀ words, CommandWords.split settings.preprocessor = .ok words →
            machine.mishaps ⟨words ++ [settings.lookedUp], settings.preprocessLimit, none⟩ = none)) ∧
    (∀ text, (machine.load settings).Prints machine.processes text ↔
      settings.precompile = true ∧ machine.files.HoldsFile settings.lookedUp ∧
        '\x00' ∉ settings.preprocessor ∧
        ∃ words errors, CommandWords.split settings.preprocessor = .ok words ∧
          machine.mishaps ⟨words ++ [settings.lookedUp], settings.preprocessLimit, none⟩ = none ∧
          machine.processes (words ++ [settings.lookedUp]) = .exited 0 text errors) ∧
    ∀ arguments fault, Cli.read machine.files arguments = .ok (.run settings) →
      (machine.load settings).outcome = .error fault →
      (Cli.session machine arguments).status = Cli.failure ∧
        (fault.kind?.isSome = true → (Cli.session machine arguments).breakdown = none ∧
          (Cli.session machine arguments).prints.getLast? = some (Cli.errorPrint fault.message)) ∧
        (fault.kind? = none →
          (Cli.session machine arguments).breakdown = some (.run (.load fault))) := by
  refine ⟨?_, machine.load_prints_iff settings, fun arguments fault hread hfault => ?_⟩
  · rw [← isSettled_iff]
    exact machine.load_is_settled_iff settings
  · have houtcome : (machine.runWithGrep settings none id).outcome = .error (.load fault) :=
      outcome_runWithGrep_of_fault hfault
    have hreported : (RunFault.load fault).isReported = fault.kind?.isSome :=
      fault.isReported_eq_isSome
    rw [Cli.session_eq_conclude hread]
    cases hkind : fault.kind? with
    | none =>
      rw [hkind] at hreported
      obtain ⟨hstatus, -, hbreakdown⟩ := Cli.conclude_of_unreported houtcome hreported
      exact ⟨hstatus, fun h => absurd h (by simp), fun _ => hbreakdown⟩
    | some kind =>
      rw [hkind] at hreported
      obtain ⟨hstatus, hprints, hbreakdown⟩ := Cli.conclude_of_reported houtcome hreported
      refine ⟨hstatus, fun _ => ⟨hbreakdown, ?_⟩, fun h => absurd h (by simp)⟩
      rw [hprints, List.getLast?_concat]
      rfl

/-- A machine with one file, and with processes that all end in one way. -/
def expandingMachine (outcome : Outcome) : Machine :=
  ⟨"/work", .ofContents [("a.less", [])], fun _ => outcome, fun _ => none⟩

/-- A preprocessor that fails is reported. -/
theorem load_reports_iff_failing_preprocessor :
    let machine := expandingMachine (.exited 3 "half" "oops")
    Cli.read machine.files ["a.less"] = .ok (.run { inputPath := "a.less" }) ∧
      (machine.load { inputPath := "a.less" }).outcome =
        .error (.exited ["lessc", "a.less"] 3 "oops") ∧
      (Cli.session machine ["a.less"]).status = Cli.failure ∧
      (Cli.session machine ["a.less"]).breakdown = none := by
  intro machine
  have hread : Cli.read machine.files ["a.less"] = .ok (.run { inputPath := "a.less" }) := rfl
  have hfault : (machine.load { inputPath := "a.less" }).outcome =
      .error (.exited ["lessc", "a.less"] 3 "oops") := rfl
  obtain ⟨-, -, hsession⟩ := load_reports_iff machine { inputPath := "a.less" }
  obtain ⟨hstatus, hreported, -⟩ := hsession ["a.less"] _ hread hfault
  exact ⟨hread, hfault, hstatus, (hreported rfl).1⟩

/-- No process is started with U+0000 in its command line. -/
example :
    let machine := expandingMachine (.exited 0 "expanded" [])
    let settings : Settings := { inputPath := "a.less", preprocessor := "less\x00c" }
    (machine.load settings).outcome = .error .nullInCommand ∧ (machine.load settings).launches = [] := by
  decide +kernel

/-- A process that exits with status zero has printed a byte that is not UTF-8. -/
example :
    let fault : Mishap := .undecodable ⟨.unexpectedEnd, 3, [0xE9]⟩
    let machine := { expandingMachine (.exited 0 "caf\ufffd" []) with mishaps := fun _ => some fault }
    (machine.load { inputPath := "a.less" }).outcome = .error (.mishap fault) :=
  rfl

/-- A quotation mark too many in the command of the preprocessor is no fault of the two kinds, and the
session breaks down. -/
theorem load_breaks_off_at_open_quotation :
    let machine := expandingMachine (.exited 0 [] [])
    let settings : Settings := { inputPath := "a.less", preprocessor := "lessc \"" }
    Cli.read machine.files ["--preprocessor", "lessc \"", "a.less"] = .ok (.run settings) ∧
      ¬((∃ text, (machine.load settings).outcome = .ok text) ∨
        ∃ fault kind, (machine.load settings).outcome = .error fault ∧ fault.kind? = some kind) ∧
      (Cli.session machine ["--preprocessor", "lessc \"", "a.less"]).breakdown =
        some (.run (.load (.badCommand .quotation))) := by
  intro machine settings
  have hfault : (machine.load settings).outcome = .error (.badCommand .quotation) := rfl
  refine ⟨rfl, ?_, rfl⟩
  rw [hfault]
  simp [LoadFault.kind?]

end StyleOrigin
