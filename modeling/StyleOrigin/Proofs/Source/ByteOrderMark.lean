import StyleOrigin.Proofs.Css.Marked
import StyleOrigin.Proofs.Media.Labels
import StyleOrigin.Proofs.Sequence
import StyleOrigin.Proofs.Text.Encoding
import StyleOrigin.Source.Loading

/-! # A byte order mark in the input file

A file is read as UTF-8 with its mark, if it has one, and the mark is a character like any other in a
stylesheet: it starts a name. So a style rule begins at it, and the first block of the stylesheet becomes
the block of that rule, whatever it was before.

* `exists_parse_marked_iff`, `labels_marked`: a marked source is read if what stands behind its first name
  can be, and has the labels that stand behind the first block there.
* `labels_behindName`: if the source begins plain, these are the labels behind its own first block.
* `Machine.Parses`, `Machine.parses_iff`: the nodes that a run reads a file as.
* `mark_hides_first_block`: the units of a file with and without a mark.
-/
set_option autoImplicit false

namespace StyleOrigin

open Css

/-! ## Labels of tokens -/

theorem hasBlock_unplaced (node : Node) : node.unplaced.hasBlock = node.hasBlock := by
  cases node with
  | styleRule => rfl
  | blockless => rfl
  | atRule rule =>
    obtain ⟨position, keyword, prelude, body⟩ := rule
    cases body <;> rfl

theorem behindBlock_unplaced (nodes : List Node) :
    (behindBlock nodes).map Node.unplaced = behindBlock (nodes.map Node.unplaced) := by
  have hblock : (fun node : Node => !node.hasBlock) ∘ Node.unplaced = fun node => !node.hasBlock :=
    funext fun node => congrArg (!·) (hasBlock_unplaced node)
  rw [behindBlock, behindBlock, List.dropWhile_map, hblock, List.map_tail]

theorem flatMap_labels_unplaced (nodes : List Node) :
    (nodes.map Node.unplaced).flatMap Node.labels = nodes.flatMap Node.labels := by
  rw [List.flatMap_map]
  exact congrArg (List.flatMap · nodes) (funext labels_unplaced)

/-- The labels that the tokens of a stylesheet bring. -/
def labelsOf (tokens : List Token) : List (Text × Text) :=
  (nodesFrom isPassedAtTop none tokens).flatMap Node.labels

section Parsed
variable {source : Text} {nodes : List Node}

theorem flatMap_labels_of_parse (h : parse source = .ok nodes) :
    nodes.flatMap Node.labels = labelsOf (tokensOf (lexemesOf (cleaned source))) := by
  rw [← flatMap_labels_unplaced, map_unplaced_of_parse h, labelsOf]

theorem labels_behindBlock_of_parse (h : parse source = .ok nodes) :
    (behindBlock nodes).flatMap Node.labels =
      labelsOf (behindCurly (tokensOf (lexemesOf (cleaned source)))) := by
  rw [← flatMap_labels_unplaced, behindBlock_unplaced, map_unplaced_of_parse h,
    behindBlock_nodesFrom (fun _ => curlyContent_of_isPassedAtTop), labelsOf]

end Parsed

/-- The first block behind a name at the start brings no labels: it is that of a style rule. -/
theorem labelsOf_readsName {text : Text} (h : ReadsName text) :
    labelsOf (tokensOf (lexemesOf text)) = labelsOf (behindCurly (tokensOf (lexemesOf text))) := by
  obtain ⟨first, rest, htokens, hpassed, hcurly, hbegin⟩ := h.exists_tokensOf
  have hnodes : nodesFrom isPassedAtTop none (first :: rest) =
      nodesFrom isPassedAtTop (some (.styleRule first.position first [])) rest := by
    rw [nodesFrom, if_neg (by simp [hpassed]), hcurly, ← hbegin]
  have hfirst : ((nodesFrom isPassedAtTop none (first :: rest)).find? Node.hasBlock).toList.flatMap
      Node.labels = [] := by
    rw [hnodes]
    cases hfind : (nodesFrom isPassedAtTop (some (.styleRule first.position first [])) rest).find?
        Node.hasBlock with
    | none => rfl
    | some node =>
      obtain ⟨rule, rfl⟩ := find_hasBlock_of_styleRule _ _ _ _ hfind
      rfl
  rw [htokens, labelsOf, flatMap_labels_eq, hfirst, List.nil_append,
    behindBlock_nodesFrom (fun _ => curlyContent_of_isPassedAtTop), labelsOf]

/-! ## Marked sources -/

theorem cleaned_behindName (source : Text) :
    cleaned (behindName (cleaned source)) = behindName (cleaned source) :=
  cleaned_eq_self fun _ hc => isClean_of_mem_cleaned (List.mem_of_mem_drop hc)

/-- A marked source can be read exactly if what stands behind its first name can be. -/
theorem exists_parse_marked_iff (source : Text) :
    (∃ found, parse (byteOrderMark :: source) = .ok found) ↔
      ∃ rest, parse (behindName (cleaned source)) = .ok rest := by
  have hname := readsName_marked (cleaned source)
  rw [exists_parse_iff, exists_parse_iff, cleaned_marked, cleaned_behindName]
  rw [← behindName_marked (cleaned source)]
  exact ⟨hname.resumes.readable, hname.readable⟩

/-- A marked source has the labels behind the first block of what stands behind its first name. -/
theorem labels_marked {source : Text} {found rest : List Node}
    (hfound : parse (byteOrderMark :: source) = .ok found)
    (hrest : parse (behindName (cleaned source)) = .ok rest) :
    found.flatMap Node.labels = (behindBlock rest).flatMap Node.labels := by
  have hname := readsName_marked (cleaned source)
  have hbehind := hname.resumes.behind
  rw [behindName_marked] at hbehind
  rw [flatMap_labels_of_parse hfound, labels_behindBlock_of_parse hrest, cleaned_marked,
    cleaned_behindName, labelsOf_readsName hname, hbehind]

/-- The labels behind the first block of a source that begins plain are found behind its first name. -/
theorem labels_behindName {source : Text} {nodes : List Node} (hplain : BeginsPlain (cleaned source))
    (h : parse source = .ok nodes) :
    ∃ rest, parse (behindName (cleaned source)) = .ok rest ∧
      (behindBlock rest).flatMap Node.labels = (behindBlock nodes).flatMap Node.labels := by
  have hresumes := resumes_of_beginsPlain hplain
  have hreadable := hresumes.readable ((exists_parse_iff source).mp ⟨nodes, h⟩)
  rw [← cleaned_behindName, ← exists_parse_iff] at hreadable
  obtain ⟨rest, hrest⟩ := hreadable
  refine ⟨rest, hrest, ?_⟩
  rw [labels_behindBlock_of_parse hrest, labels_behindBlock_of_parse h, cleaned_behindName,
    hresumes.behind]

/-! ## Line ends -/

/-- Line ends are unified before and after the character U+0000 is replaced alike. -/
theorem unifyLineEnds_map {f : Char → Char} (hreturn : ∀ c, f c = '\r' ↔ c = '\r')
    (hfeed : ∀ c, f c = '\n' ↔ c = '\n') (text : Text) :
    Text.unifyLineEnds (text.map f) = (Text.unifyLineEnds text).map f := by
  have hline : f '\n' = '\n' := (hfeed _).mpr rfl
  induction text using Text.unifyLineEnds.induct with
  | case1 => rfl
  | case2 cs ih =>
    rw [List.map_cons, List.map_cons, (hreturn _).mpr rfl, hline, Text.unifyLineEnds, ih,
      Text.unifyLineEnds, List.map_cons, hline]
  | case3 c cs hne ih =>
    have hne' : ∀ ds, f c = '\r' → cs.map f = '\n' :: ds → False := by
      intro ds hc hcs
      cases cs with
      | nil => exact absurd hcs (by simp)
      | cons d rest =>
        have hd := (hfeed d).mp (List.cons.inj hcs).1
        exact hne rest ((hreturn c).mp hc) (by rw [hd])
    rw [List.map_cons, Text.unifyLineEnds.eq_3 _ _ hne', ih, Text.unifyLineEnds.eq_3 _ _ hne,
      List.map_cons]
    by_cases hc : c = '\r'
    · rw [if_pos ((hreturn c).mpr hc), if_pos hc, hline]
    · rw [if_neg (fun h => hc ((hreturn c).mp h)), if_neg hc]

theorem cleaned_unifyLineEnds (source : Text) : cleaned (Text.unifyLineEnds source) = cleaned source := by
  let replace (c : Char) : Char := if c = '\x00' then '\uFFFD' else c
  have hreturn : ∀ c, replace c = '\r' ↔ c = '\r' := by
    intro c
    by_cases hc : c = '\x00' <;> simp [replace, hc]
  have hfeed : ∀ c, replace c = '\n' ↔ c = '\n' := by
    intro c
    by_cases hc : c = '\x00' <;> simp [replace, hc]
  have hunified : Text.unifyLineEnds ((Text.unifyLineEnds source).map replace) =
      Text.unifyLineEnds (source.map replace) := by
    rw [← unifyLineEnds_map hreturn hfeed]
    exact unifyLineEnds_eq_self fun hmem => (mem_unifyLineEnds hmem).1 rfl
  rw [cleaned, cleaned]
  exact congrArg _ hunified

theorem parse_eq_of_cleaned_eq {source other : Text} (h : cleaned source = cleaned other) :
    parse source = parse other := by
  rw [parse, parse, tokens, tokens, lexemes, lexemes, h]

theorem parse_unifyLineEnds (source : Text) : parse (Text.unifyLineEnds source) = parse source :=
  parse_eq_of_cleaned_eq (cleaned_unifyLineEnds source)

/-! ## Machines -/

/-- The bytes of a byte order mark. -/
def Utf8.markBytes : List UInt8 :=
  [0xEF, 0xBB, 0xBF]

theorem Utf8.encode_marked (text : Text) :
    encode (byteOrderMark :: text) = markBytes ++ encode text := rfl

/-- The nodes that a run reads its stylesheet as. -/
def Machine.Parses (machine : Machine) (settings : Settings) (nodes : List Node) : Prop :=
  ∃ text, (machine.load settings).outcome = .ok text ∧ parse text = .ok nodes

/-- A file that is read as it stands has the nodes of its text. -/
theorem Machine.parses_iff {machine : Machine} {settings : Settings} {text : Text}
    (hcompile : settings.precompile = false)
    (hfile : machine.files.file? (Path.compact settings.inputPath) = .ok (some (Utf8.encode text)))
    (nodes : List Node) : machine.Parses settings nodes ↔ parse text = .ok nodes := by
  have hload : (machine.load settings).outcome = .ok (Text.unifyLineEnds text) := by
    simp [load, hcompile, FileTree.readText, hfile, Utf8.decode_encode]
  rw [Parses, hload, ← parse_unifyLineEnds text]
  simp

/-! ## The law -/

theorem unitsOf_singleton_eq_nil_iff (node : Node) : unitsOf [node] = [] ↔ node.labels = [] := by
  rw [← List.map_eq_nil_iff (f := StyleUnit.label), map_label_unitsOf, List.flatMap_singleton]

/-- A text that can be parsed stands in a file, and in another one with a byte order mark in front of it.
From the marked file a run gets the units behind the first block of what follows the name at the start of
the text, and it fails if that cannot be parsed. If the text starts with no numeral, code point range or
address, these are the units behind its own first block: they are all its units exactly if its first block
brings none. -/
theorem mark_hides_first_block {plain marked : Machine} {settings : Settings} {text : Text}
    {nodes : List Node} (hcompile : settings.precompile = false)
    (hplain : plain.files.file? (Path.compact settings.inputPath) = .ok (some (Utf8.encode text)))
    (hmarked : marked.files.file? (Path.compact settings.inputPath) =
      .ok (some (Utf8.markBytes ++ Utf8.encode text)))
    (hnodes : parse text = .ok nodes) :
    plain.Parses settings nodes ∧
    ((∃ found, marked.Parses settings found) ↔
      ∃ rest, parse (behindName (cleaned text)) = .ok rest) ∧
    (∀ found rest, marked.Parses settings found → parse (behindName (cleaned text)) = .ok rest →
      (unitsOf found).map StyleUnit.label = (unitsOf (behindBlock rest)).map StyleUnit.label) ∧
    (BeginsPlain (cleaned text) → ∃ found, marked.Parses settings found ∧
      (unitsOf found).map StyleUnit.label = (unitsOf (behindBlock nodes)).map StyleUnit.label ∧
      ((unitsOf found).map StyleUnit.label = (unitsOf nodes).map StyleUnit.label ↔
        ∀ node, nodes.find? Node.hasBlock = some node → unitsOf [node] = [])) := by
  simp only [Machine.parses_iff hcompile hplain,
    Machine.parses_iff hcompile ((Utf8.encode_marked text).symm ▸ hmarked), map_label_unitsOf,
    unitsOf_singleton_eq_nil_iff]
  refine ⟨hnodes, exists_parse_marked_iff text, fun found rest => labels_marked, fun hbegins => ?_⟩
  obtain ⟨rest, hrest, hlabels⟩ := labels_behindName hbegins hnodes
  obtain ⟨found, hfound⟩ := (exists_parse_marked_iff text).mpr ⟨rest, hrest⟩
  have hbehind := (labels_marked hfound hrest).trans hlabels
  refine ⟨found, hfound, hbehind, ?_⟩
  rw [hbehind, flatMap_labels_eq nodes, List.self_eq_append_left]
  cases nodes.find? Node.hasBlock <;> simp

/-- A machine with one file. -/
def fileMachine (bytes : List UInt8) : Machine :=
  ⟨"/work", .ofContents [("m.css", bytes)], fun _ => .timedOut, fun _ => none⟩

theorem file_fileMachine (bytes : List UInt8) :
    (fileMachine bytes).files.file? (Path.compact "m.css") = .ok (some bytes) := rfl

def fileSettings : Settings :=
  { inputPath := "m.css", precompile := false }

/-- Of two blocks behind a mark the second one is left. -/
theorem mark_hides_first_block_of_two :
    let text : Text := "@media x\x7b.a\x7b\x7d\x7d@media y\x7b.b\x7b\x7d\x7d"
    ∃ found, (fileMachine (Utf8.markBytes ++ Utf8.encode text)).Parses fileSettings found ∧
      (unitsOf found).map StyleUnit.label = [(".b".toList, "y".toList)] := by
  intro text
  have hread : (parse text).map (fun nodes => (unitsOf (behindBlock nodes)).map StyleUnit.label) =
      .ok [(".b".toList, "y".toList)] := by decide +kernel
  have hbegins : BeginsPlain (cleaned text) := by decide +kernel
  have hcompile : fileSettings.precompile = false := rfl
  obtain ⟨nodes, hnodes, hlabels⟩ := exists_of_map_eq_ok hread
  obtain ⟨-, -, -, hplain⟩ := mark_hides_first_block hcompile (file_fileMachine (Utf8.encode text))
    (file_fileMachine (Utf8.markBytes ++ Utf8.encode text)) hnodes
  obtain ⟨found, hfound, hbehind, -⟩ := hplain hbegins
  exact ⟨found, hfound, hbehind.trans hlabels⟩

/-- The one rule of a stylesheet is lost behind a mark. -/
theorem mark_hides_the_only_rule :
    let text : Text := "@media print\x7b.a\x7bb:c\x7d\x7d"
    text.head? ≠ some byteOrderMark ∧
      (∃ nodes, (fileMachine (Utf8.encode text)).Parses fileSettings nodes ∧
        (unitsOf nodes).map StyleUnit.label = [(".a".toList, "print".toList)]) ∧
      ∃ found, (fileMachine (Utf8.markBytes ++ Utf8.encode text)).Parses fileSettings found ∧
        unitsOf found = [] := by
  intro text
  have hplain : (parse text).map (fun nodes => (unitsOf nodes).map StyleUnit.label) =
      .ok [(".a".toList, "print".toList)] := by decide +kernel
  have hmarked : (parse (byteOrderMark :: text)).map (fun found => (unitsOf found).length) = .ok 0 := by
    decide +kernel
  obtain ⟨nodes, hnodes, hlabels⟩ := exists_of_map_eq_ok hplain
  obtain ⟨found, hfound, hnone⟩ := exists_of_map_eq_ok hmarked
  refine ⟨by decide, ⟨nodes, ?_, hlabels⟩, found, ?_, List.length_eq_zero_iff.mp hnone⟩
  · exact (Machine.parses_iff rfl (file_fileMachine _) nodes).mpr hnodes
  · exact (Machine.parses_iff rfl (file_fileMachine _) found).mpr hfound

end StyleOrigin
