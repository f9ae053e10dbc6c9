import StyleOrigin.Proofs.Css.Scanning
import StyleOrigin.Proofs.Sequence
import StyleOrigin.Resolver
import StyleOrigin.Search.Grep

/-! # What is read from the output of a search

A search prints each match on a line of its own: the path of a file, a colon, and a line of that file.
The line feed behind it is the only end that it means. The reader of the output knows more line breaks
than the line feed. A line of a file that holds one of them falls into pieces, and each further piece
that is not empty is taken for a match, with a path in front that nobody reported.

* `FileMatch`, `FileMatch.printAll`: a match, and what is printed for matches.
* `FileMatch.strays`: the pieces of a line that are taken for matches of their own.
* `lines_feeds`: the lines of texts that have a line feed behind each.
* `Grep.answer_printed_iff`: the matches are read back exactly if no line of a file falls into pieces.
* `Grep.form_feed_brings_a_path`: one form feed in a file is enough for a path that was never reported.
-/
set_option autoImplicit false

namespace StyleOrigin

/-- A match of a search: the path of a file, and the text of one of its lines. -/
structure FileMatch where
  path : Text
  text : Text

namespace FileMatch

/-- A match as it is printed, up to its line feed. -/
def line (found : FileMatch) : Text :=
  found.path ++ ':' :: found.text

/-- What a search prints: each match with a line feed behind it. -/
def printAll (reported : List FileMatch) : Text :=
  (reported.map line).flatMap (· ++ ['\n'])

/-- What holds of a match in a file: its path can be told from the text, and the text is one line. -/
structure Printable (found : FileMatch) : Prop where
  path_ne_nil : found.path ≠ []
  colon_notMem : ':' ∉ found.path
  path_unbroken : ∀ c ∈ found.path, Text.isLineBreak c = false
  feed_notMem : '\n' ∉ found.text
  return_notMem : '\r' ∉ found.text

/-- The non-empty pieces of a text behind its first line break. -/
def strays (found : FileMatch) : List Text :=
  (splitWhere Text.isLineBreak found.text).tail.filter (!·.isEmpty)

/-- What a match is read as: itself up to the first line break of its text, and the strays. -/
def pieces (found : FileMatch) : List Text :=
  (splitWhere Text.isLineBreak found.line).filter (!·.isEmpty)

end FileMatch

/-! ## Lines -/

theorem splitWhere_feeds (texts : List Text) :
    splitWhere Text.isLineBreak (texts.flatMap (· ++ ['\n'])) =
      texts.flatMap (splitWhere Text.isLineBreak) ++ [[]] := by
  induction texts with
  | nil => rfl
  | cons text rest ih =>
    have hfeed : Text.isLineBreak '\n' = true := by decide
    rw [List.flatMap_cons, List.append_assoc, List.singleton_append, splitWhere_append_cons hfeed, ih,
      List.flatMap_cons, List.append_assoc]

/-- The break behind the last text starts no further line. -/
theorem lines_feeds {texts : List Text} (h : ∀ text ∈ texts, '\r' ∉ text) :
    Text.lines (texts.flatMap (· ++ ['\n'])) = texts.flatMap (splitWhere Text.isLineBreak) := by
  have hreturn : '\r' ∉ texts.flatMap (· ++ ['\n']) := by simpa using h
  rw [Text.lines, Css.unifyLineEnds_eq_self hreturn, splitWhere_feeds]
  simp

namespace FileMatch
variable {found : FileMatch}

theorem matchPath_append (path : Text) (h : ':' ∉ path) (text : Text) :
    matchPath (path ++ ':' :: text) = path := by
  have hall : ∀ c ∈ path, (c != ':') = true := by
    intro c hc
    simpa using fun heq : c = ':' => h (heq ▸ hc)
  simp [matchPath, List.takeWhile_append_of_pos hall]

theorem Printable.return_notMem_line (h : found.Printable) : '\r' ∉ found.line := by
  have hpath : '\r' ∉ found.path := by
    intro hmem
    exact absurd (h.path_unbroken _ hmem) (by decide)
  simp [line, hpath, h.return_notMem]

/-- The first piece of a match starts with its path, and the others are strays. -/
theorem Printable.pieces_eq (h : found.Printable) :
    ∃ first later, splitWhere Text.isLineBreak found.text = first :: later ∧
      found.pieces = (found.path ++ ':' :: first) :: found.strays := by
  have hfront : ∀ c ∈ found.path ++ [':'], Text.isLineBreak c = false := by
    have hcolon : Text.isLineBreak ':' = false := by decide
    intro c hc
    rcases List.mem_append.mp hc with hc | hc
    · exact h.path_unbroken c hc
    · exact List.mem_singleton.mp hc ▸ hcolon
  obtain ⟨first, later, htext, hline⟩ := splitWhere_append_of_not_cut hfront found.text
  have hcolon : found.path ++ [':'] ++ found.text = found.line := by simp [line]
  rw [hcolon] at hline
  refine ⟨first, later, htext, ?_⟩
  rw [pieces, strays, hline, htext]
  simp

theorem Printable.paths_pieces (h : found.Printable) :
    found.pieces.map matchPath = found.path :: found.strays.map matchPath := by
  obtain ⟨first, later, -, hpieces⟩ := h.pieces_eq
  rw [hpieces, List.map_cons, matchPath_append found.path h.colon_notMem]

/-- A match is read as itself alone if its text has no line break. -/
theorem Printable.pieces_of_unbroken (h : found.Printable)
    (htext : ∀ c ∈ found.text, Text.isLineBreak c = false) : found.pieces = [found.line] := by
  obtain ⟨first, later, hsplit, hpieces⟩ := h.pieces_eq
  rw [splitWhere_eq_singleton htext] at hsplit
  obtain ⟨rfl, rfl⟩ := List.cons.inj hsplit
  rw [hpieces, strays, splitWhere_eq_singleton htext]
  rfl

/-- No line break is left in what is read. -/
theorem unbroken_of_mem_pieces {piece : Text} (h : piece ∈ found.pieces) :
    ∀ c ∈ piece, Text.isLineBreak c = false := fun c hc =>
  (not_cut_of_mem_splitWhere (List.mem_of_mem_filter h) c hc).1

end FileMatch

/-! ## The answer to a search -/

section Reported
variable {reported : List FileMatch}

theorem lines_printAll (h : ∀ found ∈ reported, found.Printable) :
    (Text.lines (FileMatch.printAll reported)).filter (!·.isEmpty) =
      reported.flatMap FileMatch.pieces := by
  have hreturn : ∀ text ∈ reported.map FileMatch.line, '\r' ∉ text := by
    intro text htext
    obtain ⟨found, hfound, rfl⟩ := List.mem_map.mp htext
    exact (h found hfound).return_notMem_line
  rw [FileMatch.printAll, lines_feeds hreturn, List.flatMap_map, List.filter_flatMap]
  rfl

theorem flatMap_pieces_eq_iff (h : ∀ found ∈ reported, found.Printable) :
    reported.flatMap FileMatch.pieces = reported.map FileMatch.line ↔
      ∀ found ∈ reported, ∀ c ∈ found.text, Text.isLineBreak c = false := by
  constructor
  · intro hread found hfound c hc
    have hline : found.line ∈ reported.flatMap FileMatch.pieces :=
      hread ▸ List.mem_map.mpr ⟨found, hfound, rfl⟩
    obtain ⟨other, -, hpiece⟩ := List.mem_flatMap.mp hline
    exact FileMatch.unbroken_of_mem_pieces hpiece c (by simp [FileMatch.line, hc])
  · intro htext
    rw [List.map_eq_flatMap]
    exact List.flatMap_congr fun found hfound =>
      (h found hfound).pieces_of_unbroken (htext found hfound)

theorem paths_flatMap_pieces (h : ∀ found ∈ reported, found.Printable) :
    (reported.flatMap FileMatch.pieces).map matchPath =
      reported.flatMap fun found => found.path :: found.strays.map matchPath := by
  rw [List.map_flatMap]
  exact List.flatMap_congr fun found hfound => (h found hfound).paths_pieces

end Reported

namespace Grep

/-- A search that ends well is answered with the matches that were printed, each with its path, exactly
if no text of a match has a line break. In general the path of each match comes with the paths that are
read from its strays. -/
theorem answer_printed_iff (grep : Grep) (processes : Processes) (search : Search)
    (reported : List FileMatch) (errors : Text) (hreported : ∀ found ∈ reported, found.Printable)
    (hend : processes (grep.command search) = .exited 0 (FileMatch.printAll reported) errors) :
    ∃ answer, (grep.provider processes).answer search = .ok answer ∧
      (answer = reported.map FileMatch.line ∧ answer.map matchPath = reported.map (·.path) ↔
        ∀ found ∈ reported, ∀ c ∈ found.text, Text.isLineBreak c = false) ∧
      answer.map matchPath =
        reported.flatMap fun found => found.path :: found.strays.map matchPath := by
  refine ⟨reported.flatMap FileMatch.pieces, ?_, ?_, paths_flatMap_pieces hreported⟩
  · have hread : read grep.limit (.exited 0 (FileMatch.printAll reported) errors) =
        .ok (reported.flatMap FileMatch.pieces) := by
      simp [read, nothingFound, lines_printAll hreported]
    simp [answer_eq, hend, hread, Except.mapError]
  · rw [← flatMap_pieces_eq_iff hreported]
    refine ⟨fun h => h.1, fun hread => ⟨hread, ?_⟩⟩
    rw [hread, List.map_map]
    exact List.map_congr_left fun found hfound =>
      FileMatch.matchPath_append found.path (hreported found hfound).colon_notMem found.text

/-- Two matches without further line breaks are read back. -/
theorem answer_printed_iff_two_files :
    let grep : Grep := ⟨"git", .ofNat 30, none, "/work"⟩
    let reported : List FileMatch := [⟨"a.less", ".a \x7b\x7d"⟩, ⟨"lib/b.less", "\t.a:hover \x7b"⟩]
    (∀ found ∈ reported, found.Printable) ∧
      (grep.provider fun _ => .exited 0 (FileMatch.printAll reported) "warning").answer ⟨".a", none⟩ =
        .ok ["a.less:.a \x7b\x7d", "lib/b.less:\t.a:hover \x7b"] := by
  intro grep reported
  have hreported : ∀ found ∈ reported, found.Printable := by
    intro found hfound
    have hcases : found = ⟨"a.less", ".a \x7b\x7d"⟩ ∨ found = ⟨"lib/b.less", "\t.a:hover \x7b"⟩ := by
      simpa [reported] using hfound
    rcases hcases with rfl | rfl <;> constructor <;> decide
  have hunbroken : ∀ found ∈ reported, ∀ c ∈ found.text, Text.isLineBreak c = false := by decide
  obtain ⟨answer, hanswer, hread, -⟩ := answer_printed_iff grep
    (fun _ => .exited 0 (FileMatch.printAll reported) "warning") ⟨".a", none⟩ reported "warning" hreported rfl
  refine ⟨hreported, ?_⟩
  rw [hanswer, (hread.mpr hunbroken).1]
  rfl

/-- A form feed in the line of a file brings a match in a file that was never reported. The one file that
was reported is no longer the only candidate. -/
theorem form_feed_brings_a_path :
    let grep : Grep := ⟨"git", .ofNat 30, none, "/work"⟩
    let reported : List FileMatch := [⟨"a.less", ".a \x7b\x7d \x0Cb.less"⟩]
    let resolver : Resolver := ⟨"/work", ["/work/main.css"], "less", none, none, .usual⟩
    (∀ found ∈ reported, found.Printable) ∧
      ∃ answer, (grep.provider fun _ => .exited 0 (FileMatch.printAll reported) []).answer ⟨".a", none⟩ =
          .ok answer ∧
        answer ≠ reported.map FileMatch.line ∧
        resolver.candidates (reported.map FileMatch.line) = .ok ["a.less"] ∧
        resolver.candidates answer = .ok ["a.less", "b.less"] ∧
        "b.less".toList ∉ reported.map (·.path) := by
  intro grep reported resolver
  have hreported : ∀ found ∈ reported, found.Printable := by
    intro found hfound
    obtain rfl := List.mem_singleton.mp hfound
    constructor <;> decide
  refine ⟨hreported, ["a.less:.a \x7b\x7d ", "b.less"], ?_⟩
  decide +kernel

end Grep
end StyleOrigin
