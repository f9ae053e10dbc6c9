import StyleOrigin.Css.Write
import StyleOrigin.Proofs.Css.Reading

/-! # Leaves read back

A leaf that reading can bring is read back from what is written for it, up to the spelling of its
unit: if it is legible on its own, and if nothing behind it lengthens it.

* `Leaf.Sound`: what holds of every leaf that reading brings.
* `Leaf.isLegible`, `Leaf.EndsBefore`: the two conditions.
* `Lenient`, `Lenient.gather_write_append`: a leaf read back, as a map sees it that does not look too closely.
* `lenient_distil`: distilling is such a map.
-/
set_option autoImplicit false

namespace StyleOrigin.Css

/-! ## Sound leaves -/

/-- A character of a source text once its line ends are unified and U+0000 is replaced. -/
def isClean (c : Char) : Bool :=
  c != '\x00' && c != '\r' && c != '\x0C'

/-- What holds of every leaf that reading brings. -/
def Leaf.Sound : Leaf → Prop
  | .whitespace text => text ≠ [] ∧ ∀ c ∈ text, isWhitespace c = true
  | .literal text => text ∈ longLiterals ∨ ∃ c, isLone c = true ∧ isClean c = true ∧ text = [c]
  | .comment text => ¬ ['*', '/'] <:+: text ∧ ∀ c ∈ text, isClean c = true
  | .ident name => name ≠ [] ∧ '\x00' ∉ name
  | .atKeyword name => name ≠ [] ∧ '\x00' ∉ name
  | .hash name isIdent =>
    name ≠ [] ∧ '\x00' ∉ name ∧ (isIdent = false → startsLikeNumeral name = true)
  | .string value _ => '\x00' ∉ value
  | .url value _ => '\x00' ∉ value
  | .number numeral => IsNumeral numeral
  | .percentage numeral => IsNumeral numeral
  | .dimension numeral unit => IsNumeral numeral ∧ unit ≠ [] ∧ '\x00' ∉ unit
  | .unicodeRange first last => first < 16 ^ 6 ∧ last < 16 ^ 6
  | .flaw _ => True

/-! ## Legible leaves -/

/-- Whether what is written for a leaf says again what the leaf is. -/
def Leaf.isLegible : Leaf → Bool
  | .string _ closed => closed
  | .url value closed => closed && value.all (!isUrlControl ·)
  | .dimension numeral unit => hasExponent numeral || !startsExponent unit
  | .flaw .badString => false
  | .flaw .unclosedString => false
  | .flaw .unclosedUrl => false
  | _ => true

/-- Nothing lengthens a leaf in front of a text. -/
def Leaf.EndsBefore (text : Text) : Leaf → Prop
  | .ident name =>
    continuesName text = false ∧ (∀ c ∈ text.head?, c ≠ '(') ∧
      startsUnicodeRange (encodeIdent name ++ text) = false ∧
      startsClosingMark (encodeIdent name ++ text) = false
  | .atKeyword _ => continuesName text = false
  | .hash _ _ => continuesName text = false
  | .dimension _ _ => continuesName text = false
  | .number numeral =>
    EndsNumeral numeral text ∧ startsIdent text = false ∧ ∀ c ∈ text.head?, c ≠ '%'
  | .unicodeRange _ _ => EndsRange text
  | .literal [c] => joins c text = false
  | _ => True

/-! ## What reading leaves of a leaf -/

/-- A leaf without what reading may change: white space in single characters, a unit settled, no
comment. -/
def Leaf.distil : Leaf → List Leaf
  | .whitespace text => text.map fun c => .whitespace [c]
  | .comment _ => []
  | .dimension numeral unit => [.dimension numeral (settledUnit unit)]
  | value => [value]

/-- A lexeme without what reading may change. The flaw of an unmatched closer is that closer. -/
def Lexeme.distil : Lexeme → List Lexeme
  | .leaf (.flaw (.unmatched bracket)) => [.closes bracket]
  | .leaf value => value.distil.map .leaf
  | lexeme => [lexeme]

section Gather
variable {α : Type} {f : Lexeme → List α}

/-- What a map brings of the lexemes of a text. -/
def gather (f : Lexeme → List α) (text : Text) : List α :=
  (lexemesOf text).flatMap f

/-- A map of lexemes that sees neither comments, nor how white space is grouped, nor whether a closer is
unmatched. -/
structure Lenient (f : Lexeme → List α) : Prop where
  comment : ∀ text, f (.leaf (.comment text)) = []
  whitespace : ∀ text, f (.leaf (.whitespace text)) = text.flatMap fun c => f (.leaf (.whitespace [c]))
  unmatched : ∀ bracket, f (.leaf (.flaw (.unmatched bracket))) = f (.closes bracket)

/-- A map of lexemes sees a leaf as it is read back: a unit in the spelling that it settles to. -/
def SeesSettled (f : Lexeme → List α) (value : Leaf) : Prop :=
  ∀ numeral unit, value = .dimension numeral unit →
    f (.leaf (.dimension numeral (settledUnit unit))) = f (.leaf (.dimension numeral unit))

theorem Reads.gather_append {text rest : Text} {lexemes : List Lexeme} (h : Reads text lexemes rest) :
    gather f (text ++ rest) = lexemes.flatMap f ++ gather f rest := by
  rw [gather, h, List.flatMap_append]
  rfl

theorem Reads.gather_leaf {value : Leaf} {text rest : Text} (h : Reads text [.leaf value] rest) :
    gather f (text ++ rest) = f (.leaf value) ++ gather f rest := by
  rw [h.gather_append, List.flatMap_singleton]

/-! ## White space -/

theorem drop_takeWhile_length {β : Type} (p : β → Bool) (xs : List β) :
    xs.drop (xs.takeWhile p).length = xs.dropWhile p := by
  induction xs with
  | nil => rfl
  | cons x xs ih => by_cases hx : p x = true <;> simp [hx, ih]

theorem lexemesOf_whitespace {c : Char} (h : isWhitespace c = true) (cs : Text) :
    lexemesOf (c :: cs) =
      .leaf (.whitespace (c :: cs.takeWhile isWhitespace)) ::
        lexemesOf (cs.dropWhile isWhitespace) := by
  rw [lexemesOf_cons, Lexeme.next, if_pos h]
  simp only [Step.leaf, drop_takeWhile_length]
  rfl

theorem Lenient.gather_whitespace_run (hf : Lenient f) {c : Char} (h : isWhitespace c = true)
    (cs : Text) :
    gather f (c :: cs) = (c :: cs.takeWhile isWhitespace).flatMap (fun c => f (.leaf (.whitespace [c]))) ++
      gather f (cs.dropWhile isWhitespace) := by
  rw [gather, lexemesOf_whitespace h, List.flatMap_cons, hf.whitespace]
  rfl

theorem Lenient.gather_whitespace_cons (hf : Lenient f) {c : Char} (h : isWhitespace c = true)
    (cs : Text) : gather f (c :: cs) = f (.leaf (.whitespace [c])) ++ gather f cs := by
  have hrest : gather f cs =
      (cs.takeWhile isWhitespace).flatMap (fun c => f (.leaf (.whitespace [c]))) ++
        gather f (cs.dropWhile isWhitespace) := by
    cases cs with
    | nil => rfl
    | cons d ds =>
      by_cases hd : isWhitespace d = true
      · rw [hf.gather_whitespace_run hd, List.takeWhile_cons_of_pos hd, List.dropWhile_cons_of_pos hd]
      · rw [List.takeWhile_cons_of_neg hd, List.dropWhile_cons_of_neg hd]
        rfl
  rw [hf.gather_whitespace_run h, hrest, List.flatMap_cons, List.append_assoc]

theorem Lenient.gather_whitespace_append (hf : Lenient f) {text : Text}
    (h : ∀ c ∈ text, isWhitespace c = true) (rest : Text) :
    gather f (text ++ rest) = f (.leaf (.whitespace text)) ++ gather f rest := by
  rw [hf.whitespace]
  induction text with
  | nil => rfl
  | cons c cs ih =>
    rw [List.cons_append, hf.gather_whitespace_cons (h c List.mem_cons_self),
      ih fun d hd => h d (List.mem_cons_of_mem c hd), List.flatMap_cons, List.append_assoc]

/-! ## A leaf -/

/-- A sound and legible leaf is read back in front of a text that does not lengthen it. -/
theorem Lenient.gather_write_append (hf : Lenient f) {value : Leaf} {rest : Text} (hsound : value.Sound)
    (hlegible : value.isLegible = true) (hsees : SeesSettled f value) (hends : value.EndsBefore rest) :
    gather f (value.write ++ rest) = f (.leaf value) ++ gather f rest := by
  cases value with
  | whitespace text => exact hf.gather_whitespace_append hsound.2 rest
  | literal text =>
    obtain hlong | ⟨c, hlone, _, rfl⟩ := hsound
    · exact (reads_longLiteral hlong rest).gather_leaf
    · have hjoins : joins c rest = false := by simpa only [Leaf.EndsBefore] using hends
      rw [Leaf.write]
      exact (reads_literal hlone hjoins).gather_leaf
  | comment text =>
    rw [Leaf.write]
    exact (reads_comment hsound.1 rest).gather_leaf
  | ident name =>
    exact (reads_ident hsound.1 hends.1 hends.2.1 hends.2.2.1 hends.2.2.2).gather_leaf
  | atKeyword name => exact (reads_atKeyword hsound.1 hends).gather_leaf
  | hash name isIdent =>
    cases isIdent with
    | true => exact (reads_hash_ident hsound.1 hends).gather_leaf
    | false => exact (reads_hash_name (hsound.2.2 rfl) hends).gather_leaf
  | string value closed =>
    obtain rfl : closed = true := hlegible
    exact (reads_string value rest).gather_leaf
  | url value closed =>
    obtain ⟨rfl, hcontrol⟩ : closed = true ∧ value.all (!isUrlControl ·) = true := by
      simpa [Leaf.isLegible] using hlegible
    have hcontrol : ∀ c ∈ value, isUrlControl c = false := by simpa using hcontrol
    rw [Leaf.write]
    exact (reads_url hcontrol rest).gather_leaf
  | number numeral => exact (reads_number hsound hends.1 hends.2.1 hends.2.2).gather_leaf
  | percentage numeral => exact (reads_percentage hsound rest).gather_leaf
  | dimension numeral unit =>
    have hexponent : hasExponent numeral = true ∨ startsExponent unit = false := by
      simpa [Leaf.isLegible] using hlegible
    rw [Leaf.write, (reads_dimension hsound.1 hsound.2.1 hexponent hends).gather_leaf,
      hsees numeral unit rfl]
  | unicodeRange first last => exact (reads_unicodeRange hsound.1 hsound.2 hends).gather_leaf
  | flaw fault =>
    cases fault with
    | unmatched bracket =>
      have hread := (reads_closer bracket rest).gather_append (f := f)
      rwa [List.flatMap_singleton, ← hf.unmatched] at hread
    | badUrl => exact (reads_badUrl rest).gather_leaf
    | _ => exact absurd hlegible (by decide)

end Gather

/-! ## Distilling -/

theorem distil_leaf {value : Leaf} (h : ∀ bracket, value ≠ .flaw (.unmatched bracket)) :
    Lexeme.distil (.leaf value) = value.distil.map .leaf := by
  unfold Lexeme.distil
  split
  · rename_i heq
    exact absurd (Lexeme.leaf.inj heq) (h _)
  · rename_i heq
    rw [Lexeme.leaf.inj heq]
  · rename_i hne
    exact absurd rfl (hne value)

theorem Leaf.distil_dimension_settled (numeral unit : Text) :
    Leaf.distil (.dimension numeral (settledUnit unit)) = Leaf.distil (.dimension numeral unit) := by
  simp only [Leaf.distil, settledUnit_settledUnit]

theorem lenient_distil : Lenient Lexeme.distil where
  comment _ := rfl
  whitespace text := by
    rw [distil_leaf (by simp), Leaf.distil, List.map_map, List.map_eq_flatMap]
    rfl
  unmatched _ := rfl

theorem seesSettled_distil (value : Leaf) : SeesSettled Lexeme.distil value := by
  intro numeral unit _
  rw [distil_leaf (by simp), distil_leaf (by simp), Leaf.distil_dimension_settled]

end StyleOrigin.Css
