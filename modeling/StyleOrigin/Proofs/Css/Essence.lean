import StyleOrigin.Proofs.Css.RoundTrip

/-! # The essence of tokens

The essence of tokens is what they say apart from white space, comments and places, at every depth. Legible
tokens that are written and read again keep it, unless a unit is a letter E that comes back small.

* `essence`: tokens without white space, comments and places.
* `SettledUnits`: the units are spelled as they are read back.
* `essence_distil`: distilling keeps the essence.
* `exists_tokens_essence`: tokens written and read again have the same essence.
-/
set_option autoImplicit false

namespace StyleOrigin.Css

/-! ## The essence -/

/-- A leaf, unless it is white space or a comment. -/
def Leaf.essence : Leaf → List Leaf
  | .whitespace _ => []
  | .comment _ => []
  | value => [value]

mutual

/-- A token without its place, and without the white space and the comments in it. -/
def Token.essence : Token → List Token
  | .leaf _ value => value.essence.map (.leaf .start)
  | .group _ opening content => [.group .start opening (essence content)]

/-- A sequence of tokens without places, white space and comments. -/
def essence : List Token → List Token
  | [] => []
  | token :: rest => token.essence ++ essence rest

end

theorem essence_append (first second : List Token) :
    essence (first ++ second) = essence first ++ essence second := by
  induction first with
  | nil => rfl
  | cons token rest ih => simp [essence, ih]

/-! ## Units -/

/-- The units of a sequence of tokens are spelled as they are read back. -/
def SettledUnits (tokens : List Token) : Prop :=
  ∀ numeral unit, .leaf (.dimension numeral unit) ∈ flat tokens → settledUnit unit = unit

/-- The unit of a lexeme, if it is not spelled as it is read back. -/
def Lexeme.unsettled : Lexeme → List Text
  | .leaf (.dimension _ unit) => if settledUnit unit = unit then [] else [unit]
  | _ => []

theorem lenient_unsettled : Lenient Lexeme.unsettled where
  comment _ := rfl
  whitespace _ := (List.flatMap_eq_nil_iff.mpr fun _ _ => rfl).symm
  unmatched _ := rfl

theorem settledUnits_iff {lexemes : List Lexeme} :
    lexemes.flatMap Lexeme.unsettled = [] ↔
      ∀ numeral unit, .leaf (.dimension numeral unit) ∈ lexemes → settledUnit unit = unit := by
  rw [List.flatMap_eq_nil_iff]
  constructor
  · intro h numeral unit hmem
    simpa [Lexeme.unsettled] using h _ hmem
  · intro h lexeme hmem
    unfold Lexeme.unsettled
    split
    · rw [if_pos (h _ _ hmem)]
    · rfl

theorem SettledUnits.of_leaf {position : Position} {value : Leaf} {rest : List Token}
    (h : SettledUnits (.leaf position value :: rest)) :
    (∀ numeral unit, value = .dimension numeral unit → settledUnit unit = unit) ∧ SettledUnits rest :=
  ⟨fun numeral unit hvalue => h numeral unit (by simp [flat, Token.flat, hvalue]),
    fun numeral unit hmem => h numeral unit (by simp [flat, hmem])⟩

theorem SettledUnits.of_group {position : Position} {opening : Opening} {content rest : List Token}
    (h : SettledUnits (.group position opening content :: rest)) :
    SettledUnits content ∧ SettledUnits rest :=
  ⟨fun numeral unit hmem => h numeral unit (by simp [flat, Token.flat, hmem]),
    fun numeral unit hmem => h numeral unit (by simp [flat, hmem])⟩

/-! ## Reading again -/

theorem essence_distil_leaf {value : Leaf}
    (h : ∀ numeral unit, value = .dimension numeral unit → settledUnit unit = unit) :
    essence (value.distil.map (.leaf .start)) = value.essence.map (.leaf .start) := by
  cases value with
  | whitespace text =>
    rw [Leaf.distil]
    induction text with
    | nil => rfl
    | cons c cs ih => exact ih (by simp)
  | dimension numeral unit => simp [Leaf.distil, h numeral unit rfl, essence, Token.essence, Leaf.essence]
  | _ => rfl

theorem essence_distil {tokens : List Token} (h : SettledUnits tokens) :
    essence (distil tokens) = essence tokens := by
  induction tokens using tokens_induction with
  | nil => rfl
  | leaf position value rest ih =>
    rw [distil, essence_append, Token.distil, essence_distil_leaf h.of_leaf.1, ih h.of_leaf.2]
    rfl
  | group position opening content rest ihcontent ih =>
    rw [distil, essence_append, ih h.of_group.2, Token.distil]
    simp [essence, Token.essence, ihcontent h.of_group.1]

/-- The leaves of the tokens of a source are among its lexemes, unmatched closers apart. -/
theorem mem_lexemes_of_tokens {keep : Bool} {source : Text} {ts : List Token}
    (h : tokens keep source = .ok ts) {value : Leaf} (hvalue : .leaf value ∈ flat ts)
    (hmatched : ∀ bracket, value ≠ .flaw (.unmatched bracket)) :
    .leaf value ∈ (lexemes source).map (·.2) := by
  simp only [tokens] at h
  split at h
  · exact absurd h (by simp)
  · obtain rfl := Except.ok.inj h
    have hclean : ∀ c ∈ cleaned source, isClean c = true := fun c => isClean_of_mem_cleaned
    have hlexed := (lexed_lexemesOf hclean).filter keep
    rw [← map_snd_lexemes] at hlexed
    obtain ⟨closers, hclosers, hunread⟩ := unread_nest (plain_of_lexed hlexed)
    have hmem : (Lexeme.leaf value).asRead ∈ unread (nest ((lexemes source).filter fun lexeme =>
        keep || !lexeme.2.isComment)) := List.mem_map_of_mem hvalue
    rw [asRead_leaf hmatched, hunread] at hmem
    obtain hmem | hmem := List.mem_append.mp hmem
    · obtain ⟨found, hfound, heq⟩ := List.mem_map.mp hmem
      exact List.mem_map.mpr ⟨found, (List.mem_filter.mp hfound).1, heq⟩
    · obtain ⟨bracket, heq⟩ := hclosers _ hmem
      exact absurd heq (by simp)

/-- Legible tokens of a source whose units are settled keep their essence when they are written and read
again. -/
theorem exists_tokens_essence {before : List Token} (hread : WellRead before)
    (hlegible : legible before = true) (hunits : SettledUnits before) (keep : Bool) :
    ∃ after, tokens keep (writeTokens before) = .ok after ∧ essence after = essence before := by
  obtain ⟨after, hafter, hdistil⟩ := exists_tokens_writeTokens hread hlegible keep
  have hsees : ∀ value, .leaf value ∈ flat before → SeesSettled Lexeme.unsettled value := by
    rintro value hvalue numeral unit rfl
    rw [hunits numeral unit hvalue]
  have hread := lenient_unsettled.flatMap_lexemes hread hlegible hsees
  rw [settledUnits_iff.mpr hunits, settledUnits_iff] at hread
  have hsettled : SettledUnits after := fun numeral unit hmem =>
    hread numeral unit (mem_lexemes_of_tokens hafter hmem (by simp))
  exact ⟨after, hafter, by rw [← essence_distil hsettled, hdistil, essence_distil hunits]⟩

end StyleOrigin.Css
