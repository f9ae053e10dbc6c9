import StyleOrigin.Proofs.Css.Legible
import StyleOrigin.Proofs.Css.Writing
import StyleOrigin.Text.Blank

/-! # Tokens that are not seen

There are more blanks than the white space of a stylesheet: control characters that are tokens of their
own, and characters beyond ASCII that make names. Of a sequence of such tokens nothing but blanks is
written, unless two names stand side by side and an empty comment keeps them apart.

* `Leaf.isUnseen`, `Token.isUnseen`: the tokens that are written in blanks.
* `Unseen`: the sequences that are written in blanks.
* `blank_writeTokens_iff`: these are all of them.
-/
set_option autoImplicit false

namespace StyleOrigin.Css

open Text (isBlank)

/-! ## Unseen tokens -/

/-- Whether a leaf that reading brings is written in blanks, or not at all. -/
def Leaf.isUnseen : Leaf → Bool
  | .whitespace _ => true
  | .literal text => text.all isBlank
  | .ident name => name.all fun c => isBeyondAscii c && isBlank c
  | .flaw .unclosedString => true
  | .flaw .unclosedUrl => true
  | _ => false

namespace Token

def isUnseen : Token → Bool
  | leaf _ value => value.isUnseen
  | group _ _ _ => false

def isIdent : Token → Bool
  | leaf _ (.ident _) => true
  | _ => false

/-- Two neighbours that are not both names. -/
def Apart (before after : Token) : Prop :=
  (before.isIdent && after.isIdent) = false

end Token

/-- A sequence of tokens that is written in blanks. -/
structure Unseen (tokens : List Token) : Prop where
  each : ∀ token ∈ tokens, token.isUnseen = true
  chain : tokens.IsChain Token.Apart

theorem unseen_concat_space {tokens : List Token} {position : Position} {text : Text} :
    Unseen (tokens ++ [.leaf position (.whitespace text)]) ↔ Unseen tokens := by
  constructor
  · exact fun h => ⟨fun token htoken => h.each token (List.mem_append_left _ htoken),
      (List.isChain_append.mp h.chain).1⟩
  · refine fun h => ⟨fun token htoken => ?_, List.isChain_append.mpr ⟨h.chain, .singleton _, ?_⟩⟩
    · obtain htoken | htoken := List.mem_append.mp htoken
      · exact h.each token htoken
      · rw [List.mem_singleton.mp htoken]
        rfl
    · intro before _ after hafter
      obtain rfl : Token.leaf position (.whitespace text) = after := by simpa using hafter
      exact Bool.and_false _

/-! ## Blanks in a name -/

theorem isBlank_of_cssWhitespace {c : Char} (h : isWhitespace c = true) : isBlank c = true := by
  have : (c = ' ' ∨ c = '\n') ∨ c = '\t' := by simpa [isWhitespace] using h
  rcases this with (rfl | rfl) | rfl <;> decide

theorem lt_toNat_of_isNameChar {c : Char} (h : isNameChar c = true) : 0x2C < c.toNat := by
  simp only [isNameChar, isNameStart, isBeyondAscii, Char.isAlpha, Char.isUpper, Char.isLower,
    Char.isDigit, Bool.or_eq_true, Bool.and_eq_true, decide_eq_true_eq, beq_iff_eq,
    UInt32.le_iff_toNat_le, ge_iff_le] at h
  rcases h with ((((⟨h, -⟩ | ⟨h, -⟩) | rfl) | h) | ⟨h, -⟩) | rfl
  · exact lt_of_lt_of_le (by decide) h
  · exact lt_of_lt_of_le (by decide) h
  · decide
  · omega
  · exact lt_of_lt_of_le (by decide) h
  · decide

/-- The blanks among the characters of names are beyond ASCII. -/
theorem not_isBlank_of_isNameChar {c : Char} (h : isNameChar c = true)
    (hascii : isBeyondAscii c = false) : isBlank c = false := by
  have hname := lt_toNat_of_isNameChar h
  simp only [isBeyondAscii, decide_eq_false_iff_not] at hascii
  simp only [isBlank, Bool.or_eq_false_iff, Bool.and_eq_false_imp, decide_eq_true_eq,
    decide_eq_false_iff_not, beq_eq_false_iff_ne]
  omega

/-- A character of a name that stands for itself is a blank beyond ASCII if it is a blank, and an escape is
seen by its backslash. -/
theorem Stands.all_isBlank {text : Text} {c : Char} (h : Stands isNameChar text c)
    (hself : isBeyondAscii c = true → text = [c]) :
    text.all isBlank = (isBeyondAscii c && isBlank c) := by
  cases hbeyond : isBeyondAscii c with
  | true => simp [hself hbeyond]
  | false =>
    obtain ⟨hname, rfl⟩ | ⟨escape, -, rfl⟩ := h
    · simp [not_isBlank_of_isNameChar hname hbeyond]
    · rfl

theorem all_isBlank_encodeNameChar (c : Char) :
    (encodeNameChar c).all isBlank = (isBeyondAscii c && isBlank c) :=
  (stands_encodeNameChar c).all_isBlank fun h => by simp [encodeNameChar, isNameChar, isNameStart, h]

theorem all_isBlank_encodeIdentStart (c : Char) :
    (encodeIdentStart c).all isBlank = (isBeyondAscii c && isBlank c) :=
  (stands_isNameChar_encodeIdentStart c).all_isBlank fun h => by
    simp [encodeIdentStart, isNameStart, h]

theorem all_isBlank_encodeName (name : Text) :
    (encodeName name).all isBlank = name.all fun c => isBeyondAscii c && isBlank c := by
  rw [encodeName, List.all_flatMap]
  simp only [all_isBlank_encodeNameChar]

theorem all_isBlank_encodeIdent (name : Text) :
    (encodeIdent name).all isBlank = name.all fun c => isBeyondAscii c && isBlank c := by
  unfold encodeIdent
  split
  · rfl
  · rfl
  · rfl
  · cases name with
    | nil => rfl
    | cons c cs =>
      rw [encodeIdentTail, List.all_append, all_isBlank_encodeIdentStart, all_isBlank_encodeName,
        List.all_cons]

/-! ## A leaf -/

theorem IsNumeral.not_all_isBlank {numeral : Text} (h : IsNumeral numeral) :
    numeral.all isBlank = false := by
  obtain ⟨d, ds, hd, hnumeral⟩ := h.exists_cons
  have hblank : isBlank d = false := by
    obtain hdigit | rfl := hd
    · exact (by decide : ∀ c ∈ "0123456789".toList, isBlank c = false) d (mem_digits_of_isDigit hdigit)
    · decide
  rcases hnumeral with rfl | rfl | rfl
  · rw [List.all_cons, hblank, Bool.false_and]
  · rfl
  · rfl

theorem Leaf.all_isBlank_write {value : Leaf} (h : value.Sound) :
    value.write.all isBlank = value.isUnseen := by
  cases value with
  | whitespace text => exact List.all_eq_true.mpr fun c hc => isBlank_of_cssWhitespace (h.2 c hc)
  | literal text => rfl
  | comment text => rfl
  | ident name => exact all_isBlank_encodeIdent name
  | atKeyword name => rfl
  | hash name isIdent => rfl
  | string value closed => rfl
  | url value closed => rfl
  | number numeral => exact IsNumeral.not_all_isBlank h
  | percentage numeral =>
    rw [Leaf.write, List.all_append, IsNumeral.not_all_isBlank h]
    rfl
  | dimension numeral unit =>
    rw [Leaf.write, List.all_append, IsNumeral.not_all_isBlank h.1]
    rfl
  | unicodeRange first last =>
    rw [Leaf.write, writeUnicodeRange_eq]
    rfl
  | flaw fault =>
    cases fault with
    | unmatched bracket => cases bracket <;> rfl
    | _ => rfl

/-! ## Neighbours -/

theorem kind_of_isUnseen {token : Token} (h : token.isUnseen = true) :
    (token.isIdent = true ∧ token.kind = .ident) ∨
      (token.isIdent = false ∧
        (token.kind = .other ∨ ∃ text, token.kind = .literal text ∧ text.all isBlank = true)) := by
  cases token with
  | group position opening content => exact absurd h (by simp [Token.isUnseen])
  | leaf position value =>
    cases value with
    | ident name => exact .inl ⟨rfl, rfl⟩
    | whitespace text => exact .inr ⟨rfl, .inl rfl⟩
    | literal text => exact .inr ⟨rfl, .inr ⟨text, rfl, h⟩⟩
    | flaw fault => exact .inr ⟨rfl, .inl rfl⟩
    | _ => exact absurd h (by simp [Token.isUnseen, Leaf.isUnseen])

theorem not_isOneOf_of_blank {text : Text} (h : text.all isBlank = true) (marks : List Char)
    (hmarks : ∀ c ∈ marks, isBlank c = false) : (Kind.literal text).isOneOf marks = false := by
  unfold Kind.isOneOf
  split
  · rename_i c hc
    obtain rfl := Kind.literal.inj hc
    refine Bool.eq_false_iff.mpr fun hmem => ?_
    have hseen := hmarks c (by simpa using hmem)
    simp [hseen] at h
  · rfl

/-- A name is not kept apart from a blank. -/
theorem ident_not_needsComment_of_blank {text : Text} (h : text.all isBlank = true) :
    Kind.ident.needsComment (.literal text) = false := by
  have hhyphen := not_isOneOf_of_blank h ['-'] (by decide)
  have hclosing : (Kind.literal text).isClosingMark = false := by
    refine Bool.eq_false_iff.mpr fun hmark => ?_
    obtain rfl : text = "-->" := by simpa [Kind.isClosingMark] using hmark
    exact absurd h (by decide)
  have hident (marks : List Char) : Kind.ident.isOneOf marks = false := rfl
  simp [Kind.needsComment, Kind.startsLikeIdent, Kind.startsWithNumeral, hhyphen, hclosing, hident]

/-- A blank is not kept apart from anything. -/
theorem blank_not_needsComment {text : Text} (h : text.all isBlank = true) (kind : Kind) :
    (Kind.literal text).needsComment kind = false := by
  have hmarks := not_isOneOf_of_blank h
  simp [Kind.needsComment, Kind.endsInName, hmarks ['#', '-'] (by decide), hmarks ['@'] (by decide),
    hmarks ['.', '+'] (by decide), hmarks ['$', '*', '^', '~', '|'] (by decide),
    hmarks ['|'] (by decide), hmarks ['/'] (by decide)]

/-- Only two names are kept apart. -/
theorem needsComment_of_isUnseen {before after : Token} (hbefore : before.isUnseen = true)
    (hafter : after.isUnseen = true) :
    before.kind.needsComment after.kind = (before.isIdent && after.isIdent) := by
  obtain ⟨hb, hkind⟩ | ⟨hb, hkind | ⟨text, hkind, hblank⟩⟩ := kind_of_isUnseen hbefore
  · obtain ⟨ha, hkind'⟩ | ⟨ha, hkind' | ⟨text', hkind', hblank'⟩⟩ := kind_of_isUnseen hafter
    · rw [hb, ha, hkind, hkind']
      rfl
    · rw [hb, ha, hkind', needsComment_other, Bool.and_false]
    · rw [hb, ha, hkind, hkind', ident_not_needsComment_of_blank hblank', Bool.and_false]
  · rw [hb, hkind, not_needsComment_other, Bool.false_and]
  · rw [hb, hkind, blank_not_needsComment hblank, Bool.false_and]

theorem all_isBlank_separator {before after : Token} (hbefore : before.isUnseen = true)
    (hafter : after.isUnseen = true) :
    (separator (some before.kind) after).all isBlank = true ↔ before.Apart after := by
  have hbackslash : before.kind ≠ .literal ['\\'] := by
    intro hkind
    obtain ⟨-, hident⟩ | ⟨-, hother | ⟨text, hliteral, hblank⟩⟩ := kind_of_isUnseen hbefore
    · exact absurd (hkind.symm.trans hident) (by simp)
    · exact absurd (hkind.symm.trans hother) (by simp)
    · obtain rfl := Kind.literal.inj (hkind.symm.trans hliteral)
      exact absurd hblank (by decide)
  rw [separator, needsComment_of_isUnseen hbefore hafter, Token.Apart]
  cases before.isIdent && after.isIdent with
  | true => exact iff_of_false (by rw [if_pos rfl]; decide) (by simp)
  | false => simp [hbackslash]

/-! ## A sequence -/

theorem Token.all_isBlank_write {token : Token} (h : token.Sound) :
    token.write.all isBlank = token.isUnseen := by
  cases h with
  | leaf position hvalue =>
    rw [Token.write]
    exact Leaf.all_isBlank_write hvalue
  | @group position opening content =>
    cases opening with
    | bracket bracket =>
      rw [Token.write]
      cases bracket <;> rfl
    | function name =>
      rw [Token.write, List.all_append, List.all_append, List.all_cons]
      simp [Token.isUnseen, show isBlank '(' = false from rfl]

theorem blank_writeTokensFrom_iff {before : Token} (hbefore : before.isUnseen = true)
    {tokens : List Token} (hsound : ∀ token ∈ tokens, token.Sound) :
    (writeTokensFrom (some before.kind) tokens).all isBlank = true ↔
      (∀ token ∈ tokens, token.isUnseen = true) ∧ (before :: tokens).IsChain Token.Apart := by
  induction tokens generalizing before with
  | nil => simp [writeTokensFrom]
  | cons token rest ih =>
    obtain ⟨htoken, hrest⟩ := List.forall_mem_cons.mp hsound
    rw [writeTokensFrom, List.all_append, List.all_append, Token.all_isBlank_write htoken,
      List.forall_mem_cons, List.isChain_cons_cons]
    cases hunseen : token.isUnseen with
    | false => simp
    | true =>
      simp only [Bool.and_true, Bool.and_eq_true, all_isBlank_separator hbefore hunseen, ih hunseen hrest]
      tauto

/-- Nothing but blanks is written for a sequence if and only if it is unseen. -/
theorem blank_writeTokens_iff {tokens : List Token} (hsound : ∀ token ∈ tokens, token.Sound) :
    (writeTokens tokens).all isBlank = true ↔ Unseen tokens := by
  cases tokens with
  | nil => exact iff_of_true rfl ⟨by simp, .nil⟩
  | cons token rest =>
    obtain ⟨htoken, hrest⟩ := List.forall_mem_cons.mp hsound
    rw [writeTokens, writeTokensFrom, separator, List.nil_append, List.all_append,
      Token.all_isBlank_write htoken]
    cases hunseen : token.isUnseen with
    | false =>
      exact iff_of_false (by simp) fun h => absurd (h.each token List.mem_cons_self) (by simp [hunseen])
    | true =>
      rw [Bool.true_and, blank_writeTokensFrom_iff hunseen hrest]
      exact ⟨fun h => ⟨List.forall_mem_cons.mpr ⟨hunseen, h.1⟩, h.2⟩,
        fun h => ⟨(List.forall_mem_cons.mp h.each).2, h.chain⟩⟩

end StyleOrigin.Css
