import StyleOrigin.Proofs.Css.Legible

/-! # What is written for sequences of tokens

Sequences of tokens are written one behind the other, and what is put between two tokens depends on the
kind of the first and the start of the second only.

* `writeTokensFrom_append`: what is written for two sequences, one behind the other.
* `separator_eq`: what is put between two tokens of a source.
* `writeTokensFrom_whitespace`: white space in front of a sequence.
* `aired`: tokens with the line feeds that the writer puts behind lone backslashes.
-/
set_option autoImplicit false

namespace StyleOrigin.Css

/-! ## Between two tokens -/

theorem needsComment_other (kind : Kind) : kind.needsComment .other = false := by
  have hmarks (marks : List Char) : Kind.isOneOf marks .other = false := rfl
  simp [Kind.needsComment, Kind.startsLikeIdent, Kind.startsWithNumeral, Kind.isClosingMark, hmarks]

theorem not_needsComment_other (kind : Kind) : Kind.other.needsComment kind = false := by
  simp [Kind.needsComment, Kind.endsInName, Kind.isOneOf]

theorem separator_other (token : Token) : separator (some .other) token = [] := by
  rw [separator, not_needsComment_other]
  rfl

theorem not_needsComment_backslash (kind : Kind) :
    (Kind.literal ['\\']).needsComment kind = false := by
  simp [Kind.needsComment, Kind.isOneOf, Kind.endsInName]

theorem kind_eq_literal_iff {token : Token} {text : Text} :
    token.kind = .literal text ↔ token.isLiteral text = true := by
  constructor
  · intro h
    unfold Token.kind at h
    split at h <;> simp_all [Token.isLiteral]
  · intro h
    unfold Token.isLiteral at h
    split at h
    · rw [beq_iff_eq.mp h]
      rfl
    · exact absurd h (by simp)

theorem separator_backslash {token : Token} (h : token.startsWithLineFeed = false) :
    separator (some (.literal ['\\'])) token = ['\n'] := by
  rw [separator, not_needsComment_backslash, h]
  rfl

/-- What is written in front of a token that a lone backslash may not lead is a comment or nothing. -/
theorem separator_eq {before : Kind} {token : Token}
    (h : before = .literal ['\\'] → token.startsWithLineFeed = true) :
    separator (some before) token =
      if before.needsComment token.kind then ("/**/" : Text) else [] := by
  unfold separator
  simp only
  split
  · rfl
  · rw [if_neg]
    simp only [Bool.and_eq_true, decide_eq_true_eq, Bool.not_eq_true', not_and,
      Bool.not_eq_false]
    exact h

/-- In front of white space or a bracket there is nothing, unless a lone backslash needs a line end. -/
theorem separator_cases {token : Token} (h : token.kind = .other) (before : Option Kind) :
    separator before token = [] ∨ before = some (.literal ['\\']) ∧ separator before token = ['\n'] := by
  cases before with
  | none => exact .inl rfl
  | some kind =>
    by_cases hline : kind = .literal ['\\'] → token.startsWithLineFeed = true
    · rw [separator_eq hline, h, needsComment_other]
      exact .inl rfl
    · obtain ⟨rfl, hfeed⟩ := Classical.not_imp.mp hline
      exact .inr ⟨rfl, separator_backslash (Bool.eq_false_iff.mpr hfeed)⟩

theorem Token.Leads.lineFeed {before token : Token} (h : before.Leads token)
    (hkind : before.kind = .literal ['\\']) : token.startsWithLineFeed = true :=
  h (kind_eq_literal_iff.mp hkind)

theorem head_of_startsWithLineFeed {token : Token} (h : token.startsWithLineFeed = true)
    (rest : Text) : (token.write ++ rest).head? = some '\n' := by
  unfold Token.startsWithLineFeed at h
  split at h
  · simp [Token.write, Leaf.write]
  · exact absurd h (by decide)

/-! ## Sequences -/

/-- The kind of the last token, if there is one, or else of what stands in front. -/
def kindAfter : Option Kind → List Token → Option Kind
  | before, [] => before
  | _, token :: rest => kindAfter (some token.kind) rest

theorem kindAfter_concat (before : Option Kind) (front : List Token) (token : Token) :
    kindAfter before (front ++ [token]) = some token.kind := by
  induction front generalizing before with
  | nil => rfl
  | cons first front ih => exact ih _

theorem writeTokensFrom_append (before : Option Kind) (front back : List Token) :
    writeTokensFrom before (front ++ back) =
      writeTokensFrom before front ++ writeTokensFrom (kindAfter before front) back := by
  induction front generalizing before with
  | nil => rfl
  | cons token front ih =>
    rw [List.cons_append, writeTokensFrom, writeTokensFrom, ih, kindAfter, List.append_assoc _ _ (_ ++ _),
      List.append_assoc, List.append_assoc]

theorem writeTokensFrom_other (tokens : List Token) :
    writeTokensFrom (some .other) tokens = writeTokensFrom none tokens := by
  cases tokens with
  | nil => rfl
  | cons token rest =>
    rw [writeTokensFrom, writeTokensFrom, separator_other]
    rfl

theorem writeTokensFrom_whitespace {before : Option Kind} (h : before ≠ some (.literal ['\\']))
    (position : Position) (gap : Text) (rest : List Token) :
    writeTokensFrom before (.leaf position (.whitespace gap) :: rest) =
      gap ++ writeTokensFrom none rest := by
  have hkind : (Token.leaf position (.whitespace gap)).kind = .other := rfl
  obtain hnone | ⟨hbefore, -⟩ := separator_cases hkind before
  · rw [writeTokensFrom, hnone, hkind, writeTokensFrom_other]
    rfl
  · exact absurd hbefore h

theorem length_writeTokens_le (before : Option Kind) (tokens : List Token) :
    (writeTokens tokens).length ≤ (writeTokensFrom before tokens).length := by
  cases tokens with
  | nil => simp [writeTokens, writeTokensFrom]
  | cons token rest =>
    rw [writeTokens, writeTokensFrom, writeTokensFrom]
    simp [separator]

theorem length_writeTokens_suffix {tail tokens : List Token} (h : tail <:+ tokens) :
    (writeTokens tail).length ≤ (writeTokens tokens).length := by
  obtain ⟨front, rfl⟩ := h
  rw [writeTokens, writeTokens, writeTokensFrom_append, List.length_append]
  exact Nat.le_trans (length_writeTokens_le _ tail) (Nat.le_add_left _ _)

/-! ## Line feeds behind backslashes -/

/-- One line feed. -/
def lineFeed : Token :=
  .leaf .start (.whitespace ['\n'])

/-- Tokens with the line feeds that the writer puts behind lone backslashes. -/
def aired : List Token → List Token
  | [] => []
  | [token] => [token]
  | token :: next :: rest =>
    if token.isLiteral ['\\'] && !next.startsWithLineFeed then token :: lineFeed :: aired (next :: rest)
    else token :: aired (next :: rest)

theorem exists_cons_aired (token : Token) (rest : List Token) :
    ∃ others, aired (token :: rest) = token :: others := by
  cases rest with
  | nil => exact ⟨[], rfl⟩
  | cons next rest =>
    rw [aired]
    split
    · exact ⟨_, rfl⟩
    · exact ⟨_, rfl⟩

theorem mem_aired {tokens : List Token} {token : Token} (h : token ∈ aired tokens) :
    token ∈ tokens ∨ token = lineFeed := by
  induction tokens using aired.induct with
  | case1 => exact .inl h
  | case2 first => exact .inl h
  | case3 first next rest hair ih =>
    rw [aired, if_pos hair] at h
    obtain rfl | h := List.mem_cons.mp h
    · exact .inl List.mem_cons_self
    obtain rfl | h := List.mem_cons.mp h
    · exact .inr rfl
    · exact (ih h).imp_left (List.mem_cons_of_mem _)
  | case4 first next rest hair ih =>
    rw [aired, if_neg hair] at h
    obtain rfl | h := List.mem_cons.mp h
    · exact .inl List.mem_cons_self
    · exact (ih h).imp_left (List.mem_cons_of_mem _)

theorem chain_aired (tokens : List Token) : (aired tokens).IsChain Token.Leads := by
  induction tokens using aired.induct with
  | case1 => exact .nil
  | case2 first => exact .singleton first
  | case3 first next rest hair ih =>
    rw [aired, if_pos hair]
    obtain ⟨others, hothers⟩ := exists_cons_aired next rest
    rw [hothers] at ih ⊢
    refine .cons_cons (fun _ => rfl) (.cons_cons (fun hliteral => ?_) ih)
    exact absurd hliteral (by simp [lineFeed, Token.isLiteral])
  | case4 first next rest hair ih =>
    rw [aired, if_neg hair]
    obtain ⟨others, hothers⟩ := exists_cons_aired next rest
    rw [hothers] at ih ⊢
    refine .cons_cons (fun hliteral => ?_) ih
    simpa [hliteral] using hair

theorem writeTokensFrom_aired (before : Option Kind) (tokens : List Token) :
    writeTokensFrom before (aired tokens) = writeTokensFrom before tokens := by
  induction tokens using aired.induct generalizing before with
  | case1 => rfl
  | case2 first => rfl
  | case3 first next rest hair ih =>
    obtain ⟨hliteral, hline⟩ : first.isLiteral ['\\'] = true ∧ next.startsWithLineFeed = false := by
      simpa using hair
    have hfeed : writeTokensFrom (some (.literal ['\\'])) (lineFeed :: aired (next :: rest)) =
        '\n' :: writeTokensFrom none (next :: rest) := by
      rw [writeTokensFrom, show lineFeed.kind = .other from rfl, ih, writeTokensFrom_other]
      rfl
    have hfirst : ∀ behind, writeTokensFrom before (first :: behind) = separator before first ++
        first.write ++ writeTokensFrom (some (.literal ['\\'])) behind := by
      intro behind
      rw [writeTokensFrom, kind_eq_literal_iff.mpr hliteral]
    rw [aired, if_pos hair, hfirst, hfirst, hfeed, writeTokensFrom, writeTokensFrom,
      separator_backslash hline]
    rfl
  | case4 first next rest hair ih =>
    rw [aired, if_neg hair, writeTokensFrom, writeTokensFrom, ih]

theorem getLast_aired (tokens : List Token) : (aired tokens).getLast? = tokens.getLast? := by
  induction tokens using aired.induct with
  | case1 => rfl
  | case2 first => rfl
  | case3 first next rest hair ih =>
    obtain ⟨others, hothers⟩ := exists_cons_aired next rest
    rw [aired, if_pos hair, List.getLast?_cons_cons, hothers, List.getLast?_cons_cons, ← hothers, ih,
      List.getLast?_cons_cons]
  | case4 first next rest hair ih =>
    obtain ⟨others, hothers⟩ := exists_cons_aired next rest
    rw [aired, if_neg hair, hothers, List.getLast?_cons_cons, ← hothers, ih, List.getLast?_cons_cons]

end StyleOrigin.Css
