import StyleOrigin.Media.Block
import StyleOrigin.Proofs.Css.Distillation

/-! # Nodes and the tokens they are made of

Rules are made of consecutive tokens, and what reading again may change of tokens changes nothing about
where rules begin and end.

* `Node.distil`, `nodesFrom_distil`: the nodes of distilled tokens are the distilled nodes.
* `Node.StandsIn`, `standsIn_of_mem_nodesFrom`: the tokens of a node stand in the tokens it is made of.
* `nodesFrom_styleRule`, `nodesFrom_atRule`: the node that a prelude and a block make.
-/
set_option autoImplicit false

namespace StyleOrigin.Css

/-! ## Distilled nodes -/

def Rule.distil (rule : Rule) : Rule :=
  ⟨.start, Css.distil rule.prelude, Css.distil rule.body⟩

def AtRule.distil (rule : AtRule) : AtRule :=
  ⟨.start, rule.keyword, Css.distil rule.prelude, rule.body.map Css.distil⟩

def Node.distil : Node → Node
  | .styleRule rule => .styleRule rule.distil
  | .atRule rule => .atRule rule.distil
  | .blockless _ => .blockless .start

theorem position_of_mem_distil {tokens : List Token} {token : Token} (h : token ∈ distil tokens) :
    token.position = .start := by
  induction tokens with
  | nil => exact absurd h (by simp [distil])
  | cons first rest ih =>
    rw [distil] at h
    obtain h | h := List.mem_append.mp h
    · cases first with
      | leaf position value =>
        obtain ⟨_, _, rfl⟩ := List.mem_map.mp h
        rfl
      | group position opening content =>
        obtain rfl := List.mem_singleton.mp h
        rfl
    · exact ih h

/-! ## A distilled token -/

/-- What a rule reader sees of a token that is no gap, before and after it is distilled. -/
structure Token.Settles (token other : Token) : Prop where
  gap : other.isGap = false
  position : other.position = .start
  literal : ∀ text, other.isLiteral text = token.isLiteral text
  curly : other.curlyContent? = token.curlyContent?.map Css.distil

/-- A gap is distilled to gaps, and any other token to one token. -/
theorem Token.distil_cases (token : Token) :
    (token.isGap = true ∧ ∀ other ∈ token.distil, other.isGap = true) ∨
      (token.isGap = false ∧ ∃ other, token.distil = [other] ∧ token.Settles other) := by
  cases token with
  | group position opening content =>
    refine .inr ⟨rfl, _, rfl, ⟨rfl, rfl, fun _ => rfl, ?_⟩⟩
    cases opening with
    | bracket bracket => cases bracket <;> rfl
    | function name => rfl
  | leaf position value =>
    cases value with
    | whitespace gap =>
      refine .inl ⟨rfl, fun other hother => ?_⟩
      rw [distil_whitespace] at hother
      obtain ⟨_, _, rfl⟩ := List.mem_map.mp hother
      rfl
    | comment text => exact .inl ⟨rfl, by simp [Token.distil, Leaf.distil]⟩
    | _ => exact .inr ⟨rfl, _, rfl, ⟨rfl, rfl, fun _ => rfl, rfl⟩⟩

/-- The two classes of tokens that are passed over between rules. -/
def SkipsGaps (skips : Token → Bool) : Prop :=
  skips = Token.isGap ∨ skips = isPassedAtTop

theorem SkipsGaps.of_isGap {skips : Token → Bool} (h : SkipsGaps skips) {token : Token}
    (hgap : token.isGap = true) : skips token = true := by
  rcases h with rfl | rfl <;> simp [isPassedAtTop, hgap]

theorem SkipsGaps.settles {skips : Token → Bool} (h : SkipsGaps skips) {token other : Token}
    (hgap : token.isGap = false) (hsettles : token.Settles other) : skips other = skips token := by
  rcases h with rfl | rfl <;> simp [isPassedAtTop, hgap, hsettles.gap, hsettles.literal]

/-! ## Rules that have begun -/

namespace Pending

def keyword? : Pending → Option Text
  | styleRule _ _ _ => none
  | atRule _ keyword _ => some keyword

def position : Pending → Position
  | styleRule position _ _ => position
  | atRule position _ _ => position

/-- The tokens of a prelude, newest first. -/
def newest : Pending → List Token
  | styleRule _ last before => last :: before
  | atRule _ _ prelude => prelude

/-- A rule that has begun, and the same rule in distilled tokens. -/
structure Settles (pending other : Pending) : Prop where
  keyword : other.keyword? = pending.keyword?
  position : other.position = .start
  newest : other.newest = distilReversed pending.newest

theorem newest_push (token : Token) (pending : Pending) :
    (pending.push token).newest = token :: pending.newest := by
  cases pending <;> rfl

theorem keyword_push (token : Token) (pending : Pending) :
    (pending.push token).keyword? = pending.keyword? := by
  cases pending <;> rfl

theorem position_push (token : Token) (pending : Pending) :
    (pending.push token).position = pending.position := by
  cases pending <;> rfl

def pushAll (tokens : List Token) (pending : Pending) : Pending :=
  tokens.foldl (fun pending token => pending.push token) pending

theorem newest_pushAll (tokens : List Token) (pending : Pending) :
    (pending.pushAll tokens).newest = tokens.reverse ++ pending.newest := by
  induction tokens generalizing pending with
  | nil => rfl
  | cons token rest ih =>
    rw [pushAll, List.foldl_cons, ← pushAll, ih, newest_push]
    simp

theorem keyword_pushAll (tokens : List Token) (pending : Pending) :
    (pending.pushAll tokens).keyword? = pending.keyword? := by
  induction tokens generalizing pending with
  | nil => rfl
  | cons token rest ih => rw [pushAll, List.foldl_cons, ← pushAll, ih, keyword_push]

theorem position_pushAll (tokens : List Token) (pending : Pending) :
    (pending.pushAll tokens).position = pending.position := by
  induction tokens generalizing pending with
  | nil => rfl
  | cons token rest ih => rw [pushAll, List.foldl_cons, ← pushAll, ih, position_push]

theorem Settles.push {pending other : Pending} (h : pending.Settles other) (token : Token) :
    (pending.push token).Settles (other.pushAll token.distil) where
  keyword := by rw [keyword_pushAll, keyword_push, h.keyword]
  position := by rw [position_pushAll, h.position]
  newest := by rw [newest_pushAll, newest_push, distilReversed_cons, h.newest]

/-- A rule that has begun and its distilled form are rules of one kind. -/
theorem Settles.cases {pending other : Pending} (h : pending.Settles other) :
    (∃ position last before last' before', pending = .styleRule position last before ∧
        other = .styleRule .start last' before' ∧
        distil (last :: before).reverse = (last' :: before').reverse) ∨
      ∃ position keyword prelude prelude', pending = .atRule position keyword prelude ∧
        other = .atRule .start keyword prelude' ∧ distil prelude.reverse = prelude'.reverse := by
  obtain ⟨hkeyword, hposition, hnewest⟩ := h
  have hprelude : distil pending.newest.reverse = other.newest.reverse := by
    rw [hnewest, distilReversed, List.reverse_reverse]
  cases pending with
  | styleRule position last before =>
    cases other with
    | atRule => exact absurd hkeyword (by simp [Pending.keyword?])
    | styleRule position' last' before' =>
      obtain rfl : position' = .start := hposition
      exact .inl ⟨_, _, _, _, _, rfl, rfl, hprelude⟩
  | atRule position keyword prelude =>
    cases other with
    | styleRule => exact absurd hkeyword (by simp [Pending.keyword?])
    | atRule position' keyword' prelude' =>
      obtain rfl : position' = .start := hposition
      obtain rfl : keyword' = keyword := by simpa [Pending.keyword?] using hkeyword
      exact .inr ⟨_, _, _, _, rfl, rfl, hprelude⟩

theorem Settles.complete {pending other : Pending} (h : pending.Settles other) (body : List Token) :
    other.complete (distil body) = (pending.complete body).distil := by
  obtain ⟨_, _, _, _, _, rfl, rfl, hprelude⟩ | ⟨_, _, _, _, rfl, rfl, hprelude⟩ := h.cases
  · simp only [Pending.complete, Node.distil, Rule.distil, hprelude]
  · simp only [Pending.complete, Node.distil, AtRule.distil, hprelude, Option.map_some]

theorem Settles.abandon {pending other : Pending} (h : pending.Settles other) :
    other.abandon = pending.abandon.distil := by
  obtain ⟨_, last, before, last', before', rfl, rfl, hprelude⟩ |
    ⟨_, _, _, _, rfl, rfl, hprelude⟩ := h.cases
  · have hlast : last' ∈ distil (last :: before).reverse := by
      rw [hprelude]
      simp
    simp only [Pending.abandon, Node.distil, position_of_mem_distil hlast]
  · simp only [Pending.abandon, Node.distil, AtRule.distil, hprelude, Option.map_none]

theorem Settles.completedBy {pending other : Pending} (h : pending.Settles other)
    {token settled : Token} (hliteral : settled.isLiteral ";" = token.isLiteral ";") :
    other.completedBy? settled = (pending.completedBy? token).map Node.distil := by
  obtain ⟨_, _, _, _, _, rfl, rfl, _⟩ | ⟨_, _, _, _, rfl, rfl, hprelude⟩ := h.cases
  · rfl
  · simp only [Pending.completedBy?, hliteral]
    split
    · simp only [Option.map_some, Node.distil, AtRule.distil, hprelude, Option.map_none]
    · rfl

theorem completedBy_eq_none_iff {pending : Pending} {token : Token} :
    pending.completedBy? token = none ↔
      (pending.keyword?.isSome = true → token.isLiteral ";" = false) := by
  cases pending with
  | styleRule position last before => simp [Pending.completedBy?, Pending.keyword?]
  | atRule position keyword prelude => simp [Pending.completedBy?, Pending.keyword?]

/-- A token completes an at-rule only, which has no block then. -/
theorem eq_atRule_of_completedBy {pending : Pending} {token : Token} {node : Node}
    (h : pending.completedBy? token = some node) :
    ∃ position keyword prelude, node = .atRule ⟨position, keyword, prelude, none⟩ := by
  cases pending with
  | styleRule position last before => exact absurd h (by simp [Pending.completedBy?])
  | atRule position keyword prelude =>
    simp only [Pending.completedBy?] at h
    split at h
    · exact ⟨position, keyword, _, (Option.some.inj h).symm⟩
    · exact absurd h (by simp)

theorem settles_begin {token other : Token} (hgap : token.isGap = false)
    (h : token.distil = [other]) : (begin token).Settles (begin other) := by
  have hnewest : [other] = distilReversed [token] := by
    rw [distilReversed_cons, h]
    rfl
  cases token with
  | group position opening content =>
    obtain rfl : Token.group .start opening (distil content) = other := List.singleton_inj.mp h
    exact ⟨rfl, rfl, hnewest⟩
  | leaf position value =>
    cases value with
    | whitespace gap => exact absurd hgap (by simp [Token.isGap])
    | comment text => exact absurd hgap (by simp [Token.isGap])
    | atKeyword keyword =>
      obtain rfl : Token.leaf .start (.atKeyword keyword) = other := List.singleton_inj.mp h
      exact ⟨rfl, rfl, rfl⟩
    | _ =>
      obtain rfl := List.singleton_inj.mp h
      exact ⟨rfl, rfl, hnewest⟩

end Pending

/-! ## Nodes of distilled tokens -/

theorem nodesFrom_skip {skips : Token → Bool} {tokens : List Token}
    (h : ∀ token ∈ tokens, skips token = true) (rest : List Token) :
    nodesFrom skips none (tokens ++ rest) = nodesFrom skips none rest := by
  induction tokens with
  | nil => rfl
  | cons token tokens ih =>
    obtain ⟨htoken, htokens⟩ := List.forall_mem_cons.mp h
    rw [List.cons_append, nodesFrom, if_pos htoken, ih htokens]

/-- Tokens that complete no rule join the prelude of the rule that has begun. -/
theorem nodesFrom_pushAll {skips : Token → Bool} {tokens : List Token} {pending : Pending}
    (hcurly : ∀ token ∈ tokens, token.curlyContent? = none)
    (hends : pending.keyword?.isSome = true → ∀ token ∈ tokens, token.isLiteral ";" = false)
    (rest : List Token) :
    nodesFrom skips (some pending) (tokens ++ rest) =
      nodesFrom skips (some (pending.pushAll tokens)) rest := by
  induction tokens generalizing pending with
  | nil => rfl
  | cons token tokens ih =>
    obtain ⟨hfirst, hothers⟩ := List.forall_mem_cons.mp hcurly
    have hcompleted := Pending.completedBy_eq_none_iff.mpr fun hkeyword =>
      hends hkeyword token List.mem_cons_self
    rw [List.cons_append, nodesFrom, hfirst, hcompleted]
    refine ih hothers fun hkeyword next hnext => ?_
    rw [Pending.keyword_push] at hkeyword
    exact hends hkeyword next (List.mem_cons_of_mem _ hnext)

theorem gap_completes_nothing {token : Token} (h : token.isGap = true) :
    token.curlyContent? = none ∧ ∀ text, token.isLiteral text = false := by
  unfold Token.isGap at h
  split at h
  · exact ⟨rfl, fun _ => rfl⟩
  · exact ⟨rfl, fun _ => rfl⟩
  · exact absurd h (by simp)

/-- The nodes of distilled tokens are the distilled nodes. -/
theorem nodesFrom_distil {skips : Token → Bool} (hskips : SkipsGaps skips) (tokens : List Token) :
    nodesFrom skips none (distil tokens) = (nodesFrom skips none tokens).map Node.distil ∧
      ∀ pending other : Pending, pending.Settles other →
        nodesFrom skips (some other) (distil tokens) =
          (nodesFrom skips (some pending) tokens).map Node.distil := by
  induction tokens with
  | nil => exact ⟨rfl, fun pending other h => congrArg (fun node => [node]) h.abandon⟩
  | cons token rest ih =>
    obtain ⟨hnone, hsome⟩ := ih
    obtain ⟨hgap, hgaps⟩ | ⟨hgap, settled, hsettled, hsettles⟩ := token.distil_cases
    · obtain ⟨hcurly, hliteral⟩ := gap_completes_nothing hgap
      constructor
      · rw [distil, nodesFrom_skip fun other hother => hskips.of_isGap (hgaps other hother), hnone,
          nodesFrom, if_pos (hskips.of_isGap hgap)]
      · intro pending other h
        have hcompleted : pending.completedBy? token = none :=
          Pending.completedBy_eq_none_iff.mpr fun _ => hliteral _
        rw [distil, nodesFrom_pushAll (fun next hnext => (gap_completes_nothing (hgaps next hnext)).1)
          (fun _ next hnext => (gap_completes_nothing (hgaps next hnext)).2 _),
          hsome _ _ (h.push token), nodesFrom, hcurly, hcompleted]
    · have hcons : distil (token :: rest) = settled :: distil rest := by
        rw [distil, hsettled]
        rfl
      constructor
      · rw [hcons, nodesFrom, nodesFrom, hskips.settles hgap hsettles, hsettles.curly, hnone,
          hsettles.position]
        split
        · rfl
        · cases token.curlyContent? with
          | none => exact hsome _ _ (Pending.settles_begin hgap hsettled)
          | some body => rfl
      · intro pending other h
        have hpush := h.push token
        rw [hsettled] at hpush
        rw [hcons, nodesFrom, nodesFrom, hsettles.curly, h.completedBy (hsettles.literal _), hnone]
        cases token.curlyContent? with
        | some body =>
          simp only [Option.map_some, List.map_cons]
          rw [h.complete]
        | none =>
          simp only [Option.map_none]
          cases pending.completedBy? token with
          | none => exact hsome _ _ hpush
          | some node => rfl

/-! ## Where nodes stand -/

/-- The tokens of a node stand one after the other in a sequence. -/
def Node.StandsIn (tokens : List Token) : Node → Prop
  | .styleRule rule => (∀ token ∈ rule.prelude, token.curlyContent? = none) ∧
      ∃ front position back, tokens =
        front ++ (rule.prelude ++ .group position (.bracket .curly) rule.body :: back)
  | .atRule rule => ∀ body, rule.body = some body → ∃ front keyword position back, tokens =
      front ++ (keyword :: rule.prelude ++ .group position (.bracket .curly) body :: back)
  | .blockless _ => True

/-- The tokens of a rule that has begun. -/
def Pending.begun : Pending → List Token
  | styleRule _ last before => (last :: before).reverse
  | atRule position keyword prelude => .leaf position (.atKeyword keyword) :: prelude.reverse

theorem Node.StandsIn.append {tokens : List Token} {node : Node} (h : node.StandsIn tokens)
    (front : List Token) : node.StandsIn (front ++ tokens) := by
  cases node with
  | styleRule rule =>
    obtain ⟨hcurly, before, position, back, heq⟩ := h
    exact ⟨hcurly, front ++ before, position, back, by rw [heq, List.append_assoc]⟩
  | atRule rule =>
    intro body hbody
    obtain ⟨before, keyword, position, back, heq⟩ := h body hbody
    exact ⟨front ++ before, keyword, position, back, by rw [heq, List.append_assoc]⟩
  | blockless position => trivial

theorem curlyContent_eq_some {token : Token} {body : List Token}
    (h : token.curlyContent? = some body) :
    ∃ position, token = .group position (.bracket .curly) body := by
  unfold Token.curlyContent? at h
  split at h
  · exact ⟨_, by rw [Option.some.inj h]⟩
  · exact absurd h (by simp)

theorem Pending.begun_push (token : Token) (pending : Pending) :
    (pending.push token).begun = pending.begun ++ [token] := by
  cases pending <;> simp [Pending.push, Pending.begun]

theorem Pending.begun_begin (token : Token) : (Pending.begin token).begun = [token] := by
  unfold Pending.begin
  split <;> rfl

theorem Pending.eq_of_mem_newest_begin {token next : Token}
    (h : next ∈ (Pending.begin token).newest) : next = token := by
  unfold Pending.begin at h
  split at h
  · exact absurd h (by simp [Pending.newest])
  · exact List.mem_singleton.mp h

theorem Pending.standsIn_complete {pending : Pending} {token : Token} {body : List Token}
    (hcurly : ∀ next ∈ pending.newest, next.curlyContent? = none)
    (htoken : token.curlyContent? = some body) (rest : List Token) :
    (pending.complete body).StandsIn (pending.begun ++ token :: rest) := by
  obtain ⟨place, rfl⟩ := curlyContent_eq_some htoken
  cases pending with
  | styleRule position last before =>
    exact ⟨fun next hnext => hcurly next (List.mem_reverse.mp hnext), [], place, rest, rfl⟩
  | atRule position keyword prelude =>
    intro found hfound
    obtain rfl : body = found := Option.some.inj hfound
    exact ⟨[], _, place, rest, rfl⟩

theorem Pending.standsIn_completedBy {pending : Pending} {token : Token} {node : Node}
    (h : pending.completedBy? token = some node) (tokens : List Token) : node.StandsIn tokens := by
  obtain ⟨position, keyword, prelude, rfl⟩ := Pending.eq_atRule_of_completedBy h
  exact fun body hbody => absurd hbody (by simp)

theorem Pending.standsIn_abandon (pending : Pending) (tokens : List Token) :
    pending.abandon.StandsIn tokens := by
  cases pending with
  | styleRule position last before => trivial
  | atRule position keyword prelude => exact fun body hbody => absurd hbody (by simp)

/-- The nodes of a sequence of tokens stand in it. -/
theorem standsIn_of_mem_nodesFrom {skips : Token → Bool} {tokens : List Token} :
    (∀ node ∈ nodesFrom skips none tokens, node.StandsIn tokens) ∧
      ∀ pending : Pending, (∀ token ∈ pending.newest, token.curlyContent? = none) →
        ∀ node ∈ nodesFrom skips (some pending) tokens, node.StandsIn (pending.begun ++ tokens) := by
  induction tokens with
  | nil =>
    refine ⟨by simp [nodesFrom], fun pending _ node hnode => ?_⟩
    obtain rfl := List.mem_singleton.mp hnode
    exact pending.standsIn_abandon _
  | cons token rest ih =>
    obtain ⟨hnone, hsome⟩ := ih
    have hrest : ∀ front, ∀ node ∈ nodesFrom skips none rest, node.StandsIn (front ++ token :: rest) := by
      intro front node hnode
      have h := (hnone node hnode).append (front ++ [token])
      rwa [List.append_assoc] at h
    constructor
    · intro node hnode
      rw [nodesFrom] at hnode
      split at hnode
      · exact hrest [] node hnode
      · split at hnode
        · rename_i body hbody
          obtain rfl | hnode := List.mem_cons.mp hnode
          · obtain ⟨place, rfl⟩ := curlyContent_eq_some hbody
            exact ⟨by simp, [], place, rest, rfl⟩
          · exact hrest [] node hnode
        · rename_i hbody
          have hbegin : ∀ next ∈ (Pending.begin token).newest, next.curlyContent? = none := by
            intro next hnext
            obtain rfl := Pending.eq_of_mem_newest_begin hnext
            exact hbody
          have h := hsome (.begin token) hbegin node hnode
          rwa [Pending.begun_begin] at h
    · intro pending hcurly node hnode
      rw [nodesFrom] at hnode
      split at hnode
      · rename_i body hbody
        obtain rfl | hnode := List.mem_cons.mp hnode
        · exact Pending.standsIn_complete hcurly hbody rest
        · exact hrest _ node hnode
      · rename_i hbody
        split at hnode
        · rename_i made hmade
          obtain rfl | hnode := List.mem_cons.mp hnode
          · exact Pending.standsIn_completedBy hmade _
          · exact hrest _ node hnode
        · have hpush : ∀ next ∈ (pending.push token).newest, next.curlyContent? = none := by
            rw [Pending.newest_push]
            exact List.forall_mem_cons.mpr ⟨hbody, hcurly⟩
          have h := hsome _ hpush node hnode
          rwa [Pending.begun_push, List.append_assoc] at h

/-! ## Nodes of a prelude and a block -/

def Token.isAtKeyword : Token → Bool
  | .leaf _ (.atKeyword _) => true
  | _ => false

theorem Token.eq_of_isAtKeyword {token : Token} (h : token.isAtKeyword = true) :
    ∃ position keyword, token = .leaf position (.atKeyword keyword) := by
  unfold Token.isAtKeyword at h
  split at h
  · exact ⟨_, _, rfl⟩
  · exact absurd h (by simp)

theorem Pending.begin_of_not_atKeyword {token : Token} (h : token.isAtKeyword = false) :
    Pending.begin token = .styleRule token.position token [] := by
  unfold Pending.begin
  split
  · exact absurd h (by simp [Token.isAtKeyword])
  · rfl

theorem Pending.complete_eq (pending : Pending) (body : List Token) :
    pending.complete body = match pending.keyword? with
      | none => .styleRule ⟨pending.position, pending.newest.reverse, body⟩
      | some keyword => .atRule ⟨pending.position, keyword, pending.newest.reverse, some body⟩ := by
  cases pending <;> rfl

theorem Pending.complete_pushAll (pending : Pending) (tokens body : List Token) :
    (pending.pushAll tokens).complete body = match pending.keyword? with
      | none => .styleRule ⟨pending.position, pending.newest.reverse ++ tokens, body⟩
      | some keyword => .atRule ⟨pending.position, keyword, pending.newest.reverse ++ tokens,
          some body⟩ := by
  rw [complete_eq, keyword_pushAll, position_pushAll, newest_pushAll, List.reverse_append,
    List.reverse_reverse]

/-- A prelude without a block that begins with neither a gap nor an at-keyword, and a block, make one
style rule. -/
theorem nodesFrom_styleRule {skips : Token → Bool} {first : Token} {others : List Token}
    (hskips : skips first = false) (hkeyword : first.isAtKeyword = false)
    (hcurly : ∀ token ∈ first :: others, token.curlyContent? = none) (position : Position)
    (body rest : List Token) :
    nodesFrom skips none (first :: (others ++ .group position (.bracket .curly) body :: rest)) =
      .styleRule ⟨first.position, first :: others, body⟩ :: nodesFrom skips none rest := by
  obtain ⟨hfirst, hothers⟩ := List.forall_mem_cons.mp hcurly
  rw [nodesFrom, hskips, if_neg Bool.false_ne_true, hfirst,
    Pending.begin_of_not_atKeyword hkeyword]
  simp only
  rw [nodesFrom_pushAll hothers fun h => absurd h (by simp [Pending.keyword?]), nodesFrom,
    Token.curlyContent?]
  simp only [Pending.complete_pushAll]
  rfl

/-- An at-keyword, a prelude without a block or a semicolon, and a block make one at-rule. -/
theorem nodesFrom_atRule {skips : Token → Bool} (hskips : SkipsGaps skips) {prelude : List Token}
    (hcurly : ∀ token ∈ prelude, token.curlyContent? = none)
    (hends : ∀ token ∈ prelude, token.isLiteral ";" = false) (place position : Position)
    (keyword : Text) (body rest : List Token) :
    nodesFrom skips none (.leaf place (.atKeyword keyword) ::
        (prelude ++ .group position (.bracket .curly) body :: rest)) =
      .atRule ⟨place, keyword, prelude, some body⟩ :: nodesFrom skips none rest := by
  have hkeyword : skips (.leaf place (.atKeyword keyword)) = false := by
    rcases hskips with rfl | rfl <;> rfl
  rw [nodesFrom, hkeyword, if_neg Bool.false_ne_true, Token.curlyContent?, Pending.begin]
  · simp only
    rw [nodesFrom_pushAll hcurly fun _ => hends, nodesFrom, Token.curlyContent?]
    simp only [Pending.complete_pushAll]
    rfl
  · simp

/-! ## What a block makes of any prelude -/

/-- The tokens of a style rule that has begun. -/
def Pending.ofStyle : Pending → List Token
  | styleRule _ last before => (last :: before).reverse
  | atRule _ _ _ => []

/-- The style rules of a sequence of nodes. -/
def rulesOf (nodes : List Node) : List Rule :=
  nodes.filterMap Node.rule?

theorem mem_rulesOf {nodes : List Node} {rule : Rule} :
    rule ∈ rulesOf nodes ↔ .styleRule rule ∈ nodes := by
  rw [rulesOf, List.mem_filterMap]
  constructor
  · rintro ⟨node, hnode, hrule⟩
    cases node with
    | styleRule found =>
      obtain rfl := Option.some.inj hrule
      exact hnode
    | atRule found => exact absurd hrule (by simp [Node.rule?])
    | blockless position => exact absurd hrule (by simp [Node.rule?])
  · exact fun h => ⟨_, h, rfl⟩

theorem rulesOf_distil (nodes : List Node) :
    rulesOf (nodes.map Node.distil) = (rulesOf nodes).map Rule.distil := by
  induction nodes with
  | nil => rfl
  | cons node nodes ih =>
    cases node with
    | styleRule rule => exact congrArg (rule.distil :: ·) ih
    | atRule rule => exact ih
    | blockless position => exact ih

/-- Nodes with at most one style rule, whose prelude ends a sequence. -/
def AtMostEnd (made : List Node) (prelude body : List Token) : Prop :=
  rulesOf made = [] ∨ ∃ position tail, tail <:+ prelude ∧ rulesOf made = [⟨position, tail, body⟩]

theorem AtMostEnd.of_suffix {made : List Node} {prelude longer body : List Token}
    (h : AtMostEnd made prelude body) (hsuffix : prelude <:+ longer) : AtMostEnd made longer body :=
  h.imp_right fun ⟨position, tail, htail, hrules⟩ => ⟨position, tail, htail.trans hsuffix, hrules⟩

theorem AtMostEnd.append {made : List Node} {prelude body : List Token}
    (h : AtMostEnd made prelude body) (front : List Token) : AtMostEnd made (front ++ prelude) body :=
  h.of_suffix (List.suffix_append front prelude)

theorem atMostEnd_complete (pending : Pending) (body : List Token) :
    AtMostEnd [pending.complete body] pending.ofStyle body := by
  cases pending with
  | styleRule position last before => exact .inr ⟨position, _, List.suffix_rfl, rfl⟩
  | atRule position keyword prelude => exact .inl rfl

theorem ofStyle_push_suffix (token : Token) (pending : Pending) (rest : List Token) :
    (pending.push token).ofStyle ++ rest <:+ pending.ofStyle ++ token :: rest := by
  cases pending with
  | styleRule position last before =>
    simp [Pending.push, Pending.ofStyle]
  | atRule position keyword prelude => exact List.suffix_cons token rest

theorem rule_of_completedBy {pending : Pending} {token : Token} {node : Node}
    (h : pending.completedBy? token = some node) : node.rule? = none := by
  obtain ⟨position, keyword, prelude, rfl⟩ := Pending.eq_atRule_of_completedBy h
  rfl

theorem ofStyle_begin_suffix (token : Token) (rest : List Token) :
    (Pending.begin token).ofStyle ++ rest <:+ token :: rest := by
  unfold Pending.begin
  split
  · exact List.suffix_cons _ rest
  · exact List.suffix_rfl

/-- A prelude without a block, and a block, make at most one style rule; its prelude is an end of the
given one. Behind the block, rules begin anew. -/
theorem nodesFrom_block {skips : Token → Bool} (hskips : SkipsGaps skips) {prelude : List Token}
    (hcurly : ∀ token ∈ prelude, token.curlyContent? = none) (position : Position)
    (body rest : List Token) :
    (∃ made, nodesFrom skips none (prelude ++ .group position (.bracket .curly) body :: rest) =
        made ++ nodesFrom skips none rest ∧ AtMostEnd made prelude body) ∧
      ∀ pending : Pending, ∃ made, nodesFrom skips (some pending)
          (prelude ++ .group position (.bracket .curly) body :: rest) =
          made ++ nodesFrom skips none rest ∧ AtMostEnd made (pending.ofStyle ++ prelude) body := by
  induction prelude with
  | nil =>
    have hblock : skips (.group position (.bracket .curly) body) = false := by
      rcases hskips with rfl | rfl <;> rfl
    constructor
    · refine ⟨[.styleRule ⟨position, [], body⟩], ?_, .inr ⟨position, [], List.suffix_rfl, rfl⟩⟩
      rw [List.nil_append, nodesFrom, hblock]
      rfl
    · intro pending
      refine ⟨[pending.complete body], rfl, ?_⟩
      rw [List.append_nil]
      exact atMostEnd_complete pending body
  | cons token prelude ih =>
    obtain ⟨htoken, hprelude⟩ := List.forall_mem_cons.mp hcurly
    obtain ⟨⟨made, hmade, hends⟩, hsome⟩ := ih hprelude
    constructor
    · rw [List.cons_append, nodesFrom]
      split
      · exact ⟨made, hmade, hends.append [token]⟩
      · rw [htoken]
        obtain ⟨made, hmade, hends⟩ := hsome (.begin token)
        exact ⟨made, hmade, hends.of_suffix (ofStyle_begin_suffix token prelude)⟩
    · intro pending
      rw [List.cons_append, nodesFrom, htoken]
      simp only
      split
      · rename_i node hnode
        refine ⟨node :: made, by rw [hmade, List.cons_append], ?_⟩
        have hrules : rulesOf (node :: made) = rulesOf made := by
          rw [rulesOf, List.filterMap_cons, rule_of_completedBy hnode]
          rfl
        have hall := (hends.append [token]).append pending.ofStyle
        rwa [AtMostEnd, ← hrules] at hall
      · obtain ⟨made, hmade, hends⟩ := hsome (pending.push token)
        exact ⟨made, hmade, hends.of_suffix (ofStyle_push_suffix token pending prelude)⟩

end StyleOrigin.Css
