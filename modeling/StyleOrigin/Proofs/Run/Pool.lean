import Mathlib.Data.List.Forall2
import Mathlib.Logic.Relation
import StyleOrigin.Proofs.Sequence
import StyleOrigin.Run

/-! # The workers of a run

The units of a run wait in a queue. Workers take them from its front, as many at a time as the resolver
allows, and ask the provider for each. One reader fetches what the searches have come to, in any order,
until a fault that nobody handles makes it give up. The workers do not hear of that: they go on until
nothing waits and nothing is under way.

The answers are not fixed by a provider here. Each call may be answered in its own way, two calls for the
same token too.

* `Pool`, `Pool.Step`, `Pool.IsOver`: the states of the workers and the reader, the steps between them,
  and the states that a run does not leave.
* `Pool.Accounts`, `Pool.accounts_of_reaches`: what becomes of each unit and each call, step by step and
  from the start.
* `Pool.calls_perm_of_isOver`, `Pool.exists_answered_of_isOver`: by the end each unit has been searched
  for once and given an answer.
* `Pool.exists_isOver`: every pool comes to an end.
-/
set_option autoImplicit false

namespace StyleOrigin

/-- What a search may be answered with. -/
abbrev Answers := Search → Except SearchFault (List Text) → Prop

/-- A provider gives one answer to a search, the same to each call. -/
def Provider.answers (provider : Provider) : Answers :=
  fun search answer => provider.answer search = answer

/-- A unit, and the answer that the call for it was given. -/
structure Answered where
  unit : StyleUnit
  answer : Except SearchFault (List Text)

/-- What the search for a unit comes to when it is given an answer. -/
def Answered.result (resolver : Resolver) (given : Answered) : Except Interruption Resolution :=
  (resolver.settle given.unit given.answer).outcome

/-- The state of the workers and of the reader: the units that wait, those that a worker has taken, those
whose search has begun, the ends that nobody has fetched, the calls made so far, the resolutions fetched
so far, and the fault that made the reader give up. -/
structure Pool where
  waiting : List StyleUnit
  taken : List StyleUnit
  asked : List StyleUnit
  ended : List (Except Interruption Resolution)
  calls : List Search
  arrived : List Resolution
  stopped : Option Interruption

namespace Pool

/-- All units wait at the start. -/
def start (units : List StyleUnit) : Pool :=
  ⟨units, [], [], [], [], [], none⟩

/-- The number of workers at work. -/
def inFlight (pool : Pool) : Nat :=
  pool.taken.length + pool.asked.length

inductive Step (resolver : Resolver) (answers : Answers) (pool : Pool) : Pool → Prop
  /-- A worker takes the unit that has waited longest. -/
  | take {unit : StyleUnit} {rest : List StyleUnit} (waits : pool.waiting = unit :: rest)
      (free : pool.inFlight < resolver.maxInFlight.limit) :
      Step resolver answers pool { pool with waiting := rest, taken := unit :: pool.taken }
  /-- A worker calls the provider. -/
  | ask {front back : List StyleUnit} {unit : StyleUnit} (isTaken : pool.taken = front ++ unit :: back) :
      Step resolver answers pool { pool with
        taken := front ++ back
        asked := unit :: pool.asked
        calls := pool.calls ++ [resolver.searchFor unit] }
  /-- A call is answered, and the worker is free again. -/
  | answer {front back : List StyleUnit} {unit : StyleUnit} {found : Except SearchFault (List Text)}
      (isAsked : pool.asked = front ++ unit :: back)
      (admitted : answers (resolver.searchFor unit) found) :
      Step resolver answers pool { pool with
        asked := front ++ back
        ended := Answered.result resolver ⟨unit, found⟩ :: pool.ended }
  /-- The reader fetches a resolution. -/
  | fetch {front back : List (Except Interruption Resolution)} {resolution : Resolution}
      (isEnded : pool.ended = front ++ .ok resolution :: back) (reads : pool.stopped = none) :
      Step resolver answers pool { pool with
        ended := front ++ back
        arrived := pool.arrived ++ [resolution] }
  /-- The reader fetches a fault and gives up. -/
  | stop {front back : List (Except Interruption Resolution)} {fault : Interruption}
      (isEnded : pool.ended = front ++ .error fault :: back) (reads : pool.stopped = none) :
      Step resolver answers pool { pool with
        ended := front ++ back
        stopped := some fault }

/-- The workers have nothing left to do, and the reader has given up or has nothing left to fetch. -/
structure IsOver (pool : Pool) : Prop where
  waiting : pool.waiting = []
  taken : pool.taken = []
  asked : pool.asked = []
  read : pool.stopped = none → pool.ended = []

abbrev Reaches (resolver : Resolver) (answers : Answers) : Pool → Pool → Prop :=
  Relation.ReflTransGen (Step resolver answers)

/-! ## Accounts -/

/-- What the reader has fetched or may still fetch. -/
def results (pool : Pool) : List (Except Interruption Resolution) :=
  pool.arrived.map .ok ++ (pool.stopped.toList.map .error ++ pool.ended)

/-- Each unit waits, is with a worker, or is answered; there is a call for each that has left the workers'
hands, and a result for each that is answered. -/
structure Accounts (resolver : Resolver) (answers : Answers) (units : List StyleUnit) (pool : Pool) :
    Prop where
  calls : (pool.calls ++ (pool.taken ++ pool.waiting).map resolver.searchFor).Perm
    (units.map resolver.searchFor)
  answered : ∃ answered : List Answered,
    (answered.map Answered.unit ++ (pool.asked ++ (pool.taken ++ pool.waiting))).Perm units ∧
    (∀ given ∈ answered, answers (resolver.searchFor given.unit) given.answer) ∧
    pool.results.Perm (answered.map (Answered.result resolver))
  inFlight : pool.inFlight ≤ resolver.maxInFlight.limit

section Accounts
variable {resolver : Resolver} {answers : Answers} {units : List StyleUnit} {pool next : Pool}

theorem accounts_start : Accounts resolver answers units (start units) where
  calls := by simp [start]
  answered := ⟨[], by simp [start], by simp, by simp [start, results]⟩
  inFlight := by
    have := resolver.maxInFlight.limit_pos
    simp [start, Pool.inFlight]
    omega

/-- One element from the middle of a sequence, put in front of what follows. -/
theorem middle_perm {α : Type} (front back rest : List α) (a : α) :
    (front ++ a :: back ++ rest).Perm (a :: (front ++ back ++ rest)) :=
  List.perm_middle.append_right rest

/-- One step keeps the accounts. -/
theorem Step.accounts (hstep : Step resolver answers pool next)
    (h : Accounts resolver answers units pool) : Accounts resolver answers units next := by
  obtain ⟨answered, hunits, hanswers, hperm⟩ := h.answered
  have hcalls := h.calls
  have hflight := h.inFlight
  cases hstep with
  | @take unit rest waits free =>
    have hmove : (unit :: pool.taken ++ rest).Perm (pool.taken ++ pool.waiting) := by
      rw [waits]
      exact List.perm_middle.symm
    refine ⟨?_, ⟨answered, ?_, hanswers, hperm⟩, ?_⟩
    · exact ((hmove.map _).append_left _).trans hcalls
    · exact ((hmove.append_left _).append_left _).trans hunits
    · simp only [Pool.inFlight, List.length_cons] at free ⊢
      omega
  | @ask front back unit isTaken =>
    have hmove := middle_perm front back pool.waiting unit
    rw [← isTaken] at hmove
    refine ⟨?_, ⟨answered, ?_, hanswers, hperm⟩, ?_⟩
    · rw [List.append_assoc]
      exact ((hmove.symm.map resolver.searchFor).append_left pool.calls).trans hcalls
    · have hunit := hmove.append_left pool.asked
      exact ((List.perm_middle.symm.trans hunit.symm).append_left _).trans hunits
    · simp only [Pool.inFlight, isTaken, List.length_append, List.length_cons] at hflight ⊢
      omega
  | @answer front back unit found isAsked admitted =>
    refine ⟨hcalls, ⟨⟨unit, found⟩ :: answered, ?_, List.forall_mem_cons.mpr ⟨admitted, hanswers⟩, ?_⟩,
      ?_⟩
    · have hmove := middle_perm front back (pool.taken ++ pool.waiting) unit
      rw [← isAsked] at hmove
      exact (List.perm_middle.symm.trans (hmove.symm.append_left _)).trans hunits
    · rw [Pool.results, ← List.append_assoc]
      rw [Pool.results, ← List.append_assoc] at hperm
      exact List.perm_middle.trans (hperm.cons _)
    · simp only [Pool.inFlight, isAsked, List.length_append, List.length_cons] at hflight ⊢
      omega
  | @fetch front back resolution isEnded reads =>
    refine ⟨hcalls, ⟨answered, hunits, hanswers, ?_⟩, hflight⟩
    have hmove : (.ok resolution :: (front ++ back)).Perm pool.ended := isEnded ▸ List.perm_middle.symm
    rw [Pool.results, reads] at hperm
    rw [Pool.results, List.map_append, List.append_assoc, reads]
    exact (hmove.append_left (pool.arrived.map .ok)).trans hperm
  | @stop front back fault isEnded reads =>
    refine ⟨hcalls, ⟨answered, hunits, hanswers, ?_⟩, hflight⟩
    have hmove : (.error fault :: (front ++ back)).Perm pool.ended := isEnded ▸ List.perm_middle.symm
    rw [Pool.results, reads] at hperm
    exact (hmove.append_left (pool.arrived.map .ok)).trans hperm

/-- The accounts hold in every state that the workers come to. -/
theorem accounts_of_reaches (h : Reaches resolver answers (start units) pool) :
    Accounts resolver answers units pool := by
  induction h with
  | refl => exact accounts_start
  | tail _ hstep ih => exact hstep.accounts ih

/-- By the end each unit has been searched for once, whatever the calls were answered. -/
theorem calls_perm_of_isOver (h : Reaches resolver answers (start units) pool) (hover : pool.IsOver) :
    pool.calls.Perm (units.map resolver.searchFor) := by
  have hcalls := (accounts_of_reaches h).calls
  rw [hover.taken, hover.waiting] at hcalls
  simpa using hcalls

/-- By the end each unit has been given an answer, and what the reader has fetched, or was not to fetch
any more, is what came of these. -/
theorem exists_answered_of_isOver (h : Reaches resolver answers (start units) pool)
    (hover : pool.IsOver) :
    ∃ answered : List Answered, answered.map Answered.unit = units ∧
      (∀ given ∈ answered, answers (resolver.searchFor given.unit) given.answer) ∧
      pool.results.Perm (answered.map (Answered.result resolver)) := by
  obtain ⟨finished, hunits, hanswers, hperm⟩ := (accounts_of_reaches h).answered
  simp only [hover.asked, hover.taken, hover.waiting, List.append_nil] at hunits
  obtain ⟨answered, hmap, hsame⟩ := exists_map_eq_of_perm hunits
  exact ⟨answered, hmap, fun given hgiven => hanswers given (hsame.mem_iff.mp hgiven),
    hperm.trans (hsame.symm.map _)⟩

end Accounts

/-! ## The end -/

section Progress
variable {resolver : Resolver} {answers : Answers} {pool next : Pool}

/-- What is left to do: three steps for a unit that waits before it has an end, and one to fetch that. -/
def work (pool : Pool) : Nat :=
  4 * pool.waiting.length + 3 * pool.taken.length + 2 * pool.asked.length + pool.ended.length

theorem Step.work_lt (hstep : Step resolver answers pool next) : next.work < pool.work := by
  cases hstep with
  | take waits free =>
    simp only [work, waits, List.length_cons]
    omega
  | ask isTaken =>
    simp only [work, isTaken, List.length_append, List.length_cons]
    omega
  | answer isAsked admitted =>
    simp only [work, isAsked, List.length_append, List.length_cons]
    omega
  | fetch isEnded reads =>
    simp only [work, isEnded, List.length_append, List.length_cons]
    omega
  | stop isEnded reads =>
    simp only [work, isEnded, List.length_append, List.length_cons]
    omega

/-- A pool that is not over can go on, if there is an answer to every search. -/
theorem exists_step (hanswers : ∀ search, ∃ found, answers search found) (hover : ¬pool.IsOver) :
    ∃ next, Step resolver answers pool next := by
  cases htaken : pool.taken with
  | cons unit rest => exact ⟨_, .ask (show _ = [] ++ unit :: rest from htaken)⟩
  | nil =>
    cases hasked : pool.asked with
    | cons unit rest =>
      obtain ⟨found, hfound⟩ := hanswers (resolver.searchFor unit)
      exact ⟨_, .answer (show _ = [] ++ unit :: rest from hasked) hfound⟩
    | nil =>
      cases hwaiting : pool.waiting with
      | cons unit rest =>
        have hfree : (pool.inFlight : Int) < resolver.maxInFlight.limit := by
          have := resolver.maxInFlight.limit_pos
          simp only [Pool.inFlight, htaken, hasked, List.length_nil]
          omega
        exact ⟨_, .take hwaiting hfree⟩
      | nil =>
        obtain ⟨hreads, hended⟩ : pool.stopped = none ∧ pool.ended ≠ [] := by
          by_contra hread
          exact hover ⟨hwaiting, htaken, hasked, by simpa using hread⟩
        obtain ⟨result, rest, hresult⟩ := List.exists_cons_of_ne_nil hended
        cases result with
        | ok resolution => exact ⟨_, .fetch (show _ = [] ++ .ok resolution :: rest from hresult) hreads⟩
        | error fault => exact ⟨_, .stop (show _ = [] ++ .error fault :: rest from hresult) hreads⟩

/-- Every pool comes to an end, if there is an answer to every search. -/
theorem exists_isOver (hanswers : ∀ search, ∃ found, answers search found) (pool : Pool) :
    ∃ last, Reaches resolver answers pool last ∧ last.IsOver := by
  induction hwork : pool.work using Nat.strongRecOn generalizing pool with
  | ind left ih =>
    by_cases hover : pool.IsOver
    · exact ⟨pool, .refl, hover⟩
    · obtain ⟨next, hstep⟩ : ∃ next, Step resolver answers pool next := exists_step hanswers hover
      obtain ⟨last, hreaches, hlast⟩ := ih next.work (hwork ▸ hstep.work_lt) next rfl
      exact ⟨last, .head hstep hreaches, hlast⟩

end Progress

end Pool
end StyleOrigin
