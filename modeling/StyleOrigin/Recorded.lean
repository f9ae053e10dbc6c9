/-!
Computations that keep a record of what they do.

* `Recorded`: what came of a computation, and the events on its way.
* `Recorded.note`: doing what one event stands for.
* `Recorded.relabel`: a computation whose events are those of a larger one.
* `Recorded.outcome_mapM`, `Recorded.events_mapM`: computations one after the other.
-/
set_option autoImplicit false

namespace StyleOrigin

/-- What came of a computation, and the events on its way, in their order. -/
structure Recorded (Event α : Type) where
  outcome : α
  events : List Event

namespace Recorded
variable {Event Other α β : Type}

instance : Monad (Recorded Event) where
  pure a := ⟨a, []⟩
  bind first next := ⟨(next first.outcome).outcome, first.events ++ (next first.outcome).events⟩

@[simp] theorem outcome_pure (a : α) : (pure a : Recorded Event α).outcome = a := rfl

@[simp] theorem events_pure (a : α) : (pure a : Recorded Event α).events = [] := rfl

@[simp] theorem outcome_bind (first : Recorded Event α) (next : α → Recorded Event β) :
    (first >>= next).outcome = (next first.outcome).outcome := rfl

@[simp] theorem events_bind (first : Recorded Event α) (next : α → Recorded Event β) :
    (first >>= next).events = first.events ++ (next first.outcome).events := rfl

instance : LawfulMonad (Recorded Event) := LawfulMonad.mk' (Recorded Event)
  (fun first => by cases first; exact congrArg _ (List.append_nil _))
  (fun _ _ => rfl)
  (fun _ _ _ => congrArg _ (List.append_assoc ..))

@[simp] theorem outcome_map (f : α → β) (run : Recorded Event α) :
    (f <$> run).outcome = f run.outcome := rfl

@[simp] theorem events_map (f : α → β) (run : Recorded Event α) : (f <$> run).events = run.events :=
  List.append_nil _

/-- Doing what an event stands for. -/
def note (event : Event) : Recorded Event Unit :=
  ⟨(), [event]⟩

@[simp] theorem events_note (event : Event) : (note event).events = [event] := rfl

/-- A computation whose events are taken for events of another kind. -/
def relabel (label : Event → Other) (run : Recorded Event α) : Recorded Other α :=
  ⟨run.outcome, run.events.map label⟩

@[simp] theorem outcome_relabel (label : Event → Other) (run : Recorded Event α) :
    (run.relabel label).outcome = run.outcome := rfl

@[simp] theorem events_relabel (label : Event → Other) (run : Recorded Event α) :
    (run.relabel label).events = run.events.map label := rfl

@[simp] theorem outcome_mapM (f : α → Recorded Event β) (xs : List α) :
    (xs.mapM f).outcome = xs.map fun x => (f x).outcome := by
  induction xs with
  | nil => simp
  | cons x xs ih => simp [ih]

@[simp] theorem events_mapM (f : α → Recorded Event β) (xs : List α) :
    (xs.mapM f).events = xs.flatMap fun x => (f x).events := by
  induction xs with
  | nil => simp
  | cons x xs ih => simp [ih]

end Recorded
end StyleOrigin
