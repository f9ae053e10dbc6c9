import StyleOrigin.Log
import StyleOrigin.Search.Provider

/-!
The record of a run: what it searches for, the processes it launches, and what it tells.

* `RunEvent`: one entry of the record.
* `Recorded.searches`, `Recorded.launches`, `Recorded.log`: the entries of each kind.
* `Recorded.tell`, `Provider.ask`, `Processes.launch`: the steps that make entries.
-/
set_option autoImplicit false

namespace StyleOrigin

inductive RunEvent
  | search (search : Search)
  | launch (launch : Launch)
  | entry (entry : LogEntry)
deriving DecidableEq, Repr

namespace RunEvent

def search? : RunEvent → Option Search
  | search asked => some asked
  | _ => none

def launch? : RunEvent → Option Launch
  | launch started => some started
  | _ => none

def entry? : RunEvent → Option LogEntry
  | entry told => some told
  | _ => none

end RunEvent

namespace Recorded
variable {α β : Type}

def searches (run : Recorded RunEvent α) : List Search :=
  run.events.filterMap RunEvent.search?

def launches (run : Recorded RunEvent α) : List Launch :=
  run.events.filterMap RunEvent.launch?

def log (run : Recorded RunEvent α) : List LogEntry :=
  run.events.filterMap RunEvent.entry?

def tell (entry : LogEntry) : Recorded RunEvent Unit :=
  note (.entry entry)

section Records
variable (first : Recorded RunEvent α) (next : α → Recorded RunEvent β)

@[simp] theorem searches_pure (a : α) : (pure a : Recorded RunEvent α).searches = [] := rfl

@[simp] theorem launches_pure (a : α) : (pure a : Recorded RunEvent α).launches = [] := rfl

@[simp] theorem searches_bind :
    (first >>= next).searches = first.searches ++ (next first.outcome).searches :=
  List.filterMap_append

@[simp] theorem launches_bind :
    (first >>= next).launches = first.launches ++ (next first.outcome).launches :=
  List.filterMap_append

@[simp] theorem searches_map (f : α → β) : (f <$> first).searches = first.searches :=
  congrArg _ (events_map f first)

@[simp] theorem launches_map (f : α → β) : (f <$> first).launches = first.launches :=
  congrArg _ (events_map f first)

@[simp] theorem searches_mapM (f : α → Recorded RunEvent β) (xs : List α) :
    (xs.mapM f).searches = xs.flatMap fun x => (f x).searches := by
  simp only [searches, events_mapM, List.filterMap_flatMap]

@[simp] theorem launches_mapM (f : α → Recorded RunEvent β) (xs : List α) :
    (xs.mapM f).launches = xs.flatMap fun x => (f x).launches := by
  simp only [launches, events_mapM, List.filterMap_flatMap]

@[simp] theorem searches_tell (entry : LogEntry) : (tell entry).searches = [] := rfl

@[simp] theorem launches_tell (entry : LogEntry) : (tell entry).launches = [] := rfl

end Records

end Recorded

/-- Asks a provider. The search stands in the record in front of the processes that it starts. -/
def Provider.ask (provider : Provider) (search : Search) :
    Recorded RunEvent (Except SearchFault (List Text)) := do
  Recorded.note (.search search)
  (provider.find search).relabel .launch

/-- Starts a process of the run itself and waits for its end. -/
def Processes.launch (processes : Processes) (launch : Launch) : Recorded RunEvent Outcome :=
  (processes.start launch).relabel .launch

section Steps
variable (provider : Provider) (search : Search) (processes : Processes) (launch : Launch)

@[simp] theorem RunEvent.filterMap_launch? (launches : List Launch) :
    (launches.map RunEvent.launch).filterMap RunEvent.launch? = launches := by
  rw [List.filterMap_map]
  exact List.filterMap_some

@[simp] theorem RunEvent.filterMap_search? (launches : List Launch) :
    (launches.map RunEvent.launch).filterMap RunEvent.search? = [] := by
  simp [List.filterMap_map, Function.comp_def, search?]

@[simp] theorem Provider.outcome_ask : (provider.ask search).outcome = provider.answer search := rfl

@[simp] theorem Provider.searches_ask : (provider.ask search).searches = [search] :=
  congrArg (search :: ·) (RunEvent.filterMap_search? (provider.launches search))

@[simp] theorem Provider.launches_ask :
    (provider.ask search).launches = provider.launches search :=
  RunEvent.filterMap_launch? (provider.launches search)

@[simp] theorem Processes.outcome_launch :
    (processes.launch launch).outcome = processes launch.command := rfl

@[simp] theorem Processes.searches_launch : (processes.launch launch).searches = [] := rfl

@[simp] theorem Processes.launches_launch : (processes.launch launch).launches = [launch] := rfl

end Steps
end StyleOrigin
