/-
Scripted runs over named stores, outside of any epoch.
-/
import BackoffStack.Hazard.Shelf
import BackoffStack.Scenario.Reply

namespace BackoffStack.StoreScenario

/-- What is done to a store. -/
inductive Action (ι : Type) where
  | enable (id : Nat)
  | acquire (version : Nat)
  | release (handle : Handle)
  | add (version : Nat) (label : ι)
  /-- Drains the store, into another one if it is named. -/
  | retire (version : Nat) (receiver? : Option String)
  | link (next : String)
  | nextIsNull
  | drop

/-- A step of a run. -/
structure Step (ι : Type) where
  thread : Nat
  store : String
  action : Action ι

/-- What can be seen of a store. -/
structure View where
  enabled : Bool
  version : Nat
  count : Int

/-- What one step leaves behind; a store that is gone cannot be looked at. -/
structure Record (ι : Type) where
  reply : Reply Unit
  view? : Option View
  dropped : List ι := []
  log : Log := []

/-- The stores, the names they have, each at the place that is its key, and the threads. -/
structure State (ι : Type) where
  shelf : Shelf ι := {}
  names : List String := []
  threads : Threads := {}

namespace State

variable {ι : Type}

/-- The key of a name; a new name gets the next one. -/
def key (s : State ι) (name : String) : Nat × State ι :=
  match s.names.idxOf? name with
  | some k => (k, s)
  | none => (s.names.length, { s with names := s.names ++ [name] })

/-- The id that thread `t` acts under. -/
def caller (s : State ι) (t : Nat) : Nat × State ι :=
  let (who, threads) := s.threads.identify t
  (who.id, { s with threads })

/-- What can be seen of a store now. -/
def view (s : State ι) (k : Nat) : View :=
  let store := s.shelf.get k
  ⟨store.enabled, store.version, store.count⟩

end State

variable {ι : Type}

/-- What one action answers, drops and reports. -/
structure Effect (ι : Type) where
  reply : Reply Unit := .ok
  dropped : List ι := []
  notices : List Notice := []

/-- One action of thread `t` on the store with key `k`. -/
def act (s : State ι) (t k : Nat) : Action ι → Effect ι × State ι
  | .enable id => ({}, { s with shelf := s.shelf.put k ((s.shelf.get k).enable id) })
  | .acquire version =>
    let (me, s) := s.caller t
    let notices := (s.shelf.get k).acquireNotices
    match s.shelf.acquire k me version with
    | .ok (answer, shelf) =>
      ({ reply := .ofStatus (fun h => .number h.toWord.toNat) answer, notices },
        { s with shelf })
    | .error why => ({ reply := .broken why }, s)
  | .release h =>
    let (me, s) := s.caller t
    let notices := (s.shelf.get k).releaseNotices h
    match s.shelf.release k me h with
    | .ok shelf => ({ notices }, { s with shelf })
    | .error why => ({ reply := .broken why }, s)
  | .add version label =>
    let (me, s) := s.caller t
    match s.shelf.add k me version (.leaf label) with
    | .ok shelf => ({}, { s with shelf })
    | .error why => ({ reply := .broken why }, s)
  | .retire version receiver? =>
    let (receiver, s) := match receiver? with
      | some name => s.key name
      | none => (k, s)
    let (me, s) := s.caller t
    match s.shelf.retire k me version receiver with
    | .ok (freed, shelf) =>
      ({ reply := .number freed.length, dropped := freed.map (·.node.label) }, { s with shelf })
    | .error why => ({ reply := .broken why }, s)
  | .link name =>
    let (next, s) := s.key name
    ({ reply := .linked },
      { s with shelf := s.shelf.put k { s.shelf.get k with next := some next } })
  | .nextIsNull => ({ reply := .flag (s.shelf.get k).next.isNone }, s)
  | .drop =>
    ({ dropped := ((s.shelf.get k).destroy List.cons []).reverse },
      { s with shelf := s.shelf.remove k })

/-- Whether an action leaves no store to look at. -/
def Action.drops : Action ι → Bool
  | .drop => true
  | _ => false

/-- One step. -/
def step (s : State ι) (x : Step ι) : Record ι × State ι :=
  let (k, s) := s.key x.store
  let (effect, s) := act s x.thread k x.action
  ({ reply := effect.reply
     view? := if x.action.drops then none else some (s.view k)
     dropped := effect.dropped
     log := Log.of x.thread effect.notices }, s)

/-- What goes at the end: the stores that are left go in the order of their names. -/
def remaining (s : State ι) : List ι :=
  let names := s.names.mergeSort fun a b => decide (a ≤ b)
  let gone := names.foldl
    (fun gone name =>
      match s.names.idxOf? name with
      | some k => (s.shelf.get k).destroy List.cons gone
      | none => gone)
    []
  gone.reverse

/-- A run: the steps, and what goes at the end. -/
def run (s : State ι) : List (Step ι) → List (Record ι) × List ι
  | [] => ([], remaining s)
  | x :: rest =>
    let (record, s) := step s x
    let (records, last) := run s rest
    (record :: records, last)

end BackoffStack.StoreScenario
