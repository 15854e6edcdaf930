/-
Scripted runs over an elimination-backoff stack: each step begins one call, switches contention, moves
the clock, or ends a thread. Unless it is told not to, a step ends when all calls are over or can only
wait.
-/
import BackoffStack.Elimination.World
import BackoffStack.Scenario.Reply

namespace BackoffStack.EliminationScenario

/-- What a thread does. A push or pop uses an explicit policy if one is named. -/
inductive Action (α : Type) where
  | call (offer : Option α) (policy? : Option String) (random : List Nat)
  /-- Which range the thread would use. -/
  | threadPolicy

/-- A step of a run. -/
inductive Step (α : Type) where
  | act (t : Nat) (action : Action α)
  /-- Makes an explicit policy, a fresh one of the stack unless it is given. -/
  | policy (name : String) (policy? : Option RangePolicy)
  /-- From now on every attempt at the top is lost, or none is. -/
  | contend (on : Bool)
  /-- The clock moves on; the calls take notice only if they `settle`. -/
  | advance (nanos : Nat) (settle : Bool)
  /-- The thread ends; on its way out it may still act. -/
  | exit (t : Nat) (last? : Option (List (Action α)))

/-- What a call answers. -/
inductive Answer (α : Type) where
  /-- A push or pop is over; the policy is shown if it was an explicit one. -/
  | finished (outcome : Outcome α) (policy? : Option RangePolicy)
  | threadPolicy (answer : Except Status RangePolicy)

/-- What a step itself answers, if it is not a call. -/
inductive StepReply (α : Type) where
  | ok
  | policy (p : RangePolicy)
  | answers (answers : List (Answer α))
  | refused (why : Refusal)

/-- What can be seen of the stack. -/
structure View where
  empty : Bool
  stats : Stats

/-- What one step leaves behind. While calls take no notice, the stack is not looked at. -/
structure Record (α : Type) where
  waiting : List Nat
  reply? : Option (StepReply α) := none
  done : List (Nat × Answer α) := []
  view? : Option View := none
  log : Log := []

/-- The world, the explicit policies, and which thread's call uses which. -/
structure State (α : Type) where
  world : World α
  policies : List (String × RangePolicy) := []
  inUse : List (Nat × String) := []

variable {α : Type}

/-- The answers of the calls that are over since `before`; explicit policies are put back. -/
def collect (before : World α) (s : State α) : List (Nat × Answer α) × State α :=
  (addedSince before.returned s.world.returned).foldl
    (fun (answers, s) (t, call) =>
      match s.inUse.lookup t with
      | some name =>
        (answers ++ [(t, .finished call.outcome (some call.policy))],
          { s with
            policies := assign name call.policy s.policies
            inUse := s.inUse.filter (·.1 ≠ t) })
      | none => (answers ++ [(t, .finished call.outcome none)], s))
    ([], s)

/-- Thread `t` begins a push or pop. -/
def start (s : State α) (t : Nat) (offer : Option α) (policy? : Option String)
    (random : List Nat) : State α :=
  match policy? with
  | none => { s with world := s.world.start t offer random }
  | some name =>
    let policy := (s.policies.lookup name).getD s.world.stack.rangePolicy
    { s with
      world := s.world.startWith t policy offer random
      inUse := (t, name) :: s.inUse }

/-- The policy that the table holds for thread `t`. -/
def threadPolicy (w : World α) (t : Nat) : Answer α × World α :=
  match w.ownPolicy t with
  | (policy, some _, w) => (.threadPolicy (.ok policy), w)
  | (_, none, w) => (.threadPolicy (.error .threadExiting), w)

/-- What a step leaves behind that led from one world to this state and answered some calls at once. -/
def record (before : World α) (s : State α) (at? : List (Nat × Answer α)) (reply? : Option (StepReply α)) :
    Record α × State α :=
  let (done, s) := collect before s
  ({ waiting := s.world.flights.threads
     reply?
     done := byThread (at? ++ done)
     view? := some ⟨s.world.stack.isEmpty, s.world.stack.stats⟩
     log := byThread (addedSince before.log s.world.log) }, s)

/-- The script catches a thread whose call broke off: the call is over, without its range saved. -/
def caught (w : World α) : World α :=
  w.flights.threads.foldl
    (fun w t =>
      match w.flights.find? t with
      | some { policy, point := .stuck why _, .. } =>
        { w with
          flights := w.flights.erase t
          returned := (t, ⟨.broken why, policy⟩) :: w.returned }
      | _ => w)
    w

/-- All calls run as far as they get. -/
def State.settle (s : State α) : State α := { s with world := caught s.world.settle }

/-- Whether thread `t` has a call in flight. -/
def State.busy (s : State α) (t : Nat) : Bool := (s.world.flights.find? t).isSome

/-- Actions of thread `t` on its way out, each of which ends at once. -/
def lastActs (s : State α) (t : Nat) : List (Action α) → List (Answer α) × State α
  | [] => ([], s)
  | .threadPolicy :: rest =>
    let (answer, world) := threadPolicy s.world t
    let (answers, s) := lastActs { s with world } t rest
    (answer :: answers, s)
  | .call offer policy? random :: rest =>
    let before := s.world
    let s := start s t offer policy? random
    let (mine, s) := collect before { s with world := caught (s.world.resume t) }
    let (answers, s) := lastActs s t rest
    (mine.map (·.2) ++ answers, s)

/-- One step. -/
def step (s : State α) : Step α → Record α × State α
  | .act t action =>
    if s.busy t then
      record s.world s.settle [] (some (.refused .threadBusy))
    else
      match action with
      | .call offer policy? random =>
        let after := start s t offer policy? random
        record s.world (State.settle { after with world := after.world.resume t }) [] none
      | .threadPolicy =>
        let (answer, world) := threadPolicy s.world t
        record s.world (State.settle { s with world }) [(t, answer)] none
  | .policy name policy? =>
    let policy := policy?.getD s.world.stack.rangePolicy
    let after := { s with policies := assign name policy s.policies }
    record s.world after.settle [] (some (.policy policy))
  | .contend on =>
    record s.world (State.settle { s with world := s.world.contend on }) [] none
  | .advance nanos settle =>
    let after := { s with world := s.world.advance nanos }
    if settle then
      record s.world after.settle [] none
    else
      ({ waiting := after.world.flights.threads }, after)
  | .exit t last? =>
    if s.busy t then
      record s.world s.settle [] (some (.refused .threadBusy))
    else if s.world.stack.stack.contended then
      record s.world s.settle [] (some (.refused .wouldWait))
    else
      let before := s.world
      let (answers, s) := lastActs { s with world := s.world.beginExit t } t (last?.getD [])
      let s := { s with world := s.world.finishExit t }
      let seen := { before with returned := s.world.returned }
      record seen s.settle [] (some (if last?.isSome then .answers answers else .ok))

/-- A run: the steps, the threads that still wait at the end, and, if there are none, the values that
go with the stack. -/
def run (s : State α) : List (Step α) → List (Record α) × List Nat × List α
  | [] =>
    let waiting := s.world.flights.threads
    let stack := s.world.stack.stack
    ([], waiting,
      if waiting.isEmpty then addedSince stack.gone.dropped stack.destroy.dropped else [])
  | x :: rest =>
    let (record, s) := step s x
    let (records, last) := run s rest
    (record :: records, last)

/-- What checking a configuration reports. -/
def validation (c : Config) : Log :=
  match c.fault? with
  | some fault => Log.of 0 [.configRefused fault]
  | none => []

/-- What making a stack reports. -/
def creation (s : EliminationStack α) : Log :=
  Log.of 0 [.stackCreated s.config, s.stack.epoch.creation]

end BackoffStack.EliminationScenario
