/-
Scripted runs over a Treiber stack: threads push and pop, once or until it goes through, and end, some
of them doing all this on their way out.
-/
import BackoffStack.Scenario.Reply
import BackoffStack.Treiber.Stack

namespace BackoffStack.TreiberScenario

/-- What a thread does. -/
inductive Action (α : Type) where
  | push (v : α)
  | pop
  | tryPush (v : α)
  | tryPop

/-- A step of a run. -/
inductive Step (α : Type) where
  | act (t : Nat) (action : Action α)
  /-- From now on every attempt is lost, or none is. -/
  | contend (on : Bool)
  /-- Sets the wall clock. -/
  | wall (micros : Int64)
  /-- The thread ends; on its way out it may still act. -/
  | exit (t : Nat) (last? : Option (List (Action α)))

/-- The stack and its users. -/
structure State (α : Type) where
  stack : TreiberStack α
  threads : Threads := {}
  wall : Int64 := .ofInt (wallMicros 1 0)

/-- What one step leaves behind. -/
structure Record (α : Type) where
  replies : Reply α ⊕ List (Reply α)
  empty : Bool
  log : Log := []

variable {α : Type}

/-- One attempt to push. -/
def tryPush (s : State α) (v : α) : Reply α × List Notice × State α :=
  match s.stack.tryPush v with
  | (.pushed, stack) => (.ok, [], { s with stack })
  | (.contended v, stack) => (.givenBack v, [], { s with stack })

/-- One attempt to pop. The thread asks who it is only when it needs a guard. -/
def tryPop (s : State α) (t : Nat) : Reply α × List Notice × State α :=
  if s.stack.contended then
    (.contended, [], s)
  else
    let (who, threads) := s.threads.identify t
    let (answer, stack) := s.stack.tryPop who s.wall
    let reply := match answer with
      | .popped v => .value v
      | .empty => .nothing
      | .contended => .contended
      | .broken why _ => .broken why
    (reply, stack.epoch.growthSince s.stack.epoch, { s with threads, stack })

/-- One action of thread `t`. One that tries until it goes through would never end while every attempt
is lost. -/
def act (s : State α) (t : Nat) : Action α → Reply α × List Notice × State α
  | .push v => if s.stack.contended then (.refused .wouldSpin, [], s) else tryPush s v
  | .pop => if s.stack.contended then (.refused .wouldSpin, [], s) else tryPop s t
  | .tryPush v => tryPush s v
  | .tryPop => tryPop s t

/-- Actions of thread `t`, one after the other. -/
def acts (s : State α) (t : Nat) : List (Action α) → List (Reply α) × List Notice × State α
  | [] => ([], [], s)
  | a :: rest =>
    let (reply, notices, s) := act s t a
    let (replies, later, s) := acts s t rest
    (reply :: replies, notices ++ later, s)

/-- One step. -/
def step (s : State α) : Step α → Record α × State α
  | .act t action =>
    let (reply, notices, s) := act s t action
    ({ replies := .inl reply, empty := s.stack.isEmpty, log := Log.of t notices }, s)
  | .contend on =>
    let s := { s with stack := s.stack.contend on }
    ({ replies := .inl .ok, empty := s.stack.isEmpty }, s)
  | .wall micros => ({ replies := .inl .ok, empty := s.stack.isEmpty }, { s with wall := micros })
  | .exit t last? =>
    let s := { s with threads := s.threads.beginExit t }
    let (replies, notices, s) := acts s t (last?.getD [])
    let s := { s with threads := s.threads.finishExit t }
    ({ replies := if last?.isSome then .inr replies else .inl .ok
       empty := s.stack.isEmpty
       log := Log.of t notices }, s)

/-- A run: the steps, and the values that go with the stack at the end. -/
def run (s : State α) : List (Step α) → List (Record α) × List α
  | [] => ([], addedSince s.stack.gone.dropped s.stack.destroy.dropped)
  | x :: rest =>
    let (record, s) := step s x
    let (records, last) := run s rest
    (record :: records, last)

/-- What making the stack reports. -/
def creation (s : State α) : Log := Log.of 0 [s.stack.epoch.creation]

end BackoffStack.TreiberScenario
