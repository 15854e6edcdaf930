/-
Scripted runs over a spin lock that protects a list: one guard at most is held by the script, and
other threads may queue up for the lock.
-/
import BackoffStack.Scenario.Reply
import BackoffStack.SpinLock.Contender

namespace BackoffStack.LockScenario

/-- A step of a run. -/
inductive Step where
  | lock
  | tryLock
  | push (v : Int)
  | read
  | unlock
  | isLocked
  /-- So many threads each lock and push their own number. A guard that is held is given back while
  they wait; in the end the list is sorted. -/
  | wait (threads : Nat)

/-- The lock, and whether the script holds its guard. -/
structure State where
  lock : SpinLock (List Int) := { value := [] }
  held : Bool := false

/-- The guard is given back, if it is held. -/
def State.letGo (s : State) : State :=
  if s.held then
    match s.lock.unlock with
    | .ok lock => { lock, held := false }
    | .error _ => { s with held := false }
  else
    s

/-- Threads that each lock and push one number, one after the other. -/
def contend (lock : SpinLock (List Int)) (numbers : List Int) : SpinLock (List Int) :=
  numbers.foldl
    (fun lock n => ({ work := [(· ++ [n])] } : SpinLock.Contender (List Int)).alone lock) lock

/-- The numbers in ascending order. -/
def ascending (ns : List Int) : List Int := ns.mergeSort fun a b => decide (a ≤ b)

/-- One step. -/
def step (s : State) : Step → Reply Unit × State
  | .lock =>
    match s.lock.tryLock with
    | some lock => (.ok, { lock, held := true })
    | none => (.refused .wouldSpin, s)
  | .tryLock =>
    match s.lock.tryLock with
    | some lock => (.flag true, { lock, held := true })
    | none => (.flag false, s)
  | .push v =>
    if s.held then
      let value := s.lock.value ++ [v]
      (.number value.length, { s with lock := { s.lock with value } })
    else
      (.refused .notLocked, s)
  | .read => (if s.held then .numbers s.lock.value else .refused .notLocked, s)
  | .unlock => (.flag s.held, s.letGo)
  | .isLocked => (.flag s.lock.locked, s)
  | .wait threads =>
    let s := s.letGo
    let lock := contend s.lock ((List.range threads).map Int.ofNat)
    let value := ascending lock.value
    (.numbers value, { s with lock := { lock with value } })

/-- A run: each answer, and whether the lock is held after it. -/
def run (s : State) : List Step → List (Reply Unit × Bool)
  | [] => []
  | x :: rest => let (reply, s) := step s x; (reply, s.lock.locked) :: run s rest

end BackoffStack.LockScenario
