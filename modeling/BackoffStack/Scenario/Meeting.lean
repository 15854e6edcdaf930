/-
Scripted runs of exchanges: each step begins one call, or moves the clock. Unless it is told not to, a
step ends when all calls are over or can only wait.
-/
import BackoffStack.Exchange.Arena
import BackoffStack.Scenario.Reply

namespace BackoffStack.MeetingScenario

/-- A step of a run. -/
inductive Step (α : Type) where
  /-- An offer at the first slot, with a timeout of its own. -/
  | exchange (t : Nat) (timeout : Duration) (offer : Option α)
  /-- An offer at one of the first slots, drawn at random. -/
  | visit (t : Nat) (timeout : Duration) (range random : Nat) (offer : Option α)
  /-- The clock moves on; the calls take notice only if they `settle`. -/
  | advance (nanos : Nat) (settle : Bool)

/-- What one step leaves behind: the threads that wait, why the step was refused, and the calls that
are over. -/
structure Record (α : Type) where
  waiting : List Nat
  refusal? : Option Refusal := none
  done : List (Nat × ExchangeAnswer α) := []
  log : Log := []

variable {α : Type}

/-- What a step leaves behind that led from one arena to another. -/
def record (before after : Arena α) (log : Log) : Record α where
  waiting := after.flights.threads
  done := byThread (addedSince before.returned after.returned)
  log := log

/-- Thread `t` begins a call and runs it as far as it gets; then the others follow. -/
def call (w : Arena α) (t place : Nat) (timeout : Duration) (offer : Option α) (log : Log) :
    Record α × Arena α :=
  let after := (w.start t place timeout offer).resume t |>.settle
  (record w after log, after)

/-- The step of a thread whose call is not over is refused. -/
def refuseBusy (w : Arena α) : Record α × Arena α :=
  let after := w.settle
  ({ record w after [] with refusal? := some .threadBusy }, after)

/-- One step. -/
def step (w : Arena α) : Step α → Record α × Arena α
  | .exchange t timeout offer =>
    if (w.flights.find? t).isSome then refuseBusy w else call w t 0 timeout offer []
  | .visit t timeout range random offer =>
    if (w.flights.find? t).isSome then
      refuseBusy w
    else
      let bound := visitBound w.capacity range
      let place := drawnSlot bound random
      call w t place timeout offer [(t, .slotDrawn bound place)]
  | .advance nanos settle =>
    let moved := w.advance nanos
    let after := if settle then moved.settle else moved
    (record w after [], after)

/-- A run: the steps, and the threads that still wait at the end. -/
def run (w : Arena α) : List (Step α) → List (Record α) × List Nat
  | [] => ([], w.flights.threads)
  | x :: rest =>
    let (record, w) := step w x
    let (records, last) := run w rest
    (record :: records, last)

end BackoffStack.MeetingScenario
