/-
A row of independent slots, the clock, and the calls that meet there. A visit picks a slot at random
among the first ones; how many are tried depends on its range.
-/
import BackoffStack.Exchange.Call
import BackoffStack.Schedule

namespace BackoffStack

/-- How many of `capacity` slots a visit with this range chooses from: at least one, at most all. -/
def visitBound (capacity range : Nat) : Nat := min (max range 1) capacity

/-- The slot that a random number picks below a bound. -/
def drawnSlot (bound random : Nat) : Nat := random % bound

/-- A visit to one of the slots. -/
structure Visit (α : Type) where
  place : Nat
  exchange : Exchange α

/-- What an exchange answers: the partner's offer, or its own after a timeout. -/
abbrev ExchangeAnswer (α : Type) := Except (Timeout α) (Option α)

/-- Slots, the clock, the visits under way by thread, and what earlier visits answered, the latest
first. -/
structure Arena (α : Type) where
  slots : List (Slot α)
  clock : Nat := 0
  flights : Flights (Visit α) := {}
  returned : List (Nat × ExchangeAnswer α) := []

namespace Arena

variable {α : Type}

/-- Empty slots; there is always at least one. -/
def withCapacity (capacity : Nat) : Arena α where
  slots := List.replicate (max capacity 1) {}

/-- Number of slots. -/
def capacity (w : Arena α) : Nat := w.slots.length

/-- The slot at a place. -/
def slot (w : Arena α) (place : Nat) : Slot α := w.slots.getD place {}

/-- Thread `t` offers something at a place, in an envelope at address `a`. -/
def startAt (w : Arena α) (t place : Nat) (timeout : Duration) (offer : Option α) (a : Address) :
    Arena α :=
  let (exchange, slot) := Exchange.start w.clock timeout offer a (w.slot place)
  { w with
    slots := w.slots.set place slot
    flights := w.flights.insert t { place, exchange } }

/-- Thread `t` offers something at a place, in an envelope at the lowest free address. -/
def start (w : Arena α) (t place : Nat) (timeout : Duration) (offer : Option α) : Arena α :=
  w.startAt t place timeout offer (w.slot place).freeAddress

/-- One access or reading of the call of thread `t`. -/
def step (t : Nat) (w : Arena α) : Arena α :=
  match w.flights.find? t with
  | none => w
  | some v =>
    let (x, slot) := v.exchange.step w.clock (w.slot v.place)
    let w := { w with slots := w.slots.set v.place slot }
    match x.answer? with
    | some answer =>
      { w with flights := w.flights.erase t, returned := (t, answer) :: w.returned }
    | none => { w with flights := w.flights.insert t { v with exchange := x } }

/-- The clock moves on. -/
def advance (w : Arena α) (nanos : Nat) : Arena α :=
  { w with clock := clockAfter w.clock nanos }

/-- Whether thread `t` has no call in flight, or one that can only wait. -/
def rests (t : Nat) (w : Arena α) : Bool :=
  match w.flights.find? t with
  | none => true
  | some v => v.exchange.parked w.clock (w.slot v.place)

/-- The call of thread `t` runs until it is over or can only wait. -/
def resume (t : Nat) (w : Arena α) : Arena α :=
  Schedule.resume (rests t) (step t) Exchange.passLength w

/-- All calls run until they are over or can only wait. Each can change its mind only a few times
while the clock stands still. -/
def settle (w : Arena α) : Arena α :=
  Schedule.settle (·.flights.threads) rests resume (4 * w.flights.threads.length + 1) w

end Arena

end BackoffStack
