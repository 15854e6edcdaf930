/-
Runs of an elimination-backoff stack, and what its callers see of them. Calls begin and end; in between
each takes effect in one step: when an attempt at the top goes through, or, for two of them together, when
one joins the other in a slot.
-/
import BackoffStack.Elimination.World
import BackoffStack.Proofs.Elimination.Lifo
import BackoffStack.Proofs.Exchange.Row

namespace BackoffStack.World

variable {α : Type}

/-- What happens in a world. -/
inductive Event (α : Type) where
  /-- A call begins on its thread's own range. -/
  | start (t : Nat) (offer : Option α) (random : List Nat)
  /-- A call begins on an explicit policy. -/
  | startWith (t : Nat) (policy : RangePolicy) (offer : Option α) (random : List Nat)
  /-- A call takes one step. -/
  | step (t : Nat)
  /-- A call takes one step; an envelope that it needs lies at `a`. -/
  | stepAt (t : Nat) (a : Address)
  /-- The monotonic clock moves on. -/
  | advance (nanos : Nat)
  /-- The wall clock is set. -/
  | wall (micros : Int64)
  /-- From now on every attempt at the top is lost, or none is. -/
  | contend (on : Bool)
  | beginExit (t : Nat)
  | finishExit (t : Nat)

/-- Whether no envelope lies at an address, so that a new one may. Values without a size share one address,
so that no two of them are offered at once here. -/
def Vacant (w : World α) (a : Address) : Prop := ∀ s ∈ w.stack.slots, s.Usable a

instance (w : World α) (a : Address) : Decidable (w.Vacant a) :=
  inferInstanceAs (Decidable (∀ s ∈ w.stack.slots, s.Usable a))

/-- Whether thread `t` has a call under way. -/
def busy (w : World α) (t : Nat) : Bool := (w.flights.find? t).isSome

/-- One event. A thread makes one call after the other, and envelopes lie apart; else nothing happens. -/
def happen (w : World α) : Event α → World α
  | .start t offer random => if w.busy t then w else w.start t offer random
  | .startWith t policy offer random => if w.busy t then w else w.startWith t policy offer random
  | .step t => w.step t
  | .stepAt t a => if w.Vacant a then w.stepAt (some a) t else w
  | .advance nanos => w.advance nanos
  | .wall micros => { w with wall := micros }
  | .contend on => w.contend on
  | .beginExit t => w.beginExit t
  | .finishExit t => w.finishExit t

/-- The world after a number of events. -/
def after (w : World α) (events : List (Event α)) : World α := events.foldl happen w

/-- The place that a call visits, and its exchange. -/
def visit? (w : World α) (t : Nat) : Option (Nat × Exchange α) :=
  match w.flights.find? t with
  | some c =>
    match c.point with
    | .meeting place x => some (place, x)
    | _ => none
  | none => none

/-- The program point of a call. -/
def point? (w : World α) (t : Nat) : Option (Call.Point α) := (w.flights.find? t).map (·.point)

theorem find?_continueAs (w : World α) (t u : Nat) (c : Call α) :
    (w.continueAs t c).flights.find? u = if u = t then some c else w.flights.find? u :=
  Flights.find?_insert ..

theorem point?_continueAs (w : World α) (t : Nat) (c : Call α) :
    (w.continueAs t c).point? t = some c.point := by
  rw [point?, find?_continueAs, if_pos rfl]
  rfl

/-- What callers see when a call of one kind joins that of `u`, which is of the other kind. -/
def together : Kind → Nat → Nat → Lifo.Label α
  | .push, t, u => .meet t u
  | .pop, t, u => .meet u t

/-- What callers see of the step of the call of `t` that leads to `w'`. -/
def effect (w : World α) (t : Nat) (w' : World α) : Option (Lifo.Label α) :=
  match w.flights.find? t with
  | none => none
  | some c =>
    match c.point with
    | .enter _ | .visit _ => none
    | .attempt (some _) =>
      match w'.point? t with
      | some (.leave _) => some (.push t)
      | _ => none
    | .attempt none =>
      match w'.point? t with
      | some (.leave .empty) => some (.empty t)
      | some (.leave _) => some (.pop t)
      -- a thread that breaks off has taken the top off by then, if there was one
      | some (.stuck _ (some _)) => some (.pop t)
      | _ => none
    | .meeting place x =>
      if x.joins (w.stack.slot place) then
        (Row.waiter? w.flights.threads w.visit? place).map (together c.kind t)
      else
        none
    | .leave outcome => some (.ret t outcome)
    | .stuck _ _ => none

/-- What callers see of an event. -/
def label? (w : World α) (e : Event α) : Option (Lifo.Label α) :=
  match e with
  | .start t offer _ | .startWith t _ offer _ => if w.busy t then none else some (.call t offer)
  | .step t => w.effect t (w.happen e)
  | .stepAt t a => if w.Vacant a then w.effect t (w.happen e) else none
  | .advance _ | .wall _ | .contend _ | .beginExit _ | .finishExit _ => none

/-- What callers see of a run. -/
def trace (w : World α) : List (Event α) → List (Lifo.Label α)
  | [] => []
  | e :: events => (w.label? e).toList ++ (w.happen e).trace events

end BackoffStack.World
