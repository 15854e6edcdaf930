/-
An elimination-backoff stack and everything its calls depend on: the threads with their tokens, both
clocks, and the calls under way. `step` moves the call of one thread by one attempt at the top, one
access to its slot, or one piece of work that no other thread takes part in.
-/
import BackoffStack.Elimination.Call

namespace BackoffStack

/-- A stack, its users, and what happened so far: calls that are over and records, the latest
first, each with its thread. -/
structure World (α : Type) where
  stack : EliminationStack α
  threads : Threads := {}
  clock : Nat := 0
  wall : Int64 := .ofInt (wallMicros 1 0)
  flights : Flights (Call α) := {}
  returned : List (Nat × Finished α) := []
  log : List (Nat × Notice) := []

namespace World

variable {α : Type}

/-- Thread `t` reports something. -/
def report (w : World α) (t : Nat) (notices : List Notice) : World α :=
  { w with log := (notices.map fun n => (t, n)).reverse ++ w.log }

/-- The call of thread `t` goes on as `c`. -/
def continueAs (w : World α) (t : Nat) (c : Call α) : World α :=
  { w with flights := w.flights.insert t c }

/-- The world with other counters. -/
def count (w : World α) (f : Stats → Stats) : World α :=
  { w with stack := { w.stack with stats := f w.stack.stats } }

/-- The world with another core. -/
def putStack (w : World α) (s : TreiberStack α) : World α :=
  { w with stack := { w.stack with stack := s } }

/-- The policy of a thread's own range, with the token it belongs to; looked up under a token only. -/
def ownPolicy (w : World α) (t : Nat) : RangePolicy × Option ThreadToken × World α :=
  match w.threads.ask t with
  | (.error _, threads) => (w.stack.ranges.template, none, { w with threads })
  | (.ok token, threads) =>
    let ranges := w.stack.ranges.reach token.id
    let grown := Notice.growth w.stack.ranges.slots.count ranges.slots.count
    let w := { w with threads, stack := { w.stack with ranges } }
    (ranges.load token, some token, w.report t grown)

/-- The call loads its thread's own range. -/
def enter (w : World α) (t : Nat) (c : Call α) (offer : Option α) : World α :=
  let (policy, token?, w) := w.ownPolicy t
  w.continueAs t { c with policy, token?, point := .attempt offer }

/-- The call tries to put its value on the top. -/
def attemptPush (w : World α) (t : Nat) (c : Call α) (value : α) : World α :=
  match w.stack.stack.tryPush value with
  | (.pushed, s) => (w.putStack s |>.count Stats.stackPush).continueAs t (c.goto (.leave .pushed))
  | (.contended value, s) =>
    (w.putStack s |>.count Stats.lostAttempt).continueAs t (c.goto (.visit (some value)))

/-- The call tries to take the top off. It asks who it is only when it needs a guard. -/
def attemptPop (w : World α) (t : Nat) (c : Call α) : World α :=
  if w.stack.stack.contended then
    (w.count Stats.lostAttempt).continueAs t (c.goto (.visit none))
  else
    let (who, threads) := w.threads.identify t
    let before := w.stack.stack.epoch
    let (answer, s) := w.stack.stack.tryPop who w.wall
    let w := ({ w with threads }.putStack s).report t (s.epoch.growthSince before)
    match answer with
    | .popped value =>
      (w.count Stats.stackPop).continueAs t (c.goto (.leave (.popped value)))
    | .empty => w.continueAs t (c.goto (.leave .empty))
    | .contended => (w.count Stats.lostAttempt).continueAs t (c.goto (.visit none))
    | .broken why lost? => w.continueAs t (c.goto (.stuck why lost?))

/-- The call draws a slot and makes its offer there, in an envelope at address `a`, or the lowest
free one. Of the generator it is assumed that a draw always gives a number, which may be any. One that is
gone already, late on the way out of its thread, would break off here instead. -/
def visit (w : World α) (t : Nat) (c : Call α) (offer : Option α) (a? : Option Address) : World α :=
  let bound := visitBound w.stack.capacity c.policy.range
  let place := drawnSlot bound (c.random.headD 0)
  let slot := w.stack.slot place
  let (x, slot) :=
    Exchange.start w.clock w.stack.config.timeout offer (a?.getD slot.freeAddress) slot
  let w := { w with stack := w.stack.putSlot place slot }
  let w := w.report t [.slotDrawn bound place]
  w.continueAs t { c with random := c.random.tail, point := .meeting place x }

/-- The call takes up what its exchange answered. -/
def conclude (w : World α) (t : Nat) (c : Call α) (answer : ExchangeAnswer α) : World α :=
  match c.kind, answer with
  | .push, .ok none =>
    (w.count Stats.eliminatedPush).continueAs t
      { c with policy := c.policy.recordSuccess, point := .leave .pushed }
  | .pop, .ok (some value) =>
    (w.count Stats.eliminatedPop).continueAs t
      { c with policy := c.policy.recordSuccess, point := .leave (.popped value) }
  | kind, .error timeout =>
    let policy := c.policy.recordTimeout
    let w := w.count Stats.exchangeTimeout |>.report t [.exchangeTimedOut kind policy.range]
    if Call.kindOf timeout.offer = kind then
      w.continueAs t { c with policy, point := .attempt timeout.offer }
    else
      w.continueAs t { c with policy, point := .leave (.broken .wrongOffer) }
  | _, .ok _ => w.continueAs t (c.goto (.leave (.broken .wrongOffer)))

/-- One access of the call to its slot, or one reading of the clock. -/
def meet (w : World α) (t : Nat) (c : Call α) (place : Nat) (x : Exchange α) : World α :=
  let (x, slot) := x.step w.clock (w.stack.slot place)
  let w := { w with stack := w.stack.putSlot place slot }
  match x.answer? with
  | some answer => w.conclude t c answer
  | none => w.continueAs t (c.goto (.meeting place x))

/-- The call saves its thread's own range, and is over. -/
def leave (w : World α) (t : Nat) (c : Call α) (outcome : Outcome α) : World α :=
  let ranges := match c.token? with
    | some token => w.stack.ranges.store token c.policy
    | none => w.stack.ranges
  { w with
    stack := { w.stack with ranges }
    flights := w.flights.erase t
    returned := (t, ⟨outcome, c.policy⟩) :: w.returned }

/-- One step of the call of thread `t`; an offer it makes goes into an envelope at `a?`, or at the
lowest free address. -/
def stepAt (a? : Option Address) (t : Nat) (w : World α) : World α :=
  match w.flights.find? t with
  | none => w
  | some c =>
    match c.point with
    | .enter offer => w.enter t c offer
    | .attempt (some value) => w.attemptPush t c value
    | .attempt none => w.attemptPop t c
    | .visit offer => w.visit t c offer a?
    | .meeting place x => w.meet t c place x
    | .leave outcome => w.leave t c outcome
    | .stuck _ _ => w

/-- One step of the call of thread `t`. -/
def step (t : Nat) (w : World α) : World α := stepAt none t w

/-- Thread `t` begins a call on its own range. -/
def start (w : World α) (t : Nat) (offer : Option α) (random : List Nat) : World α :=
  w.continueAs t (Call.own w.stack.rangePolicy offer random)

/-- Thread `t` begins a call on an explicit policy. -/
def startWith (w : World α) (t : Nat) (policy : RangePolicy) (offer : Option α)
    (random : List Nat) : World α :=
  w.continueAs t (Call.withPolicy policy offer random)

/-- The clock moves on. -/
def advance (w : World α) (nanos : Nat) : World α :=
  { w with clock := clockAfter w.clock nanos }

/-- From now on every attempt at the top is lost to another thread, or none is. -/
def contend (w : World α) (on : Bool) : World α :=
  w.putStack (w.stack.stack.contend on)

/-- Thread `t` is on its way out. -/
def beginExit (w : World α) (t : Nat) : World α := { w with threads := w.threads.beginExit t }

/-- Thread `t` is over. -/
def finishExit (w : World α) (t : Nat) : World α := { w with threads := w.threads.finishExit t }

/-- Whether thread `t` has no call in flight, or one that can only wait. -/
def rests (t : Nat) (w : World α) : Bool :=
  match w.flights.find? t with
  | none => true
  | some c =>
    match c.point with
    | .meeting place x => x.parked w.clock (w.stack.slot place)
    | .stuck _ _ => true
    | _ => false

/-- How many steps of one call bring it, alone, to where it is over or can only wait: at most through
the end of one exchange, another attempt, and the beginning of the next exchange. -/
def passLength : Nat := Exchange.passLength + 8

/-- The call of thread `t` runs until it is over or can only wait. -/
def resume (t : Nat) (w : World α) : World α :=
  Schedule.resume (rests t) (step t) passLength w

/-- All calls run until they are over or can only wait. Each can change its mind only a few times
while the clock stands still. -/
def settle (w : World α) : World α :=
  Schedule.settle (·.flights.threads) rests resume (4 * w.flights.threads.length + 1) w

end World

end BackoffStack
