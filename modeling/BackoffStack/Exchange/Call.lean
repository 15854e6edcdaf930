/-
One exchange: a caller offers a value, or the marker of a pop, and waits for a partner that offers
the other kind, until its deadline.

  empty --(the waiter sets it)--> waiting --(a joiner sets it)--> busy --(the waiter)--> empty
                                     |
                                     +--(the waiter, out of time)--> empty

Only the waiter takes the slot out of `busy`, so it need not compare. A waiter that is out of time
and finds that it cannot withdraw has got a partner meanwhile, and completes the exchange.

A call is a program point and what it has in hand; `step` is one access to the slot or one reading
of the clock.
-/
import BackoffStack.Duration
import BackoffStack.Exchange.Slot
import BackoffStack.Status

namespace BackoffStack

/-- The program points of an exchange. -/
inductive Exchange.Point (α : Type) where
  /-- About to read the clock, not in the slot. -/
  | clock
  /-- About to read the slot. -/
  | look
  /-- Saw an empty slot, about to try to wait in it. -/
  | claim (seen : Word)
  /-- Saw a waiter of the other kind, about to try to join it. -/
  | join (seen : Word)
  /-- Waits in the slot, about to read it. -/
  | watch
  /-- Waits in the slot, about to read the clock. -/
  | check
  /-- Out of time, about to try to leave the slot. -/
  | withdraw
  /-- Has a partner, about to empty the slot. -/
  | clear (theirs : Address)
  /-- Over: the partner's offer, or its own after a timeout. -/
  | returned (answer : Except (Timeout α) (Option α))

/-- An exchange under way. -/
structure Exchange (α : Type) where
  mine : Address
  deadline : Nat
  point : Exchange.Point α := .clock

namespace Exchange

variable {α : Type}

/-- The start of an exchange: the deadline is set by the clock, and the offer goes into an envelope
at `a`. -/
def start (now : Nat) (timeout : Duration) (offer : Option α) (a : Address) (s : Slot α) :
    Exchange α × Slot α :=
  let (mine, s) := s.enclose a offer
  ({ mine, deadline := deadlineAfter now timeout }, s)

/-- Whether a waiting offer is of the other kind than one's own. -/
def matchesOffer (x : Exchange α) (theirs : Address) : Bool :=
  (theirs == nullAddress) != (x.mine == nullAddress)

/-- The call at another program point. -/
def goto (x : Exchange α) (p : Point α) : Exchange α := { x with point := p }

/-- Gives up, with one's own offer. -/
def giveUp (x : Exchange α) (s : Slot α) : Exchange α × Slot α :=
  let (offer, s) := s.takeOut x.mine
  (x.goto (.returned (.error ⟨offer⟩)), s)

/-- Completes, with the partner's offer. -/
def complete (x : Exchange α) (theirs : Address) (s : Slot α) : Exchange α × Slot α :=
  let (offer, s) := s.takeOut theirs
  (x.goto (.returned (.ok offer)), s)

/-- One access to the slot, or one reading of the clock. -/
def step (now : Nat) (x : Exchange α) (s : Slot α) : Exchange α × Slot α :=
  match x.point with
  | .clock => if x.deadline < now then x.giveUp s else (x.goto .look, s)
  | .look =>
    match s.word.state with
    | .empty => (x.goto (.claim s.word), s)
    | .waiting =>
      if x.matchesOffer s.word.address then (x.goto (.join s.word), s) else (x.goto .clock, s)
    | .busy => (x.goto .clock, s)
  | .claim seen =>
    match s.compareAndSet? seen (Word.compose x.mine .waiting) with
    | some s => (x.goto .watch, s)
    | none => (x.goto .clock, s)
  | .join seen =>
    match s.compareAndSet? seen (Word.compose x.mine .busy) with
    | some s => x.complete seen.address s
    | none => (x.goto .clock, s)
  | .watch =>
    match s.word.state with
    | .busy => (x.goto (.clear s.word.address), s)
    | _ => (x.goto .check, s)
  | .check => if x.deadline < now then (x.goto .withdraw, s) else (x.goto .watch, s)
  | .withdraw =>
    match s.compareAndSet? (Word.compose x.mine .waiting) Word.empty with
    | some s => x.giveUp s
    | none => (x.goto .watch, s)
  | .clear theirs => x.complete theirs (s.setWord Word.empty)
  | .returned _ => (x, s)

/-- What the call has returned, if it is over. -/
def answer? (x : Exchange α) : Option (Except (Timeout α) (Option α)) :=
  match x.point with
  | .returned answer => some answer
  | _ => none

/-- Whether the call, about to read the clock, can only come back there: it has time left, and finds
in the slot nothing it can act on. -/
def parked (now : Nat) (x : Exchange α) (s : Slot α) : Bool :=
  match x.point with
  | .clock =>
    decide (now ≤ x.deadline) &&
      match s.word.state with
      | .empty => false
      | .waiting => !x.matchesOffer s.word.address
      | .busy => true
  | .check => decide (now ≤ x.deadline) && s.word.state != .busy
  | _ => false

/-- How many steps of one call bring it from one reading of the clock, alone, to where it is over or
can only wait: at most through a claim, and through a withdrawal that fails. -/
def passLength : Nat := 8

end Exchange

end BackoffStack
