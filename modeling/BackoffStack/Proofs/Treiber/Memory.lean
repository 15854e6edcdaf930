/-
The Treiber stack in memory: nodes at addresses that are used again, and calls that touch them one access
at a time, in any order.

An attempt to push loads the top, links its node to what it has found there, and swings the top over to
its node if the top is still the same. It takes no pin. An attempt to pop pins, loads the top, reads which
node is the next one, and swings the top over to that. After that it reads the value, hands the node to
the epoch, and unpins.

Of the epoch no more is used than its promise: a node is not freed while a pin is held that was taken
before the node was handed over.
-/
import BackoffStack.Exchange.Slot
import BackoffStack.Schedule
import BackoffStack.Treiber.Stack
import Mathlib.Logic.Function.Basic

namespace BackoffStack

variable {α : Type}

/-- A node in memory, and where the next one lies. -/
structure Link (α : Type) where
  cell : Cell α
  next : Option Address := none

/-- The address of a node that was handed to the epoch, and when that began. -/
structure Retired where
  address : Address
  since : Nat

/-- The program points of an attempt. -/
inductive Attempt.Point (α : Type) where
  /-- A push, about to load the top. -/
  | load (mine : Address)
  /-- About to link its node to the one that it has found. -/
  | link (mine : Address) (seen : Option Address)
  /-- About to swing the top over to its node. -/
  | push (mine : Address) (seen : Option Address)
  /-- A push that was lost: the caller has the node again. -/
  | lost (mine : Address)
  /-- A pop, about to pin. -/
  | pin
  /-- Pinned, about to load the top. -/
  | look
  /-- About to read which node is the next one. -/
  | follow (seen : Address)
  /-- About to swing the top over to the next node. -/
  | pop (seen : Address) (next : Option Address)
  /-- Has taken the top off, about to read its value. -/
  | read (taken : Address)
  /-- About to hand the node to the epoch. -/
  | retire (taken : Address) (value : α)
  /-- About to unpin, and to answer. -/
  | unpin (answer : TryPop α)

/-- An attempt under way. It is written down which node it is about and when it took its pin, but no step
depends on the first. -/
structure Attempt (α : Type) where
  point : Attempt.Point α
  cell? : Option (Cell α) := none
  pin? : Option Nat := none

/-- Nodes by address, the top, the attempts under way by thread, and the nodes that the epoch keeps. It is
written down how many nodes were made, which were freed, and what attempts to pop have answered. -/
structure Memory (α : Type) where
  nodes : Address → Option (Link α) := fun _ => none
  top : Option Address := none
  attempts : Flights (Attempt α) := {}
  waiting : List Retired := []
  now : Nat := 0
  made : Nat := 0
  freed : List Nat := []
  answers : List (Nat × TryPop α) := []

namespace Memory

/-- What happens in memory. -/
inductive Event (α : Type) where
  /-- A thread makes a node at an address, and begins to push it. -/
  | push (t : Nat) (value : α) (a : Address)
  /-- A thread begins to pop. -/
  | pop (t : Nat)
  /-- The attempt of a thread makes one access. -/
  | step (t : Nat)
  /-- A thread tries again to push a node. -/
  | retry (t : Nat)
  /-- A thread frees the node that it has failed to push. -/
  | discard (t : Nat)
  /-- The epoch frees a node. -/
  | free (a : Address)

/-- When the pins were taken that are held. -/
def pins (m : Memory α) : List Nat := m.attempts.entries.filterMap (·.2.pin?)

/-- Memory with another node, or none, at an address. -/
def put (m : Memory α) (a : Address) (l? : Option (Link α)) : Memory α :=
  { m with nodes := Function.update m.nodes a l? }

/-- The node at an address is freed, and the address may be used again. -/
def release (m : Memory α) (a : Address) : Memory α :=
  { m.put a none with freed := ((m.nodes a).map (·.cell.node)).toList ++ m.freed }

/-- The attempt of a thread goes on. -/
def goOn (m : Memory α) (t : Nat) (c : Attempt α) (p : Attempt.Point α) : Memory α :=
  { m with attempts := m.attempts.insert t { c with point := p } }

/-- One access of an attempt. Where it finds no node to touch, it is stuck. -/
def access (m : Memory α) (t : Nat) (c : Attempt α) : Memory α :=
  match c.point with
  | .load mine => m.goOn t c (.link mine m.top)
  | .link mine seen =>
    match m.nodes mine with
    | some l => (m.put mine (some { l with next := seen })).goOn t c (.push mine seen)
    | none => m
  | .push mine seen =>
    if m.top = seen then
      { m with top := some mine, attempts := m.attempts.erase t }
    else
      m.goOn t c (.lost mine)
  | .lost _ => m
  | .pin => { m with now := m.now + 1 }.goOn t { c with pin? := some m.now } .look
  | .look =>
    match m.top with
    | some a => m.goOn t { c with cell? := (m.nodes a).map (·.cell) } (.follow a)
    | none => m.goOn t c (.unpin .empty)
  | .follow seen =>
    match m.nodes seen with
    | some l => m.goOn t c (.pop seen l.next)
    | none => m
  | .pop seen next =>
    if m.top = some seen then
      { m with top := next }.goOn t c (.read seen)
    else
      m.goOn t c (.unpin .contended)
  | .read taken =>
    match m.nodes taken with
    | some l => m.goOn t c (.retire taken l.cell.value)
    | none => m
  | .retire taken value =>
    { m with now := m.now + 1, waiting := ⟨taken, m.now⟩ :: m.waiting }.goOn t c
      (.unpin (.popped value))
  | .unpin answer =>
    { m with attempts := m.attempts.erase t, answers := (t, answer) :: m.answers }

/-- One event, if it can happen: a thread makes one attempt at a time, a node is made where none lies, and
the epoch keeps its promise. -/
def happen (m : Memory α) : Event α → Memory α
  | .push t value a =>
    if m.attempts.find? t = none ∧ m.nodes a = none then
      { m.put a (some { cell := .make m.made value }) with
        made := m.made + 1
        attempts := m.attempts.insert t { point := .load a, cell? := some (.make m.made value) } }
    else
      m
  | .pop t =>
    if m.attempts.find? t = none then
      { m with attempts := m.attempts.insert t { point := .pin } }
    else
      m
  | .step t =>
    match m.attempts.find? t with
    | some c => m.access t c
    | none => m
  | .retry t =>
    match m.attempts.find? t with
    | some c =>
      match c.point with
      | .lost mine => m.goOn t c (.load mine)
      | _ => m
    | none => m
  | .discard t =>
    match m.attempts.find? t with
    | some c =>
      match c.point with
      | .lost mine => { m.release mine with attempts := m.attempts.erase t }
      | _ => m
    | none => m
  | .free a =>
    match m.waiting.find? (·.address == a) with
    | some w =>
      if ∀ p ∈ m.pins, w.since ≤ p then
        { m.release a with waiting := m.waiting.filter (·.address ≠ a) }
      else
        m
    | none => m

/-- Memory after a run. -/
def run (events : List (Event α)) : Memory α := events.foldl happen {}

/-- From an address on, nodes are linked through these addresses, and that is the end. -/
def Chained (nodes : Address → Option (Link α)) : Option Address → List (Address × Cell α) → Prop
  | p, [] => p = none
  | p, (a, cell) :: rest =>
    p = some a ∧ ∃ next, nodes a = some ⟨cell, next⟩ ∧ Chained nodes next rest

end Memory

end BackoffStack
