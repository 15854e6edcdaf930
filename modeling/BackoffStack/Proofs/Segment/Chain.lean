/-
The chain of segments in memory, and look-ups that walk along it one access at a time, in any order.

A segment carries the link to the next one, which is set once. A look-up loads the link of the segment it is
at. Where there is none it makes a fresh segment, and tries to set the link to that; if another look-up has
set it in between, it frees its own segment and goes on to the other's. The address of a segment that has
been freed may be used again.
-/
import BackoffStack.Exchange.Slot
import BackoffStack.Proofs.Rounds
import BackoffStack.Schedule
import BackoffStack.Segment.Table
import Mathlib.Logic.Function.Basic

namespace BackoffStack.SegmentTable

variable {α : Type}

/-- A segment where it lies: how many were made before it, its slots, and the link to the next one. -/
structure Block (α : Type) where
  serial : Nat
  slots : Segment α
  next : Option Address := none

/-- The program points of a look-up. -/
inductive Getter.Point where
  /-- About to load the link of the segment it is at, if its slot is further on. -/
  | load
  /-- Saw no link, and has made a segment to set the link to. -/
  | link (mine : Address)
  deriving DecidableEq

/-- A look-up: the segment it has reached, and how far on its slot is from there. It is written down how many
accesses it has made, but no step depends on that. -/
structure Getter where
  id : Nat
  place : Address
  rest : Nat
  point : Getter.Point := .load
  accesses : Nat := 0

/-- Whether the look-up has returned the slot of its id, which is in the segment that it has reached. -/
def Getter.arrived (g : Getter) : Bool := decide (g.rest < segmentSize)

/-- The walk along a table that a look-up makes. -/
def Getter.walk (g : Getter) : Walk where
  place := (g.id - g.rest) / segmentSize
  rest := g.rest
  point := match g.point with
    | .load => .look
    | .link _ => .link

/-- One segment further. -/
def Getter.advance (g : Getter) (next : Address) : Getter :=
  { g with
    place := next
    rest := g.rest - segmentSize
    point := .load
    accesses := g.accesses + 1 }

/-- Segments by address, the head of the chain, and the look-ups by number. It is written down how many
segments were made, which were freed, and what has been done to slots. -/
structure Chain (α : Type) where
  blocks : Address → Option (Block α)
  head : Address
  getters : Flights Getter := {}
  made : Nat
  freed : List Nat := []
  writes : List (Nat × (α → α)) := []

namespace Chain

/-- What happens to a chain. -/
inductive Event (α : Type) where
  /-- A new look-up begins. -/
  | get (t id : Nat)
  /-- A look-up makes one access; if it needs a fresh segment, it gets one at `a`. -/
  | step (t : Nat) (a : Address)
  /-- The slot that a look-up has returned is changed. -/
  | write (t : Nat) (f : α → α)

/-- A look-up goes on. -/
def goOn (c : Chain α) (t : Nat) (g : Getter) : Chain α :=
  { c with getters := c.getters.insert t g }

/-- The chain with another segment, or none, at an address. -/
def put (c : Chain α) (a : Address) (b? : Option (Block α)) : Chain α :=
  { c with blocks := Function.update c.blocks a b? }

/-- The segment at an address is freed, and the address may be used again. -/
def release (c : Chain α) (a : Address) : Chain α :=
  { c.put a none with freed := ((c.blocks a).map (·.serial)).toList ++ c.freed }

@[simp] theorem blocks_goOn (c : Chain α) (t : Nat) (g : Getter) : (c.goOn t g).blocks = c.blocks := rfl

@[simp] theorem blocks_put (c : Chain α) (a : Address) (b? : Option (Block α)) :
    (c.put a b?).blocks = Function.update c.blocks a b? := rfl

@[simp] theorem blocks_release (c : Chain α) (a : Address) :
    (c.release a).blocks = Function.update c.blocks a none := rfl

variable [Inhabited α]

/-- A chain of one segment. -/
def new (head : Address) : Chain α where
  blocks := Function.update (fun _ => none) head (some ⟨0, fresh, none⟩)
  head
  made := 1

/-- A fresh segment is made. -/
def make (c : Chain α) (a : Address) : Chain α :=
  { c.put a (some ⟨c.made, fresh, none⟩) with made := c.made + 1 }

@[simp] theorem blocks_make (c : Chain α) (a : Address) :
    (c.make a).blocks = Function.update c.blocks a (some ⟨c.made, fresh, none⟩) := rfl

/-- One access of a look-up that has not arrived. -/
def access (c : Chain α) (t : Nat) (g : Getter) (b : Block α) (a : Address) : Chain α :=
  match g.point, b.next with
  | .load, some next => c.goOn t (g.advance next)
  | .load, none =>
    if c.blocks a = none then
      (c.make a).goOn t { g with point := .link a, accesses := g.accesses + 1 }
    else
      c
  | .link mine, some next => (c.release mine).goOn t (g.advance next)
  | .link mine, none => (c.put g.place (some { b with next := some mine })).goOn t (g.advance mine)

/-- One event, if it can happen: a look-up has a number of its own, a segment is made where none lies, and a
slot is changed by whoever has looked it up. -/
def happen (c : Chain α) : Event α → Chain α
  | .get t id =>
    match c.getters.find? t with
    | some _ => c
    | none => c.goOn t { id, place := c.head, rest := id }
  | .step t a =>
    match c.getters.find? t with
    | some g =>
      match c.blocks g.place with
      | some b => if g.arrived then c else c.access t g b a
      | none => c
    | none => c
  | .write t f =>
    match c.getters.find? t with
    | some g =>
      match c.blocks g.place with
      | some b =>
        if g.arrived then
          { c.put g.place (some { b with slots := changeSlot b.slots g.rest f }) with
            writes := c.writes ++ [(g.id, f)] }
        else
          c
      | none => c
    | none => c

/-- The chain after a run. -/
def run (head : Address) (events : List (Event α)) : Chain α := events.foldl happen (new head)

omit [Inhabited α]

/-- Where the segment at a place of the chain lies. -/
def segmentAt (c : Chain α) : Nat → Option Address
  | 0 => some c.head
  | k + 1 => do (← c.blocks (← c.segmentAt k)).next

/-- Counts the next segment, if there is one. -/
def countNext (c : Chain α) : Nat × Option Address → Option (Nat ⊕ Nat × Option Address)
  | (count, none) => return .inl count
  | (count, some a) => do
    let b ← c.blocks a
    return .inr (count + 1, b.next)

/-- Counts on, along the links. -/
def countFrom (c : Chain α) (count : Nat) (next : Option Address) : Part Nat :=
  rounds c.countNext (count, next)

/-- Number of segments: the head, and those that are linked to it. -/
def segmentCount (c : Chain α) : Part Nat := do
  let b ← (c.blocks c.head : Part (Block α))
  c.countFrom 1 b.next

/-- Frees the next segment, if there is one; its slots are dropped. -/
def dropNext : Chain α × List (Block α) × Option Address →
    Option ((Chain α × List (Block α)) ⊕ Chain α × List (Block α) × Option Address)
  | (c, dropped, none) => return .inl (c, dropped)
  | (c, dropped, some a) => do
    let b ← c.blocks a
    return .inr (c.put a none, dropped ++ [b], b.next)

/-- Frees one segment after another, along the links. -/
def dropFrom (c : Chain α) (dropped : List (Block α)) (next : Option Address) :
    Part (Chain α × List (Block α)) :=
  rounds dropNext (c, dropped, next)

/-- The table goes: first the segments that are linked to the head, then the head. -/
def drop (c : Chain α) : Part (Chain α × List (Block α)) := do
  let b ← (c.blocks c.head : Part (Block α))
  let (c, dropped) ← c.dropFrom [] b.next
  let b ← (c.blocks c.head : Part (Block α))
  return (c.put c.head none, dropped ++ [b])

end Chain

end BackoffStack.SegmentTable
