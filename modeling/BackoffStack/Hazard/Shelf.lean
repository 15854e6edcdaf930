/-
Stores side by side, each under a key of its own, and what a thread does to them: it acquires and
releases, queues nodes, and drains one store into another.
-/
import BackoffStack.Hazard.Store

namespace BackoffStack

/-- Stores by key. A key that was never used has a store nobody owns. -/
structure Shelf (ι : Type) where
  stores : List (Nat × Store ι) := []

namespace Shelf

variable {ι : Type}

/-- The store of a key. -/
def get (s : Shelf ι) (key : Nat) : Store ι :=
  (s.stores.lookup key).getD {}

/-- The shelf without the store of a key. -/
def remove (s : Shelf ι) (key : Nat) : Shelf ι :=
  { stores := s.stores.filter (·.1 ≠ key) }

/-- The shelf with another store under a key. -/
def put (s : Shelf ι) (key : Nat) (store : Store ι) : Shelf ι :=
  { stores := (key, store) :: (s.remove key).stores }

/-- The thread with the id `caller` publishes a version. -/
def acquire (s : Shelf ι) (key caller version : Nat) :
    Except Violation (Except Status Handle × Shelf ι) := do
  let (answer, store) ← (s.get key).acquire caller version
  return (answer, s.put key store)

/-- The thread with the id `caller` gives a handle back. -/
def release (s : Shelf ι) (key caller : Nat) (h : Handle) : Except Violation (Shelf ι) := do
  let store ← (s.get key).release caller h
  return s.put key store

/-- The thread with the id `caller` queues a node. -/
def add (s : Shelf ι) (key caller version : Nat) (node : Node ι) :
    Except Violation (Shelf ι) := do
  let store ← (s.get key).add caller version node
  return s.put key store

/-- The thread with the id `caller`, who owns the store of `receiver`, drains the store of `key`:
nodes that are too new move to the receiver. Answers the freed nodes, the first first. -/
def retire (s : Shelf ι) (key caller version receiver : Nat) :
    Except Violation (List (Waiting ι) × Shelf ι) := do
  (s.get receiver).assertOwner caller
  let drained := (s.get key).drain version
  let s := s.put key drained.store
  let s := s.put receiver ((s.get receiver).receive drained.kept)
  return (drained.freed, s)

end Shelf

end BackoffStack
