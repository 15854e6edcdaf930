/-
The waiting lists of stores as they lie in memory, and one pass over such a list that works in place.

A node carries the link to the next one, and a store the address of its first. `Heap.retire` takes the list
of a store, unlinks the nodes that can be freed and turns them around, one access after another, then
links what is left in front of another list. It comes to no result where a link leads to a place without
a node, where a node would be linked to itself, or where a list has no end.
-/
import BackoffStack.Exchange.Slot
import BackoffStack.Hazard.Shelf
import BackoffStack.Proofs.Rounds
import Mathlib.Logic.Function.Basic

namespace BackoffStack

variable {ι : Type}

/-- A node where it lies: what waits there, and the link to the next node of its list. -/
structure Linked (ι : Type) where
  waiting : Waiting ι
  next : Option Address

/-- The store of a thread, with the address of the first node in place of a list. -/
structure Anchor where
  owner : Nat := 0
  lastRetired : Nat := 0
  first : Option Address := none
  count : Int := 0

/-- The nodes by address, the stores by key, and the nodes that have been freed, the first first. -/
structure Heap (ι : Type) where
  nodes : Address → Option (Linked ι)
  anchors : Nat → Anchor
  freed : List (Waiting ι) := []

namespace Heap

/-- Links the node at an address to another. -/
def link (h : Heap ι) (a : Address) (next : Option Address) : Option (Heap ι) := do
  let node ← h.nodes a
  return { h with nodes := Function.update h.nodes a (some { node with next }) }

/-- The heap with another store under a key. -/
def anchor (h : Heap ι) (key : Nat) (store : Anchor) : Heap ι :=
  { h with anchors := Function.update h.anchors key store }

/-- Puts the nodes from `first` to `last`, so many, before those that wait in a store already. -/
def splice (h : Heap ι) (key : Nat) (first last : Address) (count : Nat) : Option (Heap ι) := do
  let store := h.anchors key
  let h ← h.link last store.first
  return h.anchor key { store with first := some first, count := store.count + count }

/-- Frees the node at an address: its drop function runs, and it is gone. -/
def free (drop : Node ι → Heap ι → Heap ι) (h : Heap ι) (a : Address) : Option (Heap ι) := do
  let node ← h.nodes a
  let h := drop node.waiting.node h
  return { h with
    nodes := Function.update h.nodes a none
    freed := h.freed ++ [node.waiting] }

/-- Frees the next node, if there is one. -/
def freeNext (drop : Node ι → Heap ι → Heap ι) :
    Heap ι × Option Address → Option (Heap ι ⊕ Heap ι × Option Address)
  | (h, none) => return .inl h
  | (h, some a) => do
    let node ← h.nodes a
    return .inr (← h.free drop a, node.next)

/-- Frees one node after another, along the links. -/
def freeAll (drop : Node ι → Heap ι → Heap ι) (h : Heap ι) (first : Option Address) : Part (Heap ι) :=
  rounds (freeNext drop) (h, first)

end Heap

/-- A pass under way over a list that has been taken off its store. -/
structure Pass (ι : Type) where
  heap : Heap ι
  /-- The link of the pseudo head, which is no node of the heap. -/
  first : Option Address
  /-- The last node that stays, or none if it is the pseudo head. -/
  last : Option Address := none
  /-- The first of the nodes to be freed. -/
  retired : Option Address := none
  moves : Nat := 0
  retires : Nat := 0

namespace Pass

/-- The link of the last node that stays. -/
def next (p : Pass ι) : Option (Option Address) :=
  match p.last with
  | none => return p.first
  | some a => do
    let node ← p.heap.nodes a
    return node.next

/-- Links the last node that stays to another, which must not be itself. -/
def relink (p : Pass ι) (next : Option Address) : Option (Pass ι) :=
  match p.last with
  | none => return { p with first := next }
  | some a =>
    if next = some a then
      none
    else do
      let heap ← p.heap.link a next
      return { p with heap }

/-- What becomes of the next node: it goes on top of those to be freed, or stays. -/
def turn (version : Nat) (p : Pass ι) (candidate : Address) : Option (Pass ι) := do
  let node ← p.heap.nodes candidate
  if node.waiting.version ≤ version then
    let p ← p.relink node.next
    let heap ← p.heap.link candidate p.retired
    return { p with heap, retired := some candidate, retires := p.retires + 1 }
  else
    return { p with last := some candidate, moves := p.moves + 1 }

/-- Goes on to the next node, if there is one. -/
def goOn (version : Nat) (p : Pass ι) : Option (Pass ι ⊕ Pass ι) := do
  match ← p.next with
  | none => return .inl p
  | some candidate => return .inr (← p.turn version candidate)

/-- Goes on to the end of the list. -/
def loop (version : Nat) (p : Pass ι) : Part (Pass ι) := rounds (goOn version) p

/-- Hands the nodes that stay over to a store. -/
def handOver (p : Pass ι) (receiver : Nat) : Option (Heap ι) :=
  match p.first, p.last with
  | none, _ => return p.heap
  | some first, some last => p.heap.splice receiver first last p.moves
  | some _, none => none

end Pass

namespace Heap

/-- Takes all nodes off the waiting list of a store, to part them at a version. -/
def take (h : Heap ι) (key version : Nat) : Heap ι :=
  h.anchor key { h.anchors key with lastRetired := version, first := none }

/-- Nodes that have been taken off a store do not count there any more. -/
def discount (h : Heap ι) (key count : Nat) : Heap ι :=
  h.anchor key { h.anchors key with count := (h.anchors key).count - count }

/-- The thread with the id `caller`, who owns the store of `receiver`, drains the store of `key`: nodes that
are too new move to the receiver. Answers the number of freed nodes. -/
def retire (drop : Node ι → Heap ι → Heap ι) (h : Heap ι) (key caller version receiver : Nat) :
    Part (Nat × Heap ι) :=
  Part.assert ((h.anchors receiver).owner = caller) fun _ =>
    if (h.anchors key).lastRetired = version then
      return (0, h)
    else do
      let p ← Pass.loop version { heap := h.take key version, first := (h.anchors key).first }
      let h ← (p.handOver receiver : Part (Heap ι))
      let h ← (h.discount key (p.moves + p.retires)).freeAll drop p.retired
      return (p.retires, h)

end Heap

end BackoffStack
