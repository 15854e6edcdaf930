/-
The elimination-backoff stack: a Treiber stack, a row of slots where operations meet that lost an
attempt at its top, the range of every thread, and counters.
-/
import BackoffStack.Config
import BackoffStack.Elimination.Stats
import BackoffStack.Exchange.Arena
import BackoffStack.Range.Table
import BackoffStack.Treiber.Stack

namespace BackoffStack

/-- An elimination-backoff stack. -/
structure EliminationStack (α : Type) where
  config : Config
  stack : TreiberStack α
  slots : List (Slot α)
  ranges : RangeTable
  stats : Stats := {}

namespace EliminationStack

variable {α : Type}

/-- An empty stack, whatever the configuration is worth. -/
def ofConfig (c : Config) : EliminationStack α where
  config := c
  stack := .new c.threshold c.cacheTime
  slots := List.replicate (max c.capacity 1) {}
  ranges := { template := c.rangePolicy }

/-- An empty stack, if the configuration is acceptable. -/
def create (c : Config) : Except Status (EliminationStack α) := do
  c.validate
  return ofConfig c

/-- A fresh policy with the configured bounds. -/
def rangePolicy (s : EliminationStack α) : RangePolicy := s.ranges.template

/-- Number of slots. -/
def capacity (s : EliminationStack α) : Nat := s.slots.length

/-- The slot at a place. -/
def slot (s : EliminationStack α) (place : Nat) : Slot α := s.slots.getD place {}

/-- The stack with another slot at a place. -/
def putSlot (s : EliminationStack α) (place : Nat) (slot : Slot α) : EliminationStack α :=
  { s with slots := s.slots.set place slot }

/-- Whether no cell is on the stack; values that are being exchanged are not seen. -/
def isEmpty (s : EliminationStack α) : Bool := s.stack.isEmpty

end EliminationStack

end BackoffStack
