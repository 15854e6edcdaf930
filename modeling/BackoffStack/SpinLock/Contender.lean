/-
Threads that contend for one lock. Each looks at the flag and tries to set it in separate accesses,
then works on the protected value in as many steps as it has, then gives the lock back.
-/
import BackoffStack.SpinLock.Basic

namespace BackoffStack

namespace SpinLock

/-- The program points of a contender. -/
inductive Contender.Point where
  /-- About to look at the flag. -/
  | look
  /-- Saw the flag clear, about to try to set it. -/
  | take
  /-- Holds the lock. -/
  | hold
  /-- Has given the lock back. -/
  | released
  /-- Found the lock open when giving it back. -/
  | broken
  deriving DecidableEq

/-- A contender: where it stands, and the changes it has yet to make while it holds the lock. -/
structure Contender (α : Type) where
  work : List (α → α)
  point : Contender.Point := .look

namespace Contender

variable {α : Type}

/-- One access of a contender. -/
def step (c : Contender α) (l : SpinLock α) : Contender α × SpinLock α :=
  match c.point with
  | .look => if l.locked then (c, l) else ({ c with point := .take }, l)
  | .take =>
    match l.exchangeFlag false true with
    | (true, l) => ({ c with point := .hold }, l)
    | (false, l) => ({ c with point := .look }, l)
  | .hold =>
    match c.work with
    | f :: work => ({ c with work }, { l with value := f l.value })
    | [] =>
      match l.unlock with
      | .ok l => ({ c with point := .released }, l)
      | .error _ => ({ c with point := .broken }, l)
  | .released | .broken => (c, l)

/-- A number of accesses in a row. -/
def run : Nat → Contender α → SpinLock α → Contender α × SpinLock α
  | 0, c, l => (c, l)
  | n + 1, c, l => let (c, l) := c.step l; run n c l

/-- The lock after a contender had it for itself: two accesses to get it, one for each change, one to
give it back. -/
def alone (c : Contender α) (l : SpinLock α) : SpinLock α :=
  (c.run (c.work.length + 3) l).2

end Contender

end SpinLock

end BackoffStack
