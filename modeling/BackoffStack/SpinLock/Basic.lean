/-
A lock that is one flag. Taking it looks at the flag first and tries to set it only when it was
clear; giving it back clears it.
-/
import BackoffStack.Status

namespace BackoffStack

/-- A flag and the value it protects. -/
structure SpinLock (α : Type) where
  locked : Bool := false
  value : α

namespace SpinLock

variable {α : Type}

/-- Sets the flag to `new` if it is `old`, and tells whether it was. -/
def exchangeFlag (l : SpinLock α) (old new : Bool) : Bool × SpinLock α :=
  if l.locked = old then (true, { l with locked := new }) else (false, l)

/-- Takes the lock if nobody holds it. -/
def tryLock (l : SpinLock α) : Option (SpinLock α) :=
  if l.locked then
    none
  else
    match l.exchangeFlag false true with
    | (true, l) => some l
    | (false, _) => none

/-- Gives the lock back, which somebody has to hold. -/
def unlock (l : SpinLock α) : Except Violation (SpinLock α) :=
  match l.exchangeFlag true false with
  | (true, l) => .ok l
  | (false, _) => .error .notLocked

theorem tryLock_eq (l : SpinLock α) :
    l.tryLock = if l.locked then none else some { l with locked := true } := by
  cases h : l.locked <;> simp [tryLock, exchangeFlag, h]

theorem unlock_eq (l : SpinLock α) :
    l.unlock = if l.locked then .ok { l with locked := false } else .error .notLocked := by
  cases h : l.locked <;> simp [unlock, exchangeFlag, h]

end SpinLock

end BackoffStack
