/-
Scripted runs: a list of steps, each done by a named thread, one at a time. Here is what a step can
answer, and what is written down beside the answer.
-/
import BackoffStack.Notice

namespace BackoffStack

/-- A script gives signed words as plain numbers, -/
instance wordOfInt : Coe Int Int64 := ⟨Int64.ofInt⟩

/-- and is shown them as such. -/
instance intOfWord : Coe Int64 Int := ⟨Int64.toInt⟩

/-- Why a step is not tried at all: it could not come to an end, or names something unknown. -/
inductive Refusal where
  | wouldSpin
  | wouldWait
  | threadBusy
  | notLocked
  | noSuchHandle
  deriving DecidableEq

/-- The message of a refusal. -/
def Refusal.message : Refusal → String
  | wouldSpin => "would spin"
  | wouldWait => "would wait"
  | threadBusy => "thread is busy"
  | notLocked => "not locked"
  | noSuchHandle => "no such handle"

/-- What a step answers. -/
inductive Reply (α : Type) where
  | ok
  | linked
  | number (n : Int)
  | numbers (ns : List Int)
  | flag (b : Bool)
  | token (token : ThreadToken)
  | policy (p : RangePolicy)
  | status (s : Status)
  | value (v : α)
  | nothing
  | contended
  | givenBack (v : α)
  | broken (why : Violation)
  | refused (why : Refusal)

/-- The answer to an operation that a status may turn down. -/
def Reply.ofStatus {α β : Type} (ok : β → Reply α) : Except Status β → Reply α
  | .ok b => ok b
  | .error s => .status s

/-- Records with their threads; thread 0 is the one that makes the objects. -/
abbrev Log := List (Nat × Notice)

/-- The records of one thread. -/
def Log.of (t : Nat) (notices : List Notice) : Log := notices.map fun n => (t, n)

/-- In the order of threads, and for each thread in the order of time. -/
def byThread {β : Type} (entries : List (Nat × β)) : List (Nat × β) :=
  entries.mergeSort fun a b => decide (a.1 ≤ b.1)

/-- The entries of a history, the latest first, that were added since it was `before`, in the order
of time. -/
def addedSince {β : Type} (before after : List β) : List β :=
  (after.take (after.length - before.length)).reverse

/-- An association list with another value under a key. -/
def assign {κ β : Type} [BEq κ] (key : κ) (b : β) (entries : List (κ × β)) : List (κ × β) :=
  (key, b) :: entries.filter fun e => !(e.1 == key)

end BackoffStack
