/-
A push or a pop on an elimination-backoff stack under way. It tries the top once; when that attempt is
lost it visits a slot, and meets a partner there or tries the top again after a timeout. A call on its
thread's own range loads that range first and saves it at the end; one on an explicit policy does
neither.
-/
import BackoffStack.Elimination.Stack
import BackoffStack.Notice

namespace BackoffStack

/-- How a call ends. -/
inductive Outcome (α : Type) where
  | pushed
  | popped (value : α)
  | empty
  | broken (why : Violation)

/-- The program points of a call. An offer is the value of a push, or none for a pop. -/
inductive Call.Point (α : Type) where
  /-- About to load its thread's own range. -/
  | enter (offer : Option α)
  /-- About to try the top. -/
  | attempt (offer : Option α)
  /-- Lost an attempt, about to draw a slot and make its offer there. -/
  | visit (offer : Option α)
  /-- Meets a partner at a place. -/
  | meeting (place : Nat) (exchange : Exchange α)
  /-- Knows its outcome, about to save its range. -/
  | leave (outcome : Outcome α)
  /-- Broke off inside an attempt, perhaps with a value that it had taken. Its thread unwinds: the call
  never returns, and saves nothing. -/
  | stuck (why : Violation) (lost? : Option α)

/-- A call under way: the policy in use, the token it goes back to if it is the thread's own, and the
random numbers still to be drawn, all of them zero after the last. -/
structure Call (α : Type) where
  kind : Kind
  policy : RangePolicy
  token? : Option ThreadToken := none
  random : List Nat := []
  point : Call.Point α

namespace Call

variable {α : Type}

/-- The kind of a call that makes this offer. -/
def kindOf (offer : Option α) : Kind := if offer.isSome then .push else .pop

/-- A call on its thread's own range. -/
def own (template : RangePolicy) (offer : Option α) (random : List Nat) : Call α where
  kind := kindOf offer
  policy := template
  random := random
  point := .enter offer

/-- A call on an explicit policy. -/
def withPolicy (policy : RangePolicy) (offer : Option α) (random : List Nat) : Call α where
  kind := kindOf offer
  policy := policy
  random := random
  point := .attempt offer

/-- The call at another program point. -/
def goto (c : Call α) (p : Point α) : Call α := { c with point := p }

end Call

/-- What is left of a call that is over. -/
structure Finished (α : Type) where
  outcome : Outcome α
  policy : RangePolicy

end BackoffStack
