/-
Why an operation is turned down, what an unmatched exchange gives back, and which assertions
the data structures make about their callers.
-/

namespace BackoffStack

/-- Why an operation on a hazard epoch, or a configuration, is turned down. -/
inductive Status where
  /-- The thread already holds a version. -/
  | busy
  /-- A parameter is out of its range. -/
  | invalidParam
  /-- The thread is on its way out and its token is gone. -/
  | threadExiting
  deriving DecidableEq

namespace Status

/-- Every status, in the order in which they are listed. -/
def all : List Status := [.busy, .invalidParam, .threadExiting]

/-- The name of a status, which is also its message. -/
def name : Status → String
  | busy => "Busy"
  | invalidParam => "InvalidParam"
  | threadExiting => "ThreadExiting"

/-- The status of a name, if there is one. -/
def ofName? (name : String) : Option Status :=
  all.find? (·.name == name)

end Status

/-- What a pop answers when it sees no top. -/
def emptyStackName : String := "EmptyStack"

/-- The message of a pop that saw no top. -/
def emptyStackMessage : String := "stack is empty"

/-- No partner came before the deadline: the offer goes back to its owner, `none` being the marker
that a pop offers. -/
structure Timeout (α : Type) where
  offer : Option α
  deriving DecidableEq

namespace Timeout

/-- The name of the error. -/
def name : String := "ExchangeTimeout"

/-- The message tells only what kind of offer stayed unmatched. -/
def message {α : Type} (t : Timeout α) : String :=
  "exchange timeout, offered " ++ (if t.offer.isSome then "value" else "pop marker")

/-- The record with its offer spelled out by `render`. -/
def text {α : Type} (render : α → String) (t : Timeout α) : String :=
  let offer := match t.offer with
    | some v => "Some(" ++ render v ++ ")"
    | none => "None"
  "ExchangeTimeout \x7b offer: " ++ offer ++ " \x7d"

end Timeout

/-- An assertion that a caller broke. -/
inductive Violation where
  /-- A store was used by a thread whose id is not the store's owner. -/
  | notOwner (caller owner : Nat)
  /-- A stack operation was turned down when it asked for a pin. -/
  | pinRefused (why : Status)
  /-- A lock was given back that nobody held. -/
  | notLocked
  /-- An exchange answered with an offer of one's own kind. -/
  | wrongOffer
  /-- A sum or a product did not fit a signed word. -/
  | overflow
  deriving DecidableEq

end BackoffStack
