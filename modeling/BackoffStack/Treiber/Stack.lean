/-
The Treiber stack: a chain of cells from the top. An attempt to push or pop is one change of the top,
which goes through or is lost to another thread. A popped cell gives its value away at once and its
node to the hazard epoch; a pop holds a guard while it looks at the top.

A node keeps the bits of its value for as long as it lives, also after a pop has moved the value out. So
when a node goes, its value must not go with it: the field that holds it is one that is dropped by hand.
-/
import BackoffStack.Hazard.Epoch

namespace BackoffStack

/-- How a record holds a value. -/
inductive Field (α : Type) where
  /-- When the record goes, the value is dropped. -/
  | plain (value : α)
  /-- It is dropped by hand or not at all. -/
  | manual (value : α)

namespace Field

variable {α : Type}

/-- The value. Whoever moves it out leaves its bits behind. -/
def get : Field α → α
  | plain value => value
  | manual value => value

/-- What is dropped when the record goes. -/
def glue : Field α → List α
  | plain value => [value]
  | manual _ => []

end Field

/-- A linked node, and the field that holds its value. -/
structure Cell (α : Type) where
  node : Nat
  field : Field α

namespace Cell

variable {α : Type}

/-- A new node for a value. -/
def make (node : Nat) (value : α) : Cell α := ⟨node, .manual value⟩

/-- The value of a node. -/
def value (c : Cell α) : α := c.field.get

@[simp] theorem node_make (node : Nat) (value : α) : (make node value).node = node := rfl

@[simp] theorem value_make (node : Nat) (value : α) : (make node value).value = value := rfl

end Cell

/-- What is gone: nodes that were freed, and values that were dropped where they were, each the latest
first. -/
structure Gone (α : Type) where
  freed : List (Cell α) := []
  dropped : List α := []

namespace Gone

variable {α : Type}

/-- A value is dropped. -/
def drop (g : Gone α) (value : α) : Gone α := { g with dropped := value :: g.dropped }

/-- A node is freed, and takes with it what its fields drop. -/
def free (c : Cell α) (g : Gone α) : Gone α where
  freed := c :: g.freed
  dropped := c.field.glue.reverse ++ g.dropped

/-- Nodes are freed one after the other. -/
def freeAll (g : Gone α) (cells : List (Cell α)) : Gone α :=
  cells.foldl (fun g c => g.free c) g

end Gone

/-- A stack of cells, the top first. Nodes are numbered as they are made. -/
structure TreiberStack (α : Type) where
  epoch : Epoch (Cell α)
  cells : List (Cell α) := []
  made : Nat := 0
  gone : Gone α := {}
  contended : Bool := false

/-- How an attempt to push ends. A contended one gives the value back. -/
inductive TryPush (α : Type) where
  | pushed
  | contended (value : α)

/-- How an attempt to pop ends. -/
inductive TryPop (α : Type) where
  | popped (value : α)
  | empty
  | contended
  /-- The thread broke off. If it had taken a value by then, nobody gets it, nor is it dropped. -/
  | broken (why : Violation) (lost? : Option α)

namespace TryPop

variable {α : Type}

/-- The value that an attempt has taken. -/
def value? : TryPop α → Option α
  | popped value => some value
  | empty => none
  | contended => none
  | broken _ lost? => lost?

/-- The answer of an attempt whose guard is dropped this way. -/
def unpinned (answer : TryPop α) : Except Violation Unit → TryPop α
  | .ok () => answer
  | .error why => .broken why answer.value?

end TryPop

namespace TreiberStack

variable {α : Type}

/-- An empty stack over an epoch tuned this way. -/
def new (threshold cacheTime : Int64) : TreiberStack α where
  epoch := { threshold, cacheTime }

/-- The values from the top down. -/
def values (s : TreiberStack α) : List α := s.cells.map (·.value)

/-- Whether there is no top. -/
def isEmpty (s : TreiberStack α) : Bool := s.cells.isEmpty

/-- From now on every attempt is lost to another thread, or none is. -/
def contend (s : TreiberStack α) (on : Bool) : TreiberStack α := { s with contended := on }

/-- One attempt to push. It makes a node, which is unmade if the attempt is lost. -/
def tryPush (s : TreiberStack α) (value : α) : TryPush α × TreiberStack α :=
  let cell := Cell.make s.made value
  let s := { s with made := s.made + 1 }
  if s.contended then
    (.contended cell.value, s)
  else
    (.pushed, { s with cells := cell :: s.cells })

/-- A guard for a stack operation, which no thread asks for while it holds one. -/
def pin (s : TreiberStack α) (who : Identity) : Except Violation (Guard × TreiberStack α) := do
  match ← s.epoch.pin who with
  | (.pinned guard, epoch) => return (guard, { s with epoch })
  | (.refused why, _) => throw (.pinRefused why)
  | (.spins, _) => throw (.pinRefused .busy)

/-- The stack after its epoch has turned into `epoch` and freed these nodes. -/
def collect (s : TreiberStack α) (epoch : Epoch (Cell α)) (freed : List (Cell α)) : TreiberStack α :=
  { s with epoch, gone := s.gone.freeAll freed }

/-- Drops the guard of a stack operation. -/
def unpin (s : TreiberStack α) (who : Identity) (g : Guard) (now : Int64) :
    Except Violation Unit × TreiberStack α :=
  match s.epoch.unpin who.id g now with
  | (.ok freed, epoch) => (.ok (), s.collect epoch freed)
  | (.error why, epoch) => (.error why, s.collect epoch [])

/-- What an attempt to pop does while it holds its guard: it takes the top off, moves its value out, and
queues its node. -/
def takeTop (s : TreiberStack α) (me : Nat) : Except Violation (TryPop α × TreiberStack α) :=
  match s.cells with
  | [] => .ok (.empty, s)
  | cell :: cells => do
    let epoch ← s.epoch.add me (.leaf cell)
    return (.popped cell.value, { s with cells, epoch })

/-- One attempt to pop. -/
def tryPop (s : TreiberStack α) (who : Identity) (now : Int64) : TryPop α × TreiberStack α :=
  if s.contended then
    (.contended, s)
  else
    let taken := do
      let (guard, s) ← s.pin who
      return (guard, ← s.takeTop who.id)
    match taken with
    | .ok (guard, answer, s) =>
      let (ended, s) := s.unpin who guard now
      (answer.unpinned ended, s)
    | .error why => (.broken why none, s)

/-- The destructor's way down the chain: the value of a node is dropped by hand, and then the node is
freed. -/
def destroyAlong : List (Cell α) → Gone α → Gone α
  | [], gone => gone
  | cell :: cells, gone => destroyAlong cells ((gone.drop cell.value).free cell)

/-- What is gone when the stack is: the chain goes first, from the top down, and then the epoch with the
nodes that it still keeps. -/
def destroy (s : TreiberStack α) : Gone α :=
  s.epoch.destroy Gone.free (destroyAlong s.cells s.gone)

end TreiberStack

end BackoffStack
