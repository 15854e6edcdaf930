/-
Scripted runs over tables by thread id: one of saved ranges, and named ones of plain numbers.
-/
import BackoffStack.Range.Table
import BackoffStack.Scenario.Reply

namespace BackoffStack

namespace RangeScenario

/-- A step of a run. -/
inductive Step where
  | load (token : ThreadToken)
  | template
  /-- Load, record what some exchanges did, store. -/
  | record (token : ThreadToken) (outcomes : List RangePolicy.Outcome)
  | store (token : ThreadToken) (policy : RangePolicy)

/-- What the table does for a step. -/
def apply (table : RangeTable) : Step → Reply Unit × RangeTable
  | .load token =>
    let table := table.reach token.id
    (.policy (table.load token), table)
  | .template => (.policy table.template, table)
  | .record token outcomes =>
    let table := table.reach token.id
    let policy := (table.load token).walk outcomes
    (.policy policy, table.store token policy)
  | .store token policy => (.ok, table.store token policy)

/-- A run: each answer, with what the table reported. -/
def run (table : RangeTable) : List Step → List (Reply Unit × Log)
  | [] => []
  | s :: rest =>
    let (reply, after) := apply table s
    (reply, Log.of 0 (Notice.growth table.slots.count after.slots.count)) :: run after rest

end RangeScenario

namespace TableScenario

/-- What is done to a table. -/
inductive Action where
  | get
  | store (v : UInt64)
  /-- Adds, and answers what was there before. -/
  | add (v : UInt64)
  /-- Whether another id has the same slot. -/
  | same (other : Nat)
  | segmentSize

/-- A step of a run: a table, by its name, is used for an id, or goes. -/
inductive Step where
  | use (table : String) (id : Nat) (action : Action)
  | drop (table : String)

/-- What one step leaves behind; a table that is gone has no segments to count. -/
structure Record where
  reply : Reply Unit
  segments? : Option Nat := none
  log : Log := []

/-- The slot of an id: the place of its segment, and its place in there. -/
def location (id : Nat) : Nat × Nat := (id / segmentSize, id % segmentSize)

/-- What a table does for a step. -/
def apply (table : SegmentTable UInt64) (id : Nat) : Action → Reply Unit × SegmentTable UInt64
  | .get =>
    let table := table.reach id
    (.number (table.get id).toNat, table)
  | .store v => (.ok, (table.reach id).set id v)
  | .add v =>
    let table := table.reach id
    (.number (table.get id).toNat, table.modify id (· + v))
  | .same other =>
    (.flag (decide (location id = location other)), (table.reach id).reach other)
  | .segmentSize => (.number segmentSize, table)

/-- A run over tables by name. A table is made when it is first used; when it goes, all its slots
do. -/
def run (tables : List (String × SegmentTable UInt64)) : List Step → List Record
  | [] => []
  | .drop name :: rest =>
    let slots := match tables.lookup name with
      | some table => table.slots
      | none => []
    { reply := .number slots.length } :: run (tables.filter (·.1 ≠ name)) rest
  | .use name id action :: rest =>
    let table := (tables.lookup name).getD .new
    let (reply, after) := apply table id action
    { reply
      segments? := some after.count
      log := Log.of 0 (Notice.growth table.count after.count) }
      :: run (assign name after tables) rest

end TableScenario

end BackoffStack
