/-
Many threads that each do the same thing many times over. What is told of it are totals that do not
depend on the order in which the threads run; here one runs after the other.
-/
import BackoffStack.Scenario.Elimination
import BackoffStack.Scenario.Hazard
import BackoffStack.Scenario.Lock
import BackoffStack.Scenario.Meeting
import BackoffStack.Scenario.Tables
import BackoffStack.Scenario.Treiber

namespace BackoffStack.Storm

/-- What is told beside the values. -/
inductive Extra where
  | nothing
  | empty (b : Bool)
  | totals (empty : Bool) (pushes pops : UInt64) (pairsMatch : Bool)
  | segments (n : Nat)
  | balanced (b : Bool)

/-- The values that came through, in ascending order, and more. -/
structure Report where
  values : List Int
  extra : Extra

/-- The number of each round of each thread: thread `t` has `t * loops + i` in its round `i`. -/
def rounds (threads loops : Nat) : List (Nat × Int) :=
  (List.range threads).flatMap fun t =>
    (List.range loops).map fun i => (t + 1, Int.ofNat (t * loops + i))

/-- The values among answers. -/
def valuesOf (replies : List (Reply Int)) : List Int :=
  replies.filterMap fun
    | .value v => some v
    | _ => none

/-- Each round pushes its number onto a Treiber stack, and pops. -/
def treiber (threads loops : Nat) : Report :=
  let start : TreiberScenario.State Int :=
    { stack := .new defaultThreshold defaultCacheTime }
  let (replies, s) := (rounds threads loops).foldl
    (fun (replies, s) (t, n) =>
      let (_, _, s) := TreiberScenario.act s t (.push n)
      let (reply, _, s) := TreiberScenario.act s t .pop
      (reply :: replies, s))
    ([], start)
  { values := LockScenario.ascending (valuesOf replies), extra := .empty s.stack.isEmpty }

/-- Each round pushes its number onto an elimination-backoff stack, and pops. -/
def elimination (s : EliminationStack Int) (threads loops : Nat) : Report :=
  let w := (rounds threads loops).foldl
    (fun w (t, n) =>
      let w := (World.start w t (some n) []).resume t
      (w.start t none []).resume t)
    ({ stack := s } : World Int)
  let values := w.returned.filterMap fun (_, call) =>
    match call.outcome with
    | .popped v => some v
    | _ => none
  let stats := w.stack.stats
  { values := LockScenario.ascending values
    extra := .totals w.stack.isEmpty
      (stats.stackPushes + stats.eliminatedPushes) (stats.stackPops + stats.eliminatedPops)
      (stats.eliminatedPushes == stats.eliminatedPops) }

/-- In each round a push offers its number, and a pop comes to take it. -/
def meeting (timeout : Duration) (threads loops : Nat) : Report :=
  let w := (rounds threads loops).foldl
    (fun w (t, n) =>
      let w := (Arena.start w t 0 timeout (some n)).resume t
      let popper := threads + t
      ((w.start popper 0 timeout none).resume popper).settle)
    (Arena.withCapacity 1)
  let values := w.returned.filterMap fun (_, answer) =>
    match answer with
    | .ok (some v) => some v
    | _ => none
  { values := LockScenario.ascending values, extra := .nothing }

/-- Each round pushes its number onto a list under a lock. -/
def lock (threads loops : Nat) : Report :=
  let lock := LockScenario.contend { value := [] } ((rounds threads loops).map (·.2))
  { values := LockScenario.ascending lock.value, extra := .nothing }

/-- Thread `t` adds `t + 1` to each of the first slots of a table. In the end every one of these slots
is looked up, whether a thread came to it or not. -/
def table (threads slots : Nat) : Report :=
  let ids := List.range slots
  let table := (List.range threads).foldl
    (fun table t =>
      ids.foldl
        (fun (table : SegmentTable UInt64) id => (table.reach id).modify id (· + .ofNat (t + 1)))
        table)
    (SegmentTable.new : SegmentTable UInt64)
  let table := ids.foldl (fun table id => table.reach id) table
  { values := ids.map fun id => Int.ofNat (table.get id).toNat
    extra := .segments table.count }

/-- Each round pins an epoch, queues a node, and lets go; in the end the epoch goes. -/
def hazard (threads loops : Nat) : Report :=
  let start : HazardScenario.State Int := { epoch := { threshold := 2, cacheTime := 0 } }
  let (freed, s) := (rounds threads loops).foldl
    (fun (freed, s) (t, n) =>
      let (_, s) := HazardScenario.act s t .pin
      let (_, s) := HazardScenario.act s t (.add (.leaf n))
      let (effect, s) := HazardScenario.act s t .unpin
      (effect.dropped.reverse ++ freed, s))
    (([] : List Int), start)
  let waiting := s.epoch.waitingCount
  { values := LockScenario.ascending (s.epoch.destroy List.cons freed)
    extra := .balanced (decide (waiting + freed.length = threads * loops)) }

end BackoffStack.Storm
