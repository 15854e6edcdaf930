/-
A hazard epoch that many threads use at once. What each of them does comes in single accesses to what they
share, and those of different threads may come in any order.

The shared memory is an epoch. Whoever takes a lock that is not free tries again. A version is published as
it is: counting never gets as far as the one that stands for none. Nodes come onto a waiting list in one
access, as attempts that are lost change nothing. A release whose limits do not fit a word breaks off, and
ends there.
-/
import BackoffStack.Hazard.Epoch
import BackoffStack.Proofs.Crowd.Ledger
import BackoffStack.Segment.Facts

namespace BackoffStack

variable {ι : Type}

/-- Who takes steps. At any time one thread at most holds an id; threads on their way out are any number,
and share an id. -/
inductive Actor where
  | live (n : Nat)
  | exiting (n : Nat)
  deriving DecidableEq

/-- The id that an actor acts under. -/
def Actor.id : Actor → Nat
  | live n => exitingId + 1 + n
  | exiting _ => exitingId

/-- What an actor sets out to do. -/
inductive Errand (ι : Type) where
  | acquire
  | release (handle : Handle)
  | add (node : Node ι)
  | retire

/-- Which stores are drained to a minimum. -/
inductive Extent where
  | own
  | all

/-- One access to the shared memory. -/
inductive Access (ι : Type) where
  /-- Looks whether one's store is registered, to go on with an errand. -/
  | lookUp (errand : Errand ι)
  | lockList (errand : Errand ι)
  | lookAgain (errand : Errand ι)
  | readNewest (errand : Errand ι)
  | link (errand : Errand ι) (next : Option Nat)
  | enlist (errand : Errand ι)
  | countStore (errand : Errand ι)
  | claim (errand : Errand ι)
  | enable (errand : Errand ι)
  | unlockList (errand : Errand ι)
  /-- Takes the lock of the store that exiting threads share. -/
  | lockExit
  | readVersion
  | checkIdle (version : Nat)
  | publish (version : Nat)
  /-- Looks whether the version that was published is still that of the epoch. -/
  | confirm (version : Nat)
  /-- Takes back a version that is not. -/
  | retract
  | advance (again : Bool)
  | checkHandle (handle : Handle)
  | withdraw (handle : Handle)
  | compareOwn
  | readStoreCount
  | compareAll (stores : Int)
  | readCached
  | readCachedAt (least : Nat)
  | readClock (least : Nat) (cachedAt : Int64)
  | beginScan (extent : Extent)
  | readList (extent : Extent) (least : Nat)
  | readPublished (extent : Extent) (least id : Nat)
  | readNext (extent : Extent) (least id : Nat)
  | keepMin (extent : Extent) (least : Nat)
  | noteTime (extent : Extent) (least : Nat)
  | keepTime (extent : Extent) (least : Nat) (now : Int64)
  /-- Notes the version that a store is drained to, unless it was the last one too. -/
  | swapRetired (id version : Nat)
  /-- Takes all that waits in a store. -/
  | takeList (id version : Nat)
  | push (nodes : List (Waiting ι))
  | countOwn (n : Int)
  | uncount (id : Nat) (n : Int)
  | countAll (n : Int)
  | free (node : Waiting ι)
  | stamp (node : Node ι)
  | forgetRetired
  | readOthers (version : Nat)
  | readOther (version id : Nat)

/-- What is shared: the epoch, the wall clock, and who holds the lock of the list of stores and that of the
store of exiting threads. -/
structure Shared (ι : Type) where
  epoch : Epoch ι
  wall : Int64 := 0
  registrar : Option Actor := none
  exit : Option Actor := none

/-- What an access leaves: what is shared, what its actor does next, and what all see. -/
structure Done (ι : Type) where
  shared : Shared ι
  next : List (Access ι) := []
  mark? : Option (Mark ι) := none

/-- The first accesses of an errand, once one's store is registered. -/
def Errand.begin : Errand ι → List (Access ι)
  | acquire => [.readVersion]
  | release h => [.checkHandle h, .compareOwn]
  | add node => [.stamp node]
  | retire => [.beginScan .all]

namespace Shared

/-- The store of an id. -/
def store (s : Shared ι) (id : Nat) : Store ι := s.epoch.store id

/-- Looks for the store of an id, which is there from then on. -/
def reach (s : Shared ι) (id : Nat) : Shared ι :=
  { s with epoch := { s.epoch with stores := s.epoch.stores.reach id } }

/-- Changes the store of an id. -/
def modify (s : Shared ι) (id : Nat) (f : Store ι → Store ι) : Shared ι :=
  { s with epoch := { s.epoch with stores := (s.epoch.stores.reach id).modify id f } }

theorem store_reach (s : Shared ι) (id j : Nat) : (s.reach id).store j = s.store j :=
  SegmentTable.get_reach ..

theorem store_modify (s : Shared ι) (id j : Nat) (f : Store ι → Store ι) :
    (s.modify id f).store j = if j = id then f (s.store id) else s.store j := by
  have hid : id / segmentSize < (s.epoch.stores.reach id).count := by
    rw [SegmentTable.count_reach]
    omega
  show ((s.epoch.stores.reach id).modify id f).get j = _
  rw [SegmentTable.get_modify _ _ _ _ hid, SegmentTable.get_reach]
  split
  · next h => rw [h]; rfl
  · rfl

/-- Whatever relates a store to its change relates all stores to what they are after it. -/
theorem relates_modify (s : Shared ι) (id j : Nat) {f : Store ι → Store ι}
    (r : Store ι → Store ι → Prop) (hrefl : ∀ t, r t t) (hf : ∀ t, r t (f t)) :
    r (s.store j) ((s.modify id f).store j) := by
  rw [store_modify]
  split
  · next h => exact h ▸ hf _
  · exact hrefl _

theorem count_modify (s : Shared ι) (id : Nat) (f : Store ι → Store ι) :
    (s.modify id f).epoch.stores.count = max s.epoch.stores.count (id / segmentSize + 1) :=
  (SegmentTable.count_modify ..).trans (SegmentTable.count_reach ..)

/-- Whether the published version of its store is an actor's own to change. -/
def Owns (s : Shared ι) : Actor → Prop
  | .live _ => True
  | .exiting n => s.exit = some (.exiting n)

instance (s : Shared ι) : (a : Actor) → Decidable (s.Owns a)
  | .live _ => isTrue trivial
  | .exiting n => inferInstanceAs (Decidable (s.exit = some (.exiting n)))

end Shared

/-- The next store of a scan, or its end. -/
def Extent.scan (x : Extent) (least : Nat) : Option Nat → List (Access ι)
  | none => [.keepMin x least]
  | some id => [.readPublished x least id]

/-- What is drained to a minimum. -/
def Extent.drain (a : Actor) (least : Nat) : Extent → List (Access ι)
  | own => [.swapRetired a.id least]
  | all => [.swapRetired a.id least, .readOthers least]

/-- The next store to be drained that is not the actor's own, if there is one. -/
def Actor.visit (a : Actor) (version : Nat) : Option Nat → List (Access ι)
  | none => []
  | some id => (if id = a.id then [] else [.swapRetired id version]) ++ [.readOther version id]

/-- What is done with the nodes that were taken: those that are too new wait in one's own store, the others
are freed. -/
def Actor.dispose (id : Nat) (kept freed : List (Waiting ι)) : List (Access ι) :=
  (if kept.isEmpty then [] else [.push kept, .countOwn kept.length]) ++
    .uncount id (kept.length + freed.length) :: freed.map .free ++ [.countAll (-freed.length)]

namespace Access

/-- One access of an actor. -/
def perform (a : Actor) (s : Shared ι) : Access ι → Done ι
  | lookUp e =>
    { shared := s.reach a.id
      next := if (s.store a.id).enabled then e.begin else [lockList e] }
  | lockList e =>
    match s.registrar with
    | none => { shared := { s with registrar := some a }, next := [lookAgain e] }
    | some _ => { shared := s, next := [lockList e] }
  | lookAgain e =>
    { shared := s, next := if (s.store a.id).enabled then [unlockList e] else [readNewest e] }
  | readNewest e => { shared := s, next := [link e s.epoch.newest] }
  | link e next => { shared := s.modify a.id fun t => { t with next }, next := [enlist e] }
  | enlist e =>
    { shared := { s with epoch := { s.epoch with newest := some a.id } }, next := [countStore e] }
  | countStore e =>
    { shared := { s with epoch := { s.epoch with storeCount := s.epoch.storeCount + 1 } }
      next := [claim e] }
  | claim e => { shared := s.modify a.id fun t => { t with owner := a.id }, next := [enable e] }
  | enable e =>
    { shared := s.modify a.id fun t => { t with enabled := true }, next := [unlockList e] }
  | unlockList e => { shared := { s with registrar := none }, next := e.begin }
  | lockExit =>
    match s.exit with
    | none => { shared := { s with exit := some a }, next := [lookUp .acquire] }
    | some _ => { shared := s, next := [lockExit] }
  | readVersion => { shared := s, next := [checkIdle s.epoch.version] }
  | checkIdle version =>
    { shared := s, next := if (s.store a.id).published.isSome then [] else [publish version] }
  | publish version =>
    { shared := s.modify a.id fun t => { t with published := some version }
      next := [confirm version] }
  | confirm version =>
    if version = s.epoch.version then
      { shared := s, mark? := some (.acquired (s.store a.id).handle version) }
    else
      { shared := s, next := [retract] }
  | retract =>
    { shared := s.modify a.id fun t => { t with published := none }, next := [advance true] }
  | advance again =>
    { shared := s.modify a.id fun t => { t with sequence := t.sequence + 1 }
      next := if again then [readVersion] else [] }
  | checkHandle h =>
    { shared := s, next := if (s.store a.id).accepts h then [withdraw h] else [] }
  | withdraw h =>
    { shared := s.modify a.id fun t => { t with published := none }
      next := [advance false]
      mark? := some (.released h) }
  | compareOwn =>
    { shared := s
      next :=
        if s.epoch.threshold.toInt < (s.store a.id).count then [readCached] else [readStoreCount] }
  | readStoreCount => { shared := s, next := [compareAll s.epoch.storeCount] }
  | compareAll stores =>
    { shared := s
      next :=
        match checked (stores * s.epoch.threshold.toInt) with
        | .ok limit => if limit < s.epoch.waitingCount then [lookUp .retire] else []
        | .error _ => [] }
  | readCached =>
    { shared := s
      next := if s.epoch.cachedMin ≠ 0 then [readCachedAt s.epoch.cachedMin] else [beginScan .own] }
  | readCachedAt least => { shared := s, next := [readClock least s.epoch.cachedAt] }
  | readClock least cachedAt =>
    { shared := s
      next :=
        match checked (cachedAt.toInt + s.epoch.cacheTime.toInt) with
        | .ok expiry => if s.wall.toInt < expiry then Extent.own.drain a least else [beginScan .own]
        | .error _ => [] }
  | beginScan x => { shared := s, next := [readList x s.epoch.version] }
  | readList x least => { shared := s, next := x.scan least s.epoch.newest }
  | readPublished x least id =>
    { shared := s, next := [readNext x (min least ((s.store id).published.getD least)) id] }
  | readNext x least id => { shared := s, next := x.scan least (s.store id).next }
  | keepMin x least =>
    { shared := { s with epoch := { s.epoch with cachedMin := least } }, next := [noteTime x least] }
  | noteTime x least => { shared := s, next := [keepTime x least s.wall] }
  | keepTime x least now =>
    { shared := { s with epoch := { s.epoch with cachedAt := now } }, next := x.drain a least }
  | swapRetired id version =>
    { shared := s.modify id fun t => { t with lastRetired := version }
      next := if (s.store id).lastRetired = version then [] else [takeList id version] }
  | takeList id version =>
    let (kept, freed) := Store.sift version (s.store id).waiting []
    { shared := s.modify id fun t => { t with waiting := [] }, next := Actor.dispose id kept freed }
  | push nodes =>
    { shared := s.modify a.id fun t => { t with waiting := nodes ++ t.waiting } }
  | countOwn n => { shared := s.modify a.id fun t => { t with count := t.count + n } }
  | uncount id n => { shared := s.modify id fun t => { t with count := t.count - n } }
  | countAll n =>
    { shared := { s with epoch := { s.epoch with waitingCount := s.epoch.waitingCount + n } } }
  | free w =>
    { shared := s, next := w.node.onFree.map fun node => lookUp (.add node), mark? := some (.freed w) }
  | stamp node =>
    let w : Waiting ι := ⟨s.epoch.version + 1, node⟩
    { shared := { s with epoch := { s.epoch with version := s.epoch.version + 1 } }
      next := [push [w], countOwn 1, forgetRetired, countAll 1]
      mark? := some (.stamped w) }
  | forgetRetired => { shared := s.modify a.id fun t => { t with lastRetired := 0 } }
  | readOthers version => { shared := s, next := a.visit version s.epoch.newest }
  | readOther version id => { shared := s, next := a.visit version (s.store id).next }

end Access

/-- An epoch, and what is left to do for everyone who uses it. -/
structure Crowd (ι : Type) where
  shared : Shared ι
  todo : Actor → List (Access ι) := fun _ => []

namespace Crowd

/-- What happens in a crowd. -/
inductive Event (ι : Type) where
  /-- An actor that has nothing left to do sets out on an errand. -/
  | start (a : Actor) (errand : Errand ι)
  /-- An actor takes one step. -/
  | step (a : Actor)
  /-- An exiting thread that has nothing left to do gives up its lock. -/
  | leave (a : Actor)
  /-- The wall clock is set. -/
  | wall (micros : Int64)

/-- What an errand comes to. A handle is given back by whoever acquired it; an exiting thread needs a lock
to acquire, and keeps it until the handle is given back. -/
def plan (c : Crowd ι) (a : Actor) : Errand ι → List (Access ι)
  | .acquire =>
    match a with
    | .live _ => [.lookUp .acquire]
    | .exiting _ => [.lockExit]
  | .release h => if h.tid = a.id ∧ c.shared.Owns a then [.lookUp (.release h)] else []
  | .add node => [.lookUp (.add node)]
  | .retire => [.lookUp .retire]

/-- A crowd with other things left to do for an actor. -/
def assign (c : Crowd ι) (a : Actor) (accesses : List (Access ι)) : Crowd ι :=
  { c with todo := Function.update c.todo a accesses }

/-- One event, and what all see of it. -/
def happen (c : Crowd ι) : Event ι → Crowd ι × Option (Mark ι)
  | .start a errand =>
    match c.todo a with
    | [] => (c.assign a (c.plan a errand), none)
    | _ :: _ => (c, none)
  | .step a =>
    match c.todo a with
    | [] => (c, none)
    | access :: rest =>
      let done := access.perform a c.shared
      (({ c with shared := done.shared } : Crowd ι).assign a (done.next ++ rest), done.mark?)
  | .leave a =>
    match c.todo a with
    | [] =>
      if c.shared.exit = some a then ({ c with shared := { c.shared with exit := none } }, none)
      else (c, none)
    | _ :: _ => (c, none)
  | .wall micros => ({ c with shared := { c.shared with wall := micros } }, none)

/-- The crowd after a number of events. -/
def after (c : Crowd ι) (events : List (Event ι)) : Crowd ι :=
  events.foldl (fun c e => (c.happen e).1) c

/-- What all see of a run. -/
def trace (c : Crowd ι) : List (Event ι) → List (Mark ι)
  | [] => []
  | e :: events => (c.happen e).2.toList ++ (c.happen e).1.trace events

end Crowd

end BackoffStack
