/-
The hazard epoch: a version that grows with every queued node, the stores of all threads, and the
rule by which nodes are freed. A thread publishes the version at which it starts to look at shared
nodes. A node may be freed once its own version is not above the global one nor above any that is
published: whoever could still look at it has published an older one.

Stores are registered when a thread first needs one, and from then on stay on the list of stores,
the newest first, also after their thread is over.
-/
import BackoffStack.Hazard.Store
import BackoffStack.Segment.Table
import BackoffStack.Signed
import BackoffStack.SpinLock.Basic
import BackoffStack.Token.Threads

namespace BackoffStack

/-- A hazard epoch over nodes known by labels of type `ι`. -/
structure Epoch (ι : Type) where
  threshold : Int64
  cacheTime : Int64
  version : Nat := 0
  stores : SegmentTable (Store ι) := .new
  newest : Option Nat := none
  storeCount : Int := 0
  waitingCount : Int := 0
  cachedMin : Nat := 0
  cachedAt : Int64 := 0
  exitLock : SpinLock Unit := { value := () }

/-- What a pinned thread holds: its handle, and whether it holds the exiting threads' lock too. -/
structure Guard where
  handle : Handle
  exiting : Bool
  deriving DecidableEq

namespace Epoch

variable {ι : Type}

/-! ## The stores -/

/-- The store of an id. -/
def store (e : Epoch ι) (id : Nat) : Store ι := e.stores.get id

/-- The epoch with another store under an id. -/
def put (e : Epoch ι) (id : Nat) (s : Store ι) : Epoch ι :=
  { e with stores := e.stores.set id s }

/-- Makes the store of an id the first on the list of stores. -/
def register (e : Epoch ι) (id : Nat) : Epoch ι :=
  { e with
    stores := e.stores.modify id fun s => { s.enable id with next := e.newest }
    newest := some id
    storeCount := e.storeCount + 1 }

/-- The epoch after the store of an id was looked up: the store is there and registered. -/
def enter (e : Epoch ι) (id : Nat) : Epoch ι :=
  let e := { e with stores := e.stores.reach id }
  if (e.store id).enabled then e else e.register id

/-- At most `fuel` stores along the list, from `link` on. -/
def follow (e : Epoch ι) : Nat → Option Nat → List Nat
  | 0, _ => []
  | _ + 1, none => []
  | fuel + 1, some id => id :: e.follow fuel (e.store id).next

/-- The ids of the registered stores, the newest first. There are no more of them than slots. -/
def registered (e : Epoch ι) : List Nat :=
  e.follow (segmentSize * e.stores.count) e.newest

/-! ## The oldest version in use -/

/-- The least of the global version and all published ones. -/
def oldestVersion (e : Epoch ι) : Nat :=
  e.registered.foldl (fun least id => min least ((e.store id).published.getD least)) e.version

/-- The oldest version in use, kept for later. -/
def refreshMin (e : Epoch ι) (now : Int64) : Nat × Epoch ι :=
  (e.oldestVersion, { e with cachedMin := e.oldestVersion, cachedAt := now })

/-- A version that no published one is older than: the one kept from an earlier look, as long as it
is there and not too old, else the oldest in use. -/
def minVersion (e : Epoch ι) (now : Int64) : Except Violation (Nat × Epoch ι) :=
  if e.cachedMin = 0 then
    .ok (e.refreshMin now)
  else do
    let expiry ← checked (e.cachedAt.toInt + e.cacheTime.toInt)
    return if now.toInt < expiry then (e.cachedMin, e) else e.refreshMin now

/-! ## Queueing and freeing nodes -/

/-- The thread with the id `me` queues a node under the next version. -/
def add (e : Epoch ι) (me : Nat) (node : Node ι) : Except Violation (Epoch ι) := do
  let e := e.enter me
  let version := e.version + 1
  let s ← (e.store me).add me version node
  return { e.put me s with version, waitingCount := e.waitingCount + 1 }

/-- The thread with the id `me` queues nodes one after the other. -/
def addAll (e : Epoch ι) (me : Nat) (nodes : List (Node ι)) : Except Violation (Epoch ι) :=
  nodes.foldlM (fun e node => e.add me node) e

/-- Frees nodes one after the other, on the thread with the id `me`: the drop function of each queues
nodes before the next one runs. -/
def free (e : Epoch ι) (me : Nat) (nodes : List (Node ι)) : Except Violation (Epoch ι) :=
  nodes.foldlM (fun e node => e.addAll me node.onFree) e

/-- The thread with the id `me` drains the store of `id` up to `version`; nodes that are too new move
to the store of `receiver`. Answers the labels of the freed nodes. -/
def drain (e : Epoch ι) (me id receiver version : Nat) :
    Except Violation (List ι × Epoch ι) := do
  (e.store receiver).assertOwner me
  let drained := (e.store id).drain version
  let e := e.put id drained.store
  let e := e.put receiver ((e.store receiver).receive drained.kept)
  let nodes := drained.freed.map (·.node)
  let e ← e.free me nodes
  return (nodes.map (·.label), { e with waitingCount := e.waitingCount - nodes.length })

/-- The thread with the id `me` drains stores one after the other into its own. -/
def drainAll (e : Epoch ι) (me version : Nat) :
    List Nat → Except Violation (List ι × Epoch ι)
  | [] => .ok ([], e)
  | id :: rest => do
    let (freed, e) ← e.drain me id me version
    let (later, e) ← e.drainAll me version rest
    return (freed ++ later, e)

/-- The thread with the id `me` frees every node that nobody can look at any more: its own first,
then those of the other stores. -/
def retire (e : Epoch ι) (me : Nat) (now : Int64) : Except Violation (List ι × Epoch ι) := do
  let e := e.enter me
  let (version, e) := e.refreshMin now
  let (mine, e) ← e.drain me me me version
  let (others, e) ← e.drainAll me version (e.registered.filter (· ≠ me))
  return (mine ++ others, e)

/-! ## Handles -/

/-- The thread with the id `me` publishes the global version in the store of `id`. Alone, it finds
the version unchanged when it looks again. -/
def acquireIn (e : Epoch ι) (me id : Nat) :
    Except Violation (Except Status Handle × Epoch ι) := do
  let e := e.enter id
  let (answer, s) ← (e.store id).acquire me e.version
  return (answer, e.put id s)

/-- Publishes the global version for a thread. Threads whose token is gone are turned down. -/
def acquire (e : Epoch ι) (who : Identity) :
    Except Violation (Except Status Handle × Epoch ι) :=
  match who with
  | .live id => e.acquireIn id id
  | .exiting => .ok (.error .threadExiting, e)

/-- The epoch right after a handle was given up, before any node is freed. -/
def giveUp (e : Epoch ι) (me : Nat) (h : Handle) : Except Violation (Epoch ι) := do
  let e := e.enter h.tid
  let s ← (e.store h.tid).release me h
  return e.put h.tid s

/-- The epoch that an operation leaves; one that breaks off leaves it as it was. -/
def allOrNothing {β : Type} (e : Epoch ι) :
    Except Violation (β × Epoch ι) → Except Violation β × Epoch ι
  | .ok (answer, e) => (.ok answer, e)
  | .error v => (.error v, e)

/-- After a handle for the store of `id` was given back: if too many nodes wait there, that store is
drained; else, if too many wait altogether, all are. The limits are worked out in signed words, and where
one does not fit, the thread breaks off. -/
def reclaim (e : Epoch ι) (me id : Nat) (now : Int64) : Except Violation (List ι) × Epoch ι :=
  e.allOrNothing do
    if e.threshold.toInt < (e.store id).count then
      let (version, e) ← e.minVersion now
      e.drain me id id version
    else
      let limit ← checked (e.storeCount * e.threshold.toInt)
      if limit < e.waitingCount then e.retire me now else return ([], e)

/-- The thread with the id `me` gives a handle back, and frees nodes if too many wait. A handle that
names another store breaks the owner's assertion, after that store was looked up. -/
def release (e : Epoch ι) (me : Nat) (h : Handle) (now : Int64) :
    Except Violation (List ι) × Epoch ι :=
  match e.giveUp me h with
  | .ok e => e.reclaim me h.tid now
  | .error v => (.error v, e.enter h.tid)

/-! ## Guards -/

/-- An exiting thread takes the lock of the store that all of them share, if it is free. -/
def lockExit (e : Epoch ι) : Option (Epoch ι) :=
  e.exitLock.tryLock.map fun l => { e with exitLock := l }

/-- Gives the exiting threads' lock back. -/
def unlockExit (e : Epoch ι) : Except Violation (Epoch ι) := do
  let l ← e.exitLock.unlock
  return { e with exitLock := l }

/-- How asking for a guard ends. -/
inductive Pin where
  | pinned (guard : Guard)
  | refused (why : Status)
  /-- Another exiting thread holds the lock: the caller has to wait. -/
  | spins
  deriving DecidableEq

/-- Acquires for any thread. A thread whose token is gone uses the store that such threads share, and
holds its lock until the guard is dropped. -/
def pin (e : Epoch ι) (who : Identity) : Except Violation (Pin × Epoch ι) :=
  match who with
  | .live id => do
    match ← e.acquireIn id id with
    | (.ok handle, e) => return (.pinned ⟨handle, false⟩, e)
    | (.error why, e) => return (.refused why, e)
  | .exiting =>
    match e.lockExit with
    | none => .ok (.spins, e)
    | some e => do
      match ← e.acquireIn exitingId exitingId with
      | (.ok handle, e) => return (.pinned ⟨handle, true⟩, e)
      | (.error why, e) => return (.refused why, ← e.unlockExit)

/-- Drops a guard: its handle is given back first, then the lock. -/
def unpin (e : Epoch ι) (me : Nat) (g : Guard) (now : Int64) :
    Except Violation (List ι) × Epoch ι :=
  let (answer, e) := e.release me g.handle now
  if g.exiting then
    match e.unlockExit with
    | .ok e => (answer, e)
    | .error v => (.error v, e)
  else
    (answer, e)

/-! ## The end -/

/-- The destructor's way through the table: each store frees its nodes before the next one is looked at. -/
def destroyAlong {σ : Type} (free : ι → σ → σ) : List (Store ι) → σ → σ
  | [], gone => gone
  | s :: rest, gone => destroyAlong free rest (s.destroy free gone)

/-- The destructor of an epoch: every store of the table goes, and with it the nodes that wait there. -/
def destroy {σ : Type} (e : Epoch ι) (free : ι → σ → σ) (gone : σ) : σ :=
  destroyAlong free e.stores.slots gone

end Epoch

end BackoffStack
