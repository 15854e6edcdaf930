/-
Scripted runs over a hazard epoch: threads acquire and release, pin, queue nodes whose drop functions
queue more, free nodes, and end, some of them doing all this on their way out.
-/
import BackoffStack.Scenario.Reply

namespace BackoffStack.HazardScenario

/-- A handle as a word, or by the name under which it was acquired. -/
inductive HandleRef where
  | word (w : UInt64)
  | named (name : String)

/-- What a thread does. -/
inductive Action (ι : Type) where
  /-- Acquires, and keeps the handle under a name. -/
  | acquire (name : String)
  | release (handle : HandleRef)
  | pin
  | unpin
  | add (node : Node ι)
  /-- Queues no node at all. -/
  | addNull
  | retire
  /-- Sets the wall clock. -/
  | wall (micros : Int64)

/-- A step of a run. -/
inductive Step (ι : Type) where
  | act (t : Nat) (action : Action ι)
  /-- The thread ends; on its way out it may still act. -/
  | exit (t : Nat) (last? : Option (List (Action ι)))

/-- The epoch, its users, and what the script keeps for them. -/
structure State (ι : Type) where
  epoch : Epoch ι
  threads : Threads := {}
  wall : Int64 := .ofInt (wallMicros 1 0)
  handles : List (String × Handle) := []
  guards : List (Nat × Guard) := []

/-- What one action answers, drops and reports. -/
structure Effect (ι : Type) where
  reply : Reply Unit := .ok
  dropped : List ι := []
  notices : List Notice := []

/-- What one step leaves behind. -/
structure Record (ι : Type) where
  replies : Reply Unit ⊕ List (Reply Unit)
  waiting : Int
  dropped : List ι := []
  log : Log := []

variable {ι : Type}

/-- Who thread `t` acts as. -/
def State.identify (s : State ι) (t : Nat) : Identity × State ι :=
  let (who, threads) := s.threads.identify t
  (who, { s with threads })

/-- The handle that is meant. -/
def State.resolve? (s : State ι) : HandleRef → Option Handle
  | .word w => some (.ofWord w)
  | .named name => s.handles.lookup name

/-- What giving back a handle reports: the owner is told when it comes too late. -/
def releaseNotices (before after : Epoch ι) (me : Nat) (h : Handle) : List Notice :=
  let store := (before.enter h.tid).store h.tid
  after.growthSince before ++ (if store.owner = me then store.releaseNotices h else [])

/-- Thread `t` drops a guard that is not kept for it any more. -/
def dropGuard (s : State ι) (t : Nat) (g : Guard) (reply : Reply Unit) : Effect ι × State ι :=
  let (who, s) := s.identify t
  let (answer, epoch) := s.epoch.unpin who.id g s.wall
  let notices := releaseNotices s.epoch epoch who.id g.handle
  match answer with
  | .ok dropped => ({ reply, dropped, notices }, { s with epoch })
  | .error why => ({ reply := .broken why, notices }, { s with epoch })

/-- One action of thread `t`. A pin goes through while a guard is kept only if the handle of that guard
was given back already; then the new guard takes its place, and the old one is dropped. -/
def act (s : State ι) (t : Nat) : Action ι → Effect ι × State ι
  | .acquire name =>
    let (who, s) := s.identify t
    match s.epoch.acquire who with
    | .ok (answer, epoch) =>
      let notices := match who with
        | .live id =>
          epoch.growthSince s.epoch ++ ((s.epoch.enter id).store id).acquireNotices
        | .exiting => [.noThreadId .threadExiting]
      let handles := match answer with
        | .ok h => assign name h s.handles
        | .error _ => s.handles
      ({ reply := .ofStatus (fun h => .number h.toWord.toNat) answer, notices },
        { s with epoch, handles })
    | .error why => ({ reply := .broken why }, s)
  | .release ref =>
    match s.resolve? ref with
    | none => ({ reply := .refused .noSuchHandle }, s)
    | some h =>
      let (who, s) := s.identify t
      let (answer, epoch) := s.epoch.release who.id h s.wall
      let notices := releaseNotices s.epoch epoch who.id h
      match answer with
      | .ok dropped => ({ dropped, notices }, { s with epoch })
      | .error why => ({ reply := .broken why, notices }, { s with epoch })
  | .pin =>
    let (who, s) := s.identify t
    match s.epoch.pin who with
    | .ok (answer, epoch) =>
      let notices :=
        epoch.growthSince s.epoch ++ ((s.epoch.enter who.id).store who.id).acquireNotices
      match answer with
      | .pinned g =>
        let pinned := { s with epoch, guards := assign t g s.guards }
        match s.guards.lookup t with
        | none => ({ notices }, pinned)
        | some stale =>
          let (effect, s) := dropGuard pinned t stale .ok
          ({ effect with notices := notices ++ effect.notices }, s)
      | .refused why => ({ reply := .status why, notices }, { s with epoch })
      | .spins => ({ reply := .refused .wouldSpin }, s)
    | .error why => ({ reply := .broken why }, s)
  | .unpin =>
    match s.guards.lookup t with
    | none => ({ reply := .flag false }, s)
    | some g => dropGuard { s with guards := s.guards.filter (·.1 ≠ t) } t g (.flag true)
  | .add node =>
    let (who, s) := s.identify t
    match s.epoch.add who.id node with
    | .ok epoch => ({ notices := epoch.growthSince s.epoch }, { s with epoch })
    | .error why => ({ reply := .broken why }, s)
  | .addNull => ({ reply := .status .invalidParam, notices := [.nullNode] }, s)
  | .retire =>
    let (who, s) := s.identify t
    match s.epoch.retire who.id s.wall with
    | .ok (dropped, epoch) => ({ dropped, notices := epoch.growthSince s.epoch }, { s with epoch })
    | .error why => ({ reply := .broken why }, s)
  | .wall micros => ({}, { s with wall := micros })

/-- One action of a thread on its way out. It cannot pin while it holds a guard. -/
def lastAct (s : State ι) (t : Nat) : Action ι → Effect ι × State ι
  | .pin =>
    match s.guards.lookup t with
    | some _ => ({ reply := .refused .wouldSpin }, s)
    | none => act s t .pin
  | action => act s t action

/-- The actions of a thread on its way out, one after the other. -/
def lastActs (s : State ι) (t : Nat) : List (Action ι) → List (Effect ι) × State ι
  | [] => ([], s)
  | a :: rest =>
    let (effect, s) := lastAct s t a
    let (effects, s) := lastActs s t rest
    (effect :: effects, s)

/-- What is left behind of the effects of one step. -/
def record (s : State ι) (t : Nat) (replies : Reply Unit ⊕ List (Reply Unit))
    (effects : List (Effect ι)) : Record ι where
  replies := replies
  waiting := s.epoch.waitingCount
  dropped := effects.flatMap (·.dropped)
  log := Log.of t (effects.flatMap (·.notices))

/-- One step. A guard that its thread still holds at its end is forgotten; one that it takes on its way
out is dropped last of all. -/
def step (s : State ι) : Step ι → Record ι × State ι
  | .act t action =>
    let (effect, s) := act s t action
    (record s t (.inl effect.reply) [effect], s)
  | .exit t last? =>
    let s := { s with
      guards := s.guards.filter (·.1 ≠ t)
      threads := s.threads.beginExit t }
    match last? with
    | none =>
      let s := { s with threads := s.threads.finishExit t }
      (record s t (.inl .ok) [], s)
    | some actions =>
      let (effects, s) := lastActs s t (actions ++ [.unpin])
      let s := { s with threads := s.threads.finishExit t }
      (record s t (.inr (effects.map (·.reply))) effects, s)

/-- A run: the steps, and what goes with the epoch at the end. -/
def run (s : State ι) : List (Step ι) → List (Record ι) × List ι
  | [] => ([], (s.epoch.destroy List.cons []).reverse)
  | x :: rest =>
    let (record, s) := step s x
    let (records, last) := run s rest
    (record :: records, last)

/-- What making the epoch reports. -/
def creation (s : State ι) : Log := Log.of 0 [s.epoch.creation]

end BackoffStack.HazardScenario
