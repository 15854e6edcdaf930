/-
What the data structures report while they work, and the lines in which it is written down.
-/
import BackoffStack.Config
import BackoffStack.Hazard.Epoch

namespace BackoffStack

/-- The two kinds of stack operation. -/
inductive Kind where
  | push
  | pop
  deriving DecidableEq

/-- The name of a kind of operation. -/
def Kind.name : Kind → String
  | push => "push"
  | pop => "pop"

/-- One record. -/
inductive Notice where
  /-- A configuration was turned down. -/
  | configRefused (fault : Config.Fault)
  /-- A stack was made. -/
  | stackCreated (config : Config)
  /-- A hazard epoch was made. -/
  | epochCreated (threshold cacheTime : Int64)
  /-- A table grew by a segment, the first slot of which has this id. -/
  | segmentAppended (firstId : Nat)
  /-- A thread asked for a second version. -/
  | versionHeld (sequence : UInt32)
  /-- A handle came too late. -/
  | handleRefused (handle : Handle)
  /-- A thread had no id to acquire with. -/
  | noThreadId (why : Status)
  /-- There was no node to queue. -/
  | nullNode
  /-- A visit ended without a partner; the range is the one for the next visit. -/
  | exchangeTimedOut (kind : Kind) (range : Nat)
  /-- A slot was drawn at random below a bound. -/
  | slotDrawn (bound slot : Nat)
  deriving DecidableEq

namespace Notice

/-- The line of a record, its level first. -/
def line : Notice → String
  | configRefused fault => "WARN " ++ fault.message
  | stackCreated c =>
    "DEBUG new elimination backoff stack, capacity=" ++ toString c.capacity
      ++ ", timeout=" ++ c.timeout.text
      ++ ", range=[" ++ toString c.minRange ++ ", " ++ toString c.maxRange
      ++ "], initial_range=" ++ toString c.initialRange
  | epochCreated threshold cacheTime =>
    "DEBUG new hazard epoch, thread_waiting_threshold=" ++ toString threshold
      ++ ", min_version_cache_time_us=" ++ toString cacheTime
  | segmentAppended firstId => "DEBUG append thread segment, first tid=" ++ toString firstId
  | versionHeld sequence =>
    "WARN current thread has already assigned a version handle, seq=" ++ toString sequence
  | handleRefused h =>
    "WARN invalid handle seq=" ++ toString h.sequence ++ ", tid=" ++ toString h.tid
  | noThreadId why => "WARN get_thread_id fail, ret=" ++ why.name
  | nullNode => "WARN node is null"
  | exchangeTimedOut kind range =>
    "TRACE " ++ kind.name ++ " exchange timeout, range=" ++ toString range
  | slotDrawn bound slot => "RAND " ++ toString bound ++ " " ++ toString slot

/-- What a table reports that had `before` segments and now has `after`. -/
def growth (before after : Nat) : List Notice :=
  (List.range' before (after - before)).map fun k => segmentAppended (segmentSize * k)

end Notice

/-- What making a hazard epoch reports. -/
def Epoch.creation {ι : Type} (e : Epoch ι) : Notice := .epochCreated e.threshold e.cacheTime

/-- What the stores of an epoch report that `before` has become. -/
def Epoch.growthSince {ι : Type} (e before : Epoch ι) : List Notice :=
  Notice.growth before.stores.count e.stores.count

/-- What a store reports when it is asked for a version. -/
def Store.acquireNotices {ι : Type} (s : Store ι) : List Notice :=
  if s.published.isSome then [.versionHeld s.sequence] else []

/-- What a store reports when its owner gives back a handle. -/
def Store.releaseNotices {ι : Type} (s : Store ι) (h : Handle) : List Notice :=
  if s.accepts h then [] else [.handleRefused h]

end BackoffStack
