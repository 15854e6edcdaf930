/-
Constructor parameters of an elimination-backoff stack, what makes them acceptable, and their text.
-/
import BackoffStack.Duration
import BackoffStack.Range.Policy
import BackoffStack.Signed

namespace BackoffStack

/-- Most nodes that may wait under one thread, unless told otherwise. -/
def defaultThreshold : Int64 := 64

/-- How long a minimum version stays in use, in microseconds, unless told otherwise. -/
def defaultCacheTime : Int64 := 200000

/-- Parameters of a stack. The largest range is the capacity unless it is given. -/
structure Config where
  capacity : Nat
  timeout : Duration
  initialRange : Nat := 1
  minRange : Nat := 1
  maxRange? : Option Nat := none
  threshold : Int64 := defaultThreshold
  cacheTime : Int64 := defaultCacheTime
  deriving DecidableEq

namespace Config

/-- Sixteen exchangers, each waiting up to half a millisecond. -/
def standard : Config where
  capacity := 16
  timeout := Duration.ofMicros 500

/-- The same stack with another initial range and other bounds. -/
def withRange (c : Config) (initial low high : Nat) : Config :=
  { c with initialRange := initial, minRange := low, maxRange? := some high }

/-- The same stack with another tuning of reclamation. -/
def withReclamation (c : Config) (threshold cacheTime : Int64) : Config :=
  { c with threshold, cacheTime }

/-- The largest range. -/
def maxRange (c : Config) : Nat :=
  c.maxRange?.getD c.capacity

/-- What is wrong with a configuration. -/
inductive Fault where
  | capacity (capacity : Nat)
  | range (initial low high capacity : Nat)
  | reclamation (threshold cacheTime : Int64)
  deriving DecidableEq

/-- The message that goes with a fault. -/
def Fault.message : Fault → String
  | capacity n => "invalid capacity=" ++ toString n
  | range initial low high n =>
    "invalid range, initial=" ++ toString initial ++ ", min=" ++ toString low
      ++ ", max=" ++ toString high ++ ", capacity=" ++ toString n
  | reclamation threshold cacheTime =>
    "invalid reclamation, thread_waiting_threshold=" ++ toString threshold
      ++ ", min_version_cache_time_us=" ++ toString cacheTime

/-- The first fault, if there is one: the capacity is looked at first, then the range, then the
tuning of reclamation. -/
def fault? (c : Config) : Option Fault :=
  if c.capacity = 0 then
    some (.capacity c.capacity)
  else if c.minRange = 0 ∨ c.initialRange < c.minRange ∨ c.maxRange < c.initialRange
      ∨ c.capacity < c.maxRange then
    some (.range c.initialRange c.minRange c.maxRange c.capacity)
  else if c.threshold ≤ 0 ∨ c.cacheTime < 0 then
    some (.reclamation c.threshold c.cacheTime)
  else
    none

/-- A configuration is turned down as an invalid parameter, whatever its fault. -/
def validate (c : Config) : Except Status Unit :=
  match c.fault? with
  | some _ => .error .invalidParam
  | none => .ok ()

/-- A fresh policy within the configured bounds. -/
def rangePolicy (c : Config) : RangePolicy :=
  RangePolicy.create c.initialRange c.minRange c.maxRange

/-- The record, field by field. -/
def text (c : Config) : String :=
  let high := match c.maxRange? with
    | some n => "Some(" ++ toString n ++ ")"
    | none => "None"
  "StackConfig \x7b capacity: " ++ toString c.capacity
    ++ ", timeout: " ++ c.timeout.text
    ++ ", initial_range: " ++ toString c.initialRange
    ++ ", min_range: " ++ toString c.minRange
    ++ ", max_range: " ++ high
    ++ ", thread_waiting_threshold: " ++ toString c.threshold
    ++ ", min_version_cache_time_us: " ++ toString c.cacheTime ++ " \x7d"

end Config

end BackoffStack
