/-
Counters of what the operations of an elimination-backoff stack did.
-/

namespace BackoffStack

/-- How often each thing happened. Counters wrap. -/
structure Stats where
  /-- Pushes that linked a cell into the stack. -/
  stackPushes : UInt64 := 0
  /-- Pops that took a cell off the stack. -/
  stackPops : UInt64 := 0
  /-- Pushes that handed their value to a pop. -/
  eliminatedPushes : UInt64 := 0
  /-- Pops that were handed a value by a push. -/
  eliminatedPops : UInt64 := 0
  /-- Visits that found no partner in time. -/
  exchangeTimeouts : UInt64 := 0
  /-- Attempts at the top that were lost to another thread. -/
  lostAttempts : UInt64 := 0
  deriving DecidableEq

namespace Stats

/-- One more push through the stack. -/
def stackPush (s : Stats) : Stats := { s with stackPushes := s.stackPushes + 1 }

/-- One more pop through the stack. -/
def stackPop (s : Stats) : Stats := { s with stackPops := s.stackPops + 1 }

/-- One more push that met a pop. -/
def eliminatedPush (s : Stats) : Stats := { s with eliminatedPushes := s.eliminatedPushes + 1 }

/-- One more pop that met a push. -/
def eliminatedPop (s : Stats) : Stats := { s with eliminatedPops := s.eliminatedPops + 1 }

/-- One more visit without a partner. -/
def exchangeTimeout (s : Stats) : Stats := { s with exchangeTimeouts := s.exchangeTimeouts + 1 }

/-- One more lost attempt. -/
def lostAttempt (s : Stats) : Stats := { s with lostAttempts := s.lostAttempts + 1 }

end Stats

end BackoffStack
