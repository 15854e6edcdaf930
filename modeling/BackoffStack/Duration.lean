/-
Lengths of time, kept in whole seconds and nanoseconds, and their text: the largest unit that fits,
with an exact fraction.
-/

namespace BackoffStack

/-- Nanoseconds in a second. -/
def nanosPerSecond : Nat := 1000000000

/-- A length of time. -/
structure Duration where
  seconds : Nat
  nanos : Nat
  nanos_lt : nanos < nanosPerSecond := by decide
  deriving DecidableEq

namespace Duration

/-- Whole seconds among the nanoseconds are carried over. -/
def ofParts (seconds nanos : Nat) : Duration where
  seconds := seconds + nanos / nanosPerSecond
  nanos := nanos % nanosPerSecond
  nanos_lt := Nat.mod_lt _ (by decide)

/-- A length given in microseconds. -/
def ofMicros (micros : Nat) : Duration :=
  ofParts 0 (micros * 1000)

/-- The length in nanoseconds. -/
def toNanos (d : Duration) : Nat :=
  d.seconds * nanosPerSecond + d.nanos

/-- The decimal fraction `n / 10 ^ places` with its point, without trailing zeros; nothing at all
for a whole number. -/
def fraction (places n : Nat) : String :=
  let digits := Nat.toDigits 10 n
  let padded := List.replicate (places - digits.length) '0' ++ digits
  let kept := (padded.reverse.dropWhile (· == '0')).reverse
  if kept.isEmpty then "" else String.ofList ('.' :: kept)

/-- The largest unit in which the length is at least one, and nanoseconds for no time at all. -/
def text (d : Duration) : String :=
  if 0 < d.seconds then
    toString d.seconds ++ fraction 9 d.nanos ++ "s"
  else if 1000000 ≤ d.nanos then
    toString (d.nanos / 1000000) ++ fraction 6 (d.nanos % 1000000) ++ "ms"
  else if 1000 ≤ d.nanos then
    toString (d.nanos / 1000) ++ fraction 3 (d.nanos % 1000) ++ "µs"
  else
    toString d.nanos ++ "ns"

end Duration

/-- The wall clock in microseconds, the part below a microsecond cut off toward zero. -/
def wallMicros (seconds nanos : Int) : Int :=
  seconds * 1000000 + nanos.tdiv 1000

/-- The last reading that the monotonic clock can show, in nanoseconds. -/
def clockLimit : Nat := UInt64.size - 1

/-- The clock moved on by `nanos`; it stops at its last reading. -/
def clockAfter (now nanos : Nat) : Nat :=
  min (now + nanos) clockLimit

/-- The reading after which a wait that starts at `now` is over. -/
def deadlineAfter (now : Nat) (timeout : Duration) : Nat :=
  clockAfter now (min timeout.toNanos clockLimit)

/-- Cutting a long timeout off first makes no difference. -/
theorem deadlineAfter_eq (now : Nat) (timeout : Duration) :
    deadlineAfter now timeout = min (now + timeout.toNanos) clockLimit := by
  simp only [deadlineAfter, clockAfter]
  omega

end BackoffStack
