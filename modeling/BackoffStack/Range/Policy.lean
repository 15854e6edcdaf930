/-
The adaptive range of one thread: over how many exchangers it spreads. A match widens it, a timeout
narrows it, one step at a time and within fixed bounds.
-/

namespace BackoffStack

/-- A range and the bounds between which it moves. -/
structure RangePolicy where
  range : Nat
  low : Nat
  high : Nat
  deriving DecidableEq

namespace RangePolicy

/-- Bounds are put in order first, `1 ≤ low ≤ high`, and the initial range is clamped to them. -/
def create (initial low high : Nat) : RangePolicy :=
  let low := max low 1
  let high := max high low
  ⟨min (max initial low) high, low, high⟩

/-- Any range over `capacity` exchangers, starting at one. -/
def withCapacity (capacity : Nat) : RangePolicy :=
  create 1 1 capacity

/-- A partner was found: look wider. -/
def recordSuccess (p : RangePolicy) : RangePolicy :=
  if p.range < p.high then { p with range := p.range + 1 } else p

/-- No partner came: look closer. -/
def recordTimeout (p : RangePolicy) : RangePolicy :=
  if p.low < p.range then { p with range := p.range - 1 } else p

/-- What an exchange did, as far as the range is concerned. -/
inductive Outcome where
  | success
  | timeout
  deriving DecidableEq

/-- The policy after one exchange. -/
def record (p : RangePolicy) : Outcome → RangePolicy
  | .success => p.recordSuccess
  | .timeout => p.recordTimeout

/-- The policy after a row of exchanges. -/
def walk (p : RangePolicy) (outcomes : List Outcome) : RangePolicy :=
  outcomes.foldl record p

/-- The policy after each exchange of a row. -/
def trail (p : RangePolicy) : List Outcome → List RangePolicy
  | [] => []
  | o :: rest => p.record o :: (p.record o).trail rest

/-- The range lies within its bounds, and is never zero. -/
structure InBounds (p : RangePolicy) : Prop where
  low_pos : 1 ≤ p.low
  low_le : p.low ≤ p.range
  le_high : p.range ≤ p.high

theorem create_inBounds (initial low high : Nat) : (create initial low high).InBounds := by
  constructor <;> simp only [create] <;> omega

theorem record_inBounds {p : RangePolicy} (h : p.InBounds) (o : Outcome) :
    (p.record o).InBounds := by
  obtain ⟨h1, h2, h3⟩ := h
  cases o <;> simp only [record, recordSuccess, recordTimeout] <;> split <;> constructor <;> grind

/-- No row of exchanges leads out of the bounds. -/
theorem walk_inBounds {p : RangePolicy} (h : p.InBounds) (outcomes : List Outcome) :
    (p.walk outcomes).InBounds := by
  induction outcomes generalizing p with
  | nil => exact h
  | cons o rest ih => exact ih (record_inBounds h o)

end RangePolicy

end BackoffStack
