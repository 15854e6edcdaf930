/-
The walk of a range, by the numbers of a configuration.

An acceptable configuration has its ranges in order, so that nothing is clamped when a policy is made
of it. From then on the range goes up by one or down by one with each exchange, and stays between the
least and the largest; the policy has nothing else that changes (`Config.policyAfter`).
-/
import BackoffStack.Elimination.Stack
import Mathlib.Data.List.Induction

namespace BackoffStack

namespace Config

/-- The range after one more exchange. -/
def next (c : Config) (range : Nat) : RangePolicy.Outcome → Nat
  | .success => min (range + 1) c.maxRange
  | .timeout => max (range - 1) c.minRange

/-- The range after a row of exchanges. -/
def walk (c : Config) (outcomes : List RangePolicy.Outcome) : Nat :=
  outcomes.foldl c.next c.initialRange

/-- The policy after a row of exchanges. -/
def policyAfter (c : Config) (outcomes : List RangePolicy.Outcome) : RangePolicy :=
  ⟨c.walk outcomes, c.minRange, c.maxRange⟩

/-- The ranges are in order, and there is a slot for each place in the largest. -/
structure Ordered (c : Config) : Prop where
  min_pos : 1 ≤ c.minRange
  min_le : c.minRange ≤ c.initialRange
  le_max : c.initialRange ≤ c.maxRange
  max_le : c.maxRange ≤ c.capacity

variable {c : Config} {outcomes : List RangePolicy.Outcome}

theorem walk_concat (c : Config) (outcomes : List RangePolicy.Outcome) (o : RangePolicy.Outcome) :
    c.walk (outcomes ++ [o]) = c.next (c.walk outcomes) o := by
  simp [walk, List.foldl_append]

namespace Ordered

/-- No exchange leads out of the bounds. -/
theorem walk_bounds (h : c.Ordered) (outcomes : List RangePolicy.Outcome) :
    c.minRange ≤ c.walk outcomes ∧ c.walk outcomes ≤ c.maxRange := by
  obtain ⟨-, hmin, hmax, -⟩ := h
  induction outcomes using List.reverseRecOn with
  | nil => exact ⟨hmin, hmax⟩
  | append_singleton outcomes o ih =>
    rw [walk_concat]
    cases o <;> simp only [next] <;> omega

theorem rangePolicy_eq (h : c.Ordered) : c.rangePolicy = c.policyAfter [] := by
  obtain ⟨hpos, hmin, hmax, -⟩ := h
  simp only [rangePolicy, RangePolicy.create, policyAfter, walk, List.foldl_nil,
    RangePolicy.mk.injEq]
  omega

/-- A policy records an exchange as its range goes on. -/
theorem record_policyAfter (h : c.Ordered) (outcomes : List RangePolicy.Outcome)
    (o : RangePolicy.Outcome) : (c.policyAfter outcomes).record o = c.policyAfter (outcomes ++ [o]) := by
  obtain ⟨hmin, hmax⟩ := h.walk_bounds outcomes
  unfold policyAfter
  rw [walk_concat]
  cases o
  · simp only [RangePolicy.record, RangePolicy.recordSuccess, next]
    split <;> simp only [RangePolicy.mk.injEq, and_true] <;> omega
  · simp only [RangePolicy.record, RangePolicy.recordTimeout, next]
    split <;> simp only [RangePolicy.mk.injEq, and_true] <;> omega

end Ordered

end Config

namespace RangeTable

variable {table table' : RangeTable} {token : ThreadToken}

/-- A token under which nothing was saved yet starts from the template. -/
theorem load_of_older (h : (table.slots.get token.id).generation < token.generation) :
    table.load token = table.template := by
  unfold load
  exact if_neg (Nat.ne_of_lt h)

theorem load_congr (ht : table'.template = table.template)
    (hs : table'.slots.get token.id = table.slots.get token.id) :
    table'.load token = table.load token := by
  unfold load
  rw [ht, hs]

theorem get_store (table : RangeTable) (token : ThreadToken) (policy : RangePolicy) (id : Nat) :
    (table.store token policy).slots.get id =
      if id = token.id then ⟨token.generation, policy.range⟩ else table.slots.get id := by
  unfold store reach
  exact SegmentTable.get_set_reach ..

/-- What was saved is found again under the same token. -/
theorem load_store_self (table : RangeTable) (token : ThreadToken) (policy : RangePolicy) :
    (table.store token policy).load token = { table.template with range := policy.range } := by
  rw [load_store, if_pos rfl, if_pos rfl]

end RangeTable

end BackoffStack
