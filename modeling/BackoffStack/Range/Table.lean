/-
The range of every thread that carries no policy of its own. A slot keeps a bare range and the
generation that saved it: a thread that reuses the id of one that is over starts from the template.
-/
import BackoffStack.Range.Policy
import BackoffStack.Segment.Facts
import BackoffStack.Token.Pool

namespace BackoffStack

/-- What is saved for an id: a range, and the generation of the token it was saved under. -/
structure RangeSlot where
  generation : Nat := 0
  range : Nat := 0
  deriving DecidableEq

instance : Inhabited RangeSlot := ⟨{}⟩

/-- Saved ranges by thread id, and the policy that everybody starts from. -/
structure RangeTable where
  template : RangePolicy
  slots : SegmentTable RangeSlot := .new

namespace RangeTable

/-- The table after its slot of an id was looked up. -/
def reach (t : RangeTable) (id : Nat) : RangeTable :=
  { t with slots := t.slots.reach id }

/-- The policy of a token: the template, with the saved range if this very token saved it. -/
def load (t : RangeTable) (token : ThreadToken) : RangePolicy :=
  let slot := t.slots.get token.id
  if slot.generation = token.generation then
    { t.template with range := slot.range }
  else
    t.template

/-- Saves the range of a policy under a token. -/
def store (t : RangeTable) (token : ThreadToken) (policy : RangePolicy) : RangeTable :=
  let t := t.reach token.id
  { t with slots := t.slots.set token.id ⟨token.generation, policy.range⟩ }

theorem load_reach (t : RangeTable) (id : Nat) (token : ThreadToken) :
    (t.reach id).load token = t.load token := by
  simp [load, reach]

/-- What a token saved is found by that very token. A later token with the same id starts from the
template, and other ids are not touched. -/
theorem load_store (t : RangeTable) (saver token : ThreadToken) (policy : RangePolicy) :
    (t.store saver policy).load token =
      if token.id = saver.id then
        if token.generation = saver.generation then
          { t.template with range := policy.range }
        else
          t.template
      else
        t.load token := by
  simp only [load, store, reach, SegmentTable.get_set_reach]
  split <;> simp [eq_comm]

end RangeTable

end BackoffStack
