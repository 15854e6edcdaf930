/-
Loops that go round until one turn leaves with a result.

Going along links through memory need not come to an end. So such a loop has a result just if some turn
leaves, and no turn before it has failed.
-/
import Mathlib.Data.PFun

namespace BackoffStack

variable {σ β : Type} {turn : σ → Option (β ⊕ σ)} {s s' : σ} {b : β}

/-- Goes round, turn after turn. A turn leaves with a result, goes on from another state, or fails. -/
def rounds (turn : σ → Option (β ⊕ σ)) : σ → Part β :=
  PFun.fix fun s => (turn s : Part (β ⊕ σ))

theorem rounds_of_leaves (h : turn s = some (.inl b)) : rounds turn s = Part.some b :=
  Part.eq_some_iff.2 (PFun.fix_stop (by simp [h]))

theorem rounds_of_goes_on (h : turn s = some (.inr s')) : rounds turn s = rounds turn s' :=
  PFun.fix_fwd_eq (by simp [h])

end BackoffStack
