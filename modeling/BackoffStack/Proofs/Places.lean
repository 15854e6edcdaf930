/-
What the places of a list hold together, when one of them changes.
-/
import Mathlib.Data.List.GetD
import Mathlib.Data.List.Perm.Basic

namespace BackoffStack

/-- What a change at one place adds and takes away, it adds and takes away in the whole list. -/
theorem flatMap_set_perm {β γ : Type} {f : β → List γ} {xs : List β} {i : Nat}
    (hi : i < xs.length) {y : β} {l l' : List γ} (h : (l ++ f xs[i]).Perm (l' ++ f y)) :
    (l ++ xs.flatMap f).Perm (l' ++ (xs.set i y).flatMap f) := by
  induction xs generalizing i with
  | nil => simp at hi
  | cons x xs ih =>
    cases i with
    | zero =>
      simp only [List.flatMap_cons, List.set_cons_zero, ← List.append_assoc]
      exact h.append_right _
    | succ i =>
      have hrest := ih (by simpa using hi) h
      simp only [List.flatMap_cons, List.set_cons_succ]
      calc List.Perm (l ++ (f x ++ xs.flatMap f)) (f x ++ (l ++ xs.flatMap f)) :=
            List.perm_append_comm_assoc ..
        List.Perm _ (f x ++ (l' ++ (xs.set i y).flatMap f)) := hrest.append_left _
        List.Perm _ _ := List.perm_append_comm_assoc ..

/-- How many places have a property changes by what the changed one has. -/
theorem countP_set_add {β : Type} {xs : List β} {i : Nat} (hi : i < xs.length) (y : β)
    (p : β → Bool) : (xs.set i y).countP p + (p xs[i]).toNat = xs.countP p + (p y).toNat := by
  have hle := List.boole_getElem_le_countP (p := p) hi
  rw [List.countP_set hi]
  cases hx : p xs[i] <;> cases hy : p y <;> simp_all

end BackoffStack
