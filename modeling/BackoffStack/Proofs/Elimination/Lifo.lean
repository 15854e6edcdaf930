/-
A sequential stack, as its callers see it. A call is pending until it takes effect, and then done until it
returns. A push and a pop may take effect together: the push first, the pop at once after it, so that the
stack is left as it was.
-/
import BackoffStack.Elimination.Call
import Mathlib.Logic.Function.Basic

namespace BackoffStack

variable {α : Type}

/-- How far the call of a thread has come. -/
inductive Phase (α : Type) where
  | idle
  | pending (offer : Option α)
  | done (offer : Option α) (outcome : Outcome α)

/-- What a call has offered that is under way: the value of a push, or none for a pop. -/
def Phase.offer? : Phase α → Option (Option α)
  | idle => none
  | pending offer => some offer
  | done offer _ => some offer

/-- How a call ends that has met a partner with this offer. -/
def Outcome.met : Option α → Outcome α
  | none => .pushed
  | some v => .popped v

/-- The values on a stack, the top first, and its callers by thread. -/
structure Lifo (α : Type) where
  content : List α := []
  phases : Nat → Phase α := fun _ => .idle

namespace Lifo

/-- What happens at a stack. -/
inductive Label (α : Type) where
  | call (t : Nat) (offer : Option α)
  /-- A push takes effect on its own. -/
  | push (t : Nat)
  /-- A pop takes effect on its own, and finds a top. -/
  | pop (t : Nat)
  /-- A pop takes effect on its own, and finds no top. -/
  | empty (t : Nat)
  /-- A push takes effect, and at once after it a pop. -/
  | meet (push pop : Nat)
  | ret (t : Nat) (outcome : Outcome α)

/-- The call that returns, with its outcome. -/
def Label.returned? : Label α → Option (Nat × Outcome α)
  | ret t outcome => some (t, outcome)
  | _ => none

/-- The stack with a call in another phase. -/
def goto (g : Lifo α) (t : Nat) (p : Phase α) : Lifo α :=
  { g with phases := Function.update g.phases t p }

/-- What a sequential stack can do. -/
inductive Step : Lifo α → Label α → Lifo α → Prop
  | call {g t offer} : g.phases t = .idle → Step g (.call t offer) (g.goto t (.pending offer))
  | push {g t v} : g.phases t = .pending (some v) →
      Step g (.push t) { g.goto t (.done (some v) .pushed) with content := v :: g.content }
  | pop {g t v rest} : g.phases t = .pending none → g.content = v :: rest →
      Step g (.pop t) { g.goto t (.done none (.popped v)) with content := rest }
  | empty {g t} : g.phases t = .pending none → g.content = [] →
      Step g (.empty t) (g.goto t (.done none .empty))
  | meet {g push pop v} : g.phases push = .pending (some v) → g.phases pop = .pending none →
      Step g (.meet push pop)
        ((g.goto push (.done (some v) .pushed)).goto pop (.done none (.popped v)))
  | ret {g t offer outcome} : g.phases t = .done offer outcome →
      Step g (.ret t outcome) (g.goto t .idle)

/-- What a sequential stack can do one after the other. -/
def Runs : Lifo α → List (Label α) → Lifo α → Prop
  | g, [], g' => g' = g
  | g, l :: labels, g' => ∃ next, Step g l next ∧ Runs next labels g'

theorem Runs.append {g g' g'' : Lifo α} {labels labels' : List (Label α)} (h : g.Runs labels g')
    (h' : g'.Runs labels' g'') : g.Runs (labels ++ labels') g'' := by
  induction labels generalizing g with
  | nil =>
    obtain rfl : g' = g := h
    exact h'
  | cons l labels ih =>
    obtain ⟨next, hs, h⟩ := h
    exact ⟨next, hs, ih h⟩

@[simp] theorem phases_goto_self (g : Lifo α) (t : Nat) (p : Phase α) :
    (g.goto t p).phases t = p := Function.update_self ..

theorem phases_goto_of_ne (g : Lifo α) {t u : Nat} (p : Phase α) (h : u ≠ t) :
    (g.goto t p).phases u = g.phases u := Function.update_of_ne h ..

end Lifo

end BackoffStack
