/-
Signed words, and what becomes of a sum or a product that does not fit one: the operation breaks off, as if
an assertion were broken.
-/
import BackoffStack.Status

namespace BackoffStack

/-- Whether a number fits a signed word. -/
def FitsWord (n : Int) : Prop := Int64.minValue.toInt ≤ n ∧ n ≤ Int64.maxValue.toInt

instance (n : Int) : Decidable (FitsWord n) := inferInstanceAs (Decidable (_ ∧ _))

/-- The result of arithmetic on signed words, if it fits one. -/
def checked (n : Int) : Except Violation Int :=
  if FitsWord n then .ok n else .error .overflow

/-- The sum of two words fits if one of them is not negative and the other one not positive. -/
theorem fitsWord_add {a b : Int64} (ha : 0 ≤ a.toInt) (hb : b.toInt ≤ 0) :
    FitsWord (a.toInt + b.toInt) := by
  have hmin := b.minValue_le_toInt
  have hmax := a.toInt_le
  exact ⟨by omega, by omega⟩

/-- Where a sum with a word that is not positive fits, it does so with a later summand. -/
theorem fitsWord_add_of_le {a a' b : Int64} (hle : a.toInt ≤ a'.toInt) (hb : b.toInt ≤ 0)
    (hmin : Int64.minValue.toInt ≤ a.toInt + b.toInt) : FitsWord (a'.toInt + b.toInt) := by
  have hmax := a'.toInt_le
  exact ⟨by omega, by omega⟩

end BackoffStack
