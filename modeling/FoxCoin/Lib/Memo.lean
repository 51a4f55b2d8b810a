import Mathlib.Tactic

/-! # Memoized values

A memo holds the value of a function from the last time it was asked for, or nothing. It is fresh
while that value is the one the function would give now. -/

namespace Memo

variable {α : Type} {memo : Option α} {value value' : α}

/-- What the memo holds, if anything, is the value. -/
def Fresh (memo : Option α) (value : α) : Prop := ∀ n ∈ memo, n = value

/-- Ask for the value: the memo answers if it can, and holds the answer afterwards. -/
def ask (memo : Option α) (value : α) : α × Option α := (memo.getD value, some (memo.getD value))

/-- An empty memo is fresh. -/
@[simp] theorem fresh_none (value : α) : Fresh none value := fun _ h => by cases h

/-- A memo that has just been filled is fresh. -/
@[simp] theorem fresh_some (value : α) : Fresh (some value) value := fun _ h => (Option.some.inj h).symm

/-- A fresh memo answers with the value. -/
theorem Fresh.getD_eq (h : Fresh memo value) : memo.getD value = value := by
  cases memo with
  | none => rfl
  | some n => exact h n rfl

/-- Asking keeps a memo fresh. -/
theorem Fresh.ask (h : Fresh memo value) : Fresh (Memo.ask memo value).2 value := by
  intro n hn
  rw [← Option.some.inj hn]
  exact h.getD_eq

/-- A memo stays fresh when the value stays, as far as the memo holds one. -/
theorem Fresh.of_eq (h : Fresh memo value) (heq : memo ≠ none → value' = value) :
    Fresh memo value' := by
  intro n hn
  rw [heq (by rintro rfl; cases hn)]
  exact h n hn

end Memo
