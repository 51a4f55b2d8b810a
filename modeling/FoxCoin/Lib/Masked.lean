import Mathlib.Algebra.Order.BigOperators.Group.List
import Mathlib.Tactic

/-! # Elements picked by flags

A list of flags picks the elements of another list that stand where a flag is set. -/

namespace Masked

variable {α : Type} {mask : List Bool} {l : List α} {i : ℕ} {a : α}

/-- The elements whose flag is set. -/
def picked : List Bool → List α → List α
  | b :: mask, a :: l => if b then a :: picked mask l else picked mask l
  | _, _ => []

theorem picked_sublist (mask : List Bool) (l : List α) : (picked mask l).Sublist l := by
  induction mask generalizing l with
  | nil => exact List.nil_sublist l
  | cons b mask ih =>
    cases l with
    | nil => exact List.nil_sublist []
    | cons a l =>
      unfold picked
      split
      · exact (ih l).cons_cons a
      · exact (ih l).cons a

/-- All flags pick the whole list. -/
theorem picked_replicate_true (l : List α) : picked (List.replicate l.length true) l = l := by
  induction l with
  | nil => rfl
  | cons a l ih =>
    rw [List.length_cons, List.replicate_succ, picked, if_pos rfl, ih]

/-- No flag picks nothing. -/
theorem picked_replicate_false (n : ℕ) (l : List α) : picked (List.replicate n false) l = [] := by
  induction n generalizing l with
  | zero => rfl
  | succ n ih =>
    cases l with
    | nil => rfl
    | cons a l => rw [List.replicate_succ, picked, if_neg Bool.false_ne_true, ih]

/-- **A flag that is set picks one more element.** -/
theorem picked_set_true (hflag : mask[i]? = some false) (ha : l[i]? = some a) :
    (picked (mask.set i true) l).Perm (a :: picked mask l) := by
  induction mask generalizing l i with
  | nil => simp at hflag
  | cons b mask ih =>
    cases l with
    | nil => simp at ha
    | cons a' l =>
      cases i with
      | zero =>
        rw [List.getElem?_cons_zero, Option.some.injEq] at hflag ha
        rw [List.set_cons_zero, hflag, ha, picked, picked, if_pos rfl, if_neg Bool.false_ne_true]
      | succ i =>
        rw [List.getElem?_cons_succ] at hflag ha
        rw [List.set_cons_succ, picked, picked]
        split
        · exact ((ih hflag ha).cons a').trans (.swap a a' _)
        · exact ih hflag ha

/-- A flag that is taken back was not set before. -/
theorem set_true_set_false (hflag : mask[i]? = some false) :
    (mask.set i true).set i false = mask := by
  obtain ⟨hi, heq⟩ := List.getElem?_eq_some_iff.mp hflag
  rw [List.set_set, ← heq, List.set_getElem_self]

/-- The picked elements are the same ones after a map. -/
theorem map_picked {β : Type} (f : α → β) (mask : List Bool) (l : List α) :
    (picked mask l).map f = picked mask (l.map f) := by
  induction mask generalizing l with
  | nil => rfl
  | cons b mask ih =>
    cases l with
    | nil => rfl
    | cons a l =>
      rw [List.map_cons, picked, picked, ← ih]
      split <;> rfl

/-- What is picked from amounts that are not negative sums up to at most all of them. -/
theorem sum_picked_bounds (mask : List Bool) {l : List ℤ} (hl : ∀ x ∈ l, 0 ≤ x) :
    0 ≤ (picked mask l).sum ∧ (picked mask l).sum ≤ l.sum :=
  ⟨List.sum_nonneg fun x hx => hl x ((picked_sublist mask l).subset hx),
    (picked_sublist mask l).sum_le_sum hl⟩

end Masked
