import Mathlib.Data.List.Forall2
import Mathlib.Tactic

/-! # Matching in order

Each element of a list is to be matched with an element of another list, in the same order. Going
through the second list and taking every element that is good for the next one of the first finds a
match if there is any: an element that is passed over is not needed for a later one. -/

namespace OrderedMatch

open List

variable {A B : Type}

/-- Match each element with the first that is good for it and was not passed. -/
def greedy (good : A → B → Bool) : List A → List B → Bool
  | [], _ => true
  | _ :: _, [] => false
  | a :: as, b :: bs => if good a b then greedy good as bs else greedy good (a :: as) bs

variable {good : A → B → Bool} {a : A} {as : List A} {bs : List B}

theorem sublistForall₂_tail {R : A → B → Prop} (h : SublistForall₂ R (a :: as) bs) :
    SublistForall₂ R as bs := by
  induction bs with
  | nil => cases h
  | cons b bs ih =>
    cases h with
    | cons _ hrest => exact hrest.cons_right
    | cons_right hrest => exact (ih hrest).cons_right

/-- **The search finds a match if there is one.** -/
theorem greedy_iff :
    greedy good as bs = true ↔ SublistForall₂ (fun a b => good a b = true) as bs := by
  induction bs generalizing as with
  | nil =>
    cases as with
    | nil => exact iff_of_true rfl .nil
    | cons a as => exact iff_of_false Bool.false_ne_true (by rintro ⟨⟩)
  | cons b bs ih =>
    cases as with
    | nil => exact iff_of_true rfl .nil
    | cons a as =>
      rw [greedy]
      cases hgood : good a b with
      | true =>
        rw [if_pos rfl, ih]
        refine ⟨fun h => .cons hgood h, fun h => ?_⟩
        cases h with
        | cons _ hrest => exact hrest
        -- a match that passes over `b` can use it for `a` instead
        | cons_right hrest => exact sublistForall₂_tail hrest
      | false =>
        rw [if_neg Bool.false_ne_true, ih]
        refine ⟨fun h => h.cons_right, fun h => ?_⟩
        cases h with
        | cons htrue _ => exact absurd (hgood.symm.trans htrue) Bool.false_ne_true
        | cons_right hrest => exact hrest

/-- There is no match to a shorter list. -/
theorem greedy_eq_false_of_length_lt (h : bs.length < as.length) : greedy good as bs = false := by
  refine Bool.eq_false_of_not_eq_true fun htrue => ?_
  obtain ⟨bs', hmatch, hsub⟩ := sublistForall₂_iff.mp (greedy_iff.mp htrue)
  have hlen := hmatch.length_eq
  have hle := hsub.length_le
  omega

/-- An element that nothing is good for has no match. -/
theorem greedy_eq_false_of_forall (h : ∀ b, good a b = false) : greedy good (a :: as) bs = false := by
  induction bs with
  | nil => rfl
  | cons b bs ih => rw [greedy, h b, if_neg Bool.false_ne_true, ih]

/-- A match is found in the other direction as well. -/
theorem greedy_reverse {bs' : List B} (hmatch : Forall₂ (fun a b => good a b = true) as bs')
    (hsub : bs' <+ bs) : greedy good as.reverse bs.reverse = true :=
  greedy_iff.mpr (sublistForall₂_iff.mpr ⟨bs'.reverse, forall₂_reverse_iff.mpr hmatch,
    reverse_sublist.mpr hsub⟩)

end OrderedMatch
