import Mathlib.Algebra.BigOperators.Fin
import Mathlib.Algebra.BigOperators.Group.Finset.Piecewise
import Mathlib.Algebra.Order.BigOperators.Group.Finset
import Mathlib.Data.Finset.Card
import Mathlib.Data.List.Perm.Basic

/-! # Buckets

A family of buckets files values under an index. A bucket is a set, so that a value has a set of
places, or a list, so that it has a number of occurrences. Both follow a change of one bucket. -/

namespace Buckets

variable {I A : Type} [Fintype I] [DecidableEq I] [DecidableEq A]

omit [Fintype I] [DecidableEq A] in
/-- What every bucket has, and the new content of one, every bucket has after the change. -/
theorem forall_update {B : Type} (p : B → Prop) {vv : I → B} {b : I} {s : B} (h : ∀ b, p (vv b))
    (hs : p s) (b' : I) : p (Function.update vv b s b') := by
  by_cases hb : b' = b
  · rwa [hb, Function.update_self]
  · rw [Function.update_of_ne hb]
    exact h b'

/-! ## Sets -/

/-- The buckets that a value is in. -/
def places (vv : I → Finset A) (a : A) : Finset I := Finset.univ.filter fun b => a ∈ vv b

variable {vv : I → Finset A} {a a' : A} {b b' : I}

omit [DecidableEq I] in
@[simp] theorem mem_places : b ∈ places vv a ↔ a ∈ vv b := by simp [places]

omit [DecidableEq I] in
theorem places_eq_empty : places vv a = ∅ ↔ ∀ b, a ∉ vv b := by
  simp [places, Finset.filter_eq_empty_iff]

/-- A value that is put into a bucket has one place more. -/
theorem places_insert (vv : I → Finset A) (b : I) (a : A) :
    places (Function.update vv b (insert a (vv b))) a = insert b (places vv a) := by
  ext b'
  rw [Finset.mem_insert, mem_places, mem_places]
  by_cases h : b' = b
  · simp [h]
  · rw [Function.update_of_ne h]
    simp [h]

/-- A value that is taken out of a bucket has one place less. -/
theorem places_erase (vv : I → Finset A) (b : I) (a : A) :
    places (Function.update vv b ((vv b).erase a)) a = (places vv a).erase b := by
  ext b'
  rw [Finset.mem_erase, mem_places, mem_places]
  by_cases h : b' = b
  · simp [h]
  · rw [Function.update_of_ne h]
    simp [h]

/-- Other values stay in their places. -/
theorem places_update_of_iff {s : Finset A} (h : a ∈ s ↔ a ∈ vv b) :
    places (Function.update vv b s) a = places vv a := by
  ext b'
  rw [mem_places, mem_places]
  by_cases hb : b' = b
  · rw [hb, Function.update_self, h]
  · rw [Function.update_of_ne hb]

/-! ## Lists -/

/-- How often a value occurs in all buckets. -/
def occurrences (vv : I → List A) (a : A) : ℕ := ∑ b, (vv b).count a

variable {ww : I → List A} {l : List A}

/-- A change of one bucket changes the number of occurrences as it changes that in the bucket. -/
theorem occurrences_update (ww : I → List A) (b : I) (l : List A) (a : A) :
    occurrences (Function.update ww b l) a + (ww b).count a = occurrences ww a + l.count a := by
  have hsplit := Finset.add_sum_erase Finset.univ (fun b' => (ww b').count a) (Finset.mem_univ b)
  have hsplit' := Finset.add_sum_erase Finset.univ
    (fun b' => (Function.update ww b l b').count a) (Finset.mem_univ b)
  have hrest : ∑ b' ∈ Finset.univ.erase b, (Function.update ww b l b').count a =
      ∑ b' ∈ Finset.univ.erase b, (ww b').count a :=
    Finset.sum_congr rfl fun b' hb' => by rw [Function.update_of_ne (Finset.ne_of_mem_erase hb')]
  simp only [Function.update_self] at hsplit'
  rw [occurrences, occurrences, ← hsplit, ← hsplit', hrest]
  omega

/-- A value that occurs as often in a bucket as before keeps its number of occurrences. -/
theorem occurrences_update_of_count (h : l.count a = (ww b).count a) :
    occurrences (Function.update ww b l) a = occurrences ww a := by
  have hsum := occurrences_update ww b l a
  omega

omit [DecidableEq I] in
/-- A value occurs in all buckets at least as often as in one. -/
theorem count_le_occurrences (ww : I → List A) (b : I) (a : A) :
    (ww b).count a ≤ occurrences ww a :=
  Finset.single_le_sum (f := fun b => (ww b).count a) (fun _ _ => Nat.zero_le _) (Finset.mem_univ b)

omit [DecidableEq I] in
/-- A value that does not occur is in no bucket. -/
theorem occurrences_eq_zero : occurrences ww a = 0 ↔ ∀ b, a ∉ ww b := by
  rw [occurrences, Finset.sum_eq_zero_iff]
  simp [List.count_eq_zero]

end Buckets
