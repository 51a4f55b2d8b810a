import Mathlib.Tactic
import Mathlib.Data.List.Sort

/-! # Medians

The middle of a sorted list splits its values in two halves. For an odd number of values this says
all about it: how it compares with a bound is decided by counting the values beyond that bound. -/

namespace Median

variable {α : Type} [LinearOrder α] {l l' : List α} {m m' c : α}

/-- At least half of the values are at most a median, and at least half are at least it. -/
structure IsMedian (m : α) (l : List α) : Prop where
  below : l.length ≤ 2 * l.countP (· ≤ m)
  above : l.length ≤ 2 * l.countP (m ≤ ·)

/-- The order of the values does not matter. -/
theorem IsMedian.perm (h : IsMedian m l) (hperm : l.Perm l') : IsMedian m l' := by
  refine ⟨?_, ?_⟩
  · rw [← hperm.length_eq, ← hperm.countP_eq]
    exact h.below
  · rw [← hperm.length_eq, ← hperm.countP_eq]
    exact h.above

/-- **The middle of a sorted list** of odd length is a median. -/
theorem isMedian_middle (hsorted : l.Pairwise (· ≤ ·)) (hodd : l.length % 2 = 1)
    (hm : l[l.length / 2]? = some m) : IsMedian m l := by
  have hlt : l.length / 2 < l.length := by omega
  have hget : l.get ⟨l.length / 2, hlt⟩ = m := by
    rw [List.getElem?_eq_getElem hlt] at hm
    exact Option.some.inj hm
  have htake : (l.take (l.length / 2 + 1)).countP (· ≤ m) = (l.take (l.length / 2 + 1)).length := by
    refine List.countP_eq_length.mpr fun a ha => ?_
    obtain ⟨i, hi, rfl⟩ := List.mem_take_iff_getElem.mp ha
    rw [decide_eq_true_eq, ← hget]
    exact hsorted.rel_get_of_le (a := ⟨i, by omega⟩) (b := ⟨l.length / 2, hlt⟩)
      (Fin.mk_le_mk.mpr (by omega))
  have hdrop : (l.drop (l.length / 2)).countP (m ≤ ·) = (l.drop (l.length / 2)).length := by
    refine List.countP_eq_length.mpr fun a ha => ?_
    obtain ⟨i, hi, rfl⟩ := List.mem_drop_iff_getElem.mp ha
    rw [decide_eq_true_eq, ← hget]
    exact hsorted.rel_get_of_le (a := ⟨l.length / 2, hlt⟩) (b := ⟨l.length / 2 + i, by omega⟩)
      (Fin.mk_le_mk.mpr (by omega))
  refine ⟨?_, ?_⟩
  · have hle := (List.take_sublist (l.length / 2 + 1) l).countP_le (p := fun a => decide (a ≤ m))
    rw [htake, List.length_take] at hle
    omega
  · have hle := (List.drop_sublist (l.length / 2) l).countP_le (p := fun a => decide (m ≤ a))
    rw [hdrop, List.length_drop] at hle
    omega

/-- The values on the two sides of a bound. -/
theorem countP_lt_add_countP_le (c : α) (l : List α) :
    l.countP (· < c) + l.countP (c ≤ ·) = l.length := by
  rw [List.length_eq_countP_add_countP fun a => decide (a < c)]
  simp

/-- **A median is below a bound** when less than half of the values reach it. -/
theorem IsMedian.lt_iff (h : IsMedian m l) (hodd : l.length % 2 = 1) :
    m < c ↔ 2 * l.countP (c ≤ ·) < l.length := by
  have hsplit := countP_lt_add_countP_le c l
  constructor
  · intro hlt
    have hle : l.countP (· ≤ m) ≤ l.countP (· < c) :=
      List.countP_mono_left fun a _ ha => by
        rw [decide_eq_true_eq] at ha ⊢
        exact ha.trans_lt hlt
    have hbelow := h.below
    omega
  · intro hcount
    by_contra hge
    have hle : l.countP (m ≤ ·) ≤ l.countP (c ≤ ·) :=
      List.countP_mono_left fun a _ ha => by
        rw [decide_eq_true_eq] at ha ⊢
        exact (not_lt.mp hge).trans ha
    have habove := h.above
    omega

/-- **A median is above a bound** when less than half of the values do not exceed it. -/
theorem IsMedian.gt_iff (h : IsMedian m l) (hodd : l.length % 2 = 1) :
    c < m ↔ 2 * l.countP (· ≤ c) < l.length :=
  IsMedian.lt_iff (α := αᵒᵈ) (l := l) (m := m) (c := c) ⟨h.above, h.below⟩ hodd

/-- An odd number of values has one median. -/
theorem IsMedian.unique (h : IsMedian m l) (h' : IsMedian m' l) (hodd : l.length % 2 = 1) :
    m = m' := by
  refine le_antisymm ?_ ?_
  · by_contra hlt
    have habove := h.above
    have hcount := (h'.lt_iff hodd).mp (not_le.mp hlt)
    omega
  · by_contra hlt
    have habove := h'.above
    have hcount := (h.lt_iff hodd).mp (not_le.mp hlt)
    omega

end Median
