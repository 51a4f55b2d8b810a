import Mathlib.Data.List.DropRight
import Mathlib.Tactic

/-! # The last entries of a log

A log grows at its end, and only its last entries are remembered. To go on, they are enough: what
is remembered after the next entry depends on what was remembered before. -/

namespace Recent

variable {α : Type} {l : List α} {n : ℕ} {a : α}

theorem length_rtake (l : List α) (n : ℕ) : (l.rtake n).length = min n l.length := by
  rw [List.rtake, List.length_drop]
  omega

theorem rtake_eq_self (h : l.length ≤ n) : l.rtake n = l := by
  rw [List.rtake, Nat.sub_eq_zero_of_le h, List.drop_zero]

/-- The last entries of the last entries. -/
theorem rtake_rtake (l : List α) (m n : ℕ) : (l.rtake m).rtake n = l.rtake (min m n) := by
  rw [List.rtake, length_rtake, List.rtake, List.rtake, List.drop_drop]
  congr 1
  omega

/-- Without the oldest of them, one less is remembered. -/
theorem tail_rtake (h : n < l.length) : (l.rtake (n + 1)).tail = l.rtake n := by
  rw [List.rtake, List.rtake, List.tail_drop]
  congr 1
  omega

/-- **Of a log that grows at its end**, only the last entries have to be remembered. -/
theorem rtake_rtake_append (l : List α) (n : ℕ) (a : α) :
    (l.rtake n ++ [a]).rtake n = (l ++ [a]).rtake n := by
  cases n with
  | zero => rw [List.rtake_zero, List.rtake_zero]
  | succ n =>
    rw [List.rtake_concat_succ, List.rtake_concat_succ, rtake_rtake, min_eq_right (Nat.le_succ n)]

/-- Remembering the last entries after each one is remembering the last entries of all. -/
theorem foldl_rtake_append (l as : List α) (n : ℕ) :
    as.foldl (fun w a => (w ++ [a]).rtake n) (l.rtake n) = (l ++ as).rtake n := by
  induction as generalizing l with
  | nil => rw [List.foldl_nil, List.append_nil]
  | cons a as ih => rw [List.foldl_cons, rtake_rtake_append, ih, List.append_assoc,
      List.singleton_append]

/-! ## Equal entries -/

/-- Equal entries are more than `n` places apart. -/
def Spaced (n : ℕ) (l : List α) : Prop :=
  ∀ i j a, i < j → l[i]? = some a → l[j]? = some a → n < j - i

theorem spaced_nil : Spaced n ([] : List α) := by
  intro i j a _ hi _
  simp at hi

/-- **An entry that is not remembered** is spaced from the ones before it. -/
theorem Spaced.append (h : Spaced n l) (ha : a ∉ l.rtake n) : Spaced n (l ++ [a]) := by
  intro i j b hij hi hj
  have hjlen := (List.getElem?_eq_some_iff.mp hj).1
  rw [List.length_append, List.length_singleton] at hjlen
  rw [List.getElem?_append_left (by omega)] at hi
  rcases Nat.lt_succ_iff_lt_or_eq.mp hjlen with hlt | heq
  · rw [List.getElem?_append_left hlt] at hj
    exact h i j b hij hi hj
  · subst heq
    rw [List.getElem?_concat_length, Option.some.injEq] at hj
    subst hj
    -- an equal entry at most `n` places before is among the last ones
    by_contra hnear
    refine ha (List.mem_of_getElem? (i := i - (l.length - n)) ?_)
    rw [List.rtake, List.getElem?_drop, show l.length - n + (i - (l.length - n)) = i by omega, hi]

end Recent
