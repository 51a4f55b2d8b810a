import Mathlib.Tactic

/-! # Tokens

A reader splits the first token off a list. When the token does not depend on what comes after it, a
list is its tokens one after the other, up to a tail that starts with none, and tokens can be taken
out without disturbing the others. -/

namespace Tokens

/-- A way to read the first token, and what comes after it. -/
structure Reader (α : Type) where
  next : List α → Option (List α × List α)
  eq_append : ∀ {s t rest}, next s = some (t, rest) → s = t ++ rest
  ne_nil : ∀ {s t rest}, next s = some (t, rest) → t ≠ []
  stable : ∀ {s t rest}, next s = some (t, rest) → ∀ rest', next (t ++ rest') = some (t, rest')

variable {α : Type} {R : Reader α} {s t rest tail : List α} {ts : List (List α)} {n : ℕ}

namespace Reader

/-- The tokens of a list and the tail, for a number of tokens. -/
def splitLoop (R : Reader α) : ℕ → List α → List (List α) × List α
  | 0, s => ([], s)
  | n + 1, s =>
    match R.next s with
    | none => ([], s)
    | some (t, rest) => (t :: (R.splitLoop n rest).1, (R.splitLoop n rest).2)

/-- The tokens of a list and the tail, which starts with no token. -/
def split (R : Reader α) (s : List α) : List (List α) × List α := R.splitLoop s.length s

/-- A list that is one token. -/
def IsToken (R : Reader α) (t : List α) : Prop := R.next t = some (t, [])

theorem length_rest_lt (h : R.next s = some (t, rest)) : rest.length < s.length := by
  have ht := List.length_pos_iff.mpr (R.ne_nil h)
  rw [R.eq_append h, List.length_append]
  omega

theorem isToken_of_next (h : R.next s = some (t, rest)) : R.IsToken t := by
  have := R.stable h []
  rwa [List.append_nil] at this

theorem IsToken.next (h : R.IsToken t) (rest : List α) : R.next (t ++ rest) = some (t, rest) :=
  R.stable h rest

/-! ## Splitting -/

theorem next_nil (R : Reader α) : R.next [] = none := by
  cases h : R.next [] with
  | none => rfl
  | some p => exact absurd (length_rest_lt h) (Nat.not_lt_zero _)

/-- There are no more tokens than elements. -/
theorem splitLoop_congr {m : ℕ} (hn : s.length ≤ n) (hm : s.length ≤ m) :
    R.splitLoop n s = R.splitLoop m s := by
  induction n generalizing s m with
  | zero =>
    obtain rfl := List.eq_nil_of_length_eq_zero (Nat.le_zero.mp hn)
    cases m with
    | zero => rfl
    | succ m => rw [splitLoop, splitLoop, next_nil]
  | succ n ih =>
    cases m with
    | zero =>
      obtain rfl := List.eq_nil_of_length_eq_zero (Nat.le_zero.mp hm)
      rw [splitLoop, splitLoop, next_nil]
    | succ m =>
      rw [splitLoop, splitLoop]
      cases hnext : R.next s with
      | none => rfl
      | some p =>
        have hlt := length_rest_lt hnext
        simp only
        rw [ih (m := m) (by omega) (by omega)]

theorem split_of_none (h : R.next s = none) : R.split s = ([], s) := by
  rw [split, splitLoop_congr le_rfl (Nat.le_succ _), splitLoop, h]

theorem split_of_some (h : R.next s = some (t, rest)) :
    R.split s = (t :: (R.split rest).1, (R.split rest).2) := by
  have hlt := length_rest_lt h
  rw [split, splitLoop_congr le_rfl (Nat.le_succ _), splitLoop, h]
  simp only
  rw [splitLoop_congr hlt.le le_rfl, split]

/-- **Reading token by token.** -/
theorem induction {motive : List α → Prop} (hnone : ∀ s, R.next s = none → motive s)
    (hsome : ∀ s t rest, R.next s = some (t, rest) → motive rest → motive s) (s : List α) :
    motive s := by
  induction hn : s.length using Nat.strong_induction_on generalizing s with
  | _ n ih =>
    cases hnext : R.next s with
    | none => exact hnone s hnext
    | some p => exact hsome s p.1 p.2 hnext (ih _ (hn ▸ length_rest_lt hnext) _ rfl)

/-- The tail starts with no token. -/
theorem next_split_snd (s : List α) : R.next (R.split s).2 = none := by
  induction s using R.induction with
  | hnone s h => rwa [split_of_none h]
  | hsome s t rest h ih => rwa [split_of_some h]

theorem isToken_of_mem_split (s : List α) : ∀ t ∈ (R.split s).1, R.IsToken t := by
  induction s using R.induction with
  | hnone s h => simp [split_of_none h]
  | hsome s t rest h ih =>
    rw [split_of_some h]
    exact List.forall_mem_cons.mpr ⟨isToken_of_next h, ih⟩

/-- Tokens in front of a list are its first tokens. -/
theorem split_flatten_append (h : ∀ t ∈ ts, R.IsToken t) (s : List α) :
    R.split (ts.flatten ++ s) = (ts ++ (R.split s).1, (R.split s).2) := by
  induction ts with
  | nil => rfl
  | cons t ts ih =>
    obtain ⟨ht, hts⟩ := List.forall_mem_cons.mp h
    rw [List.flatten_cons, List.append_assoc, split_of_some (ht.next _), ih hts, List.cons_append]

/-! ## Taking tokens out -/

variable [DecidableEq α] {b : List α}

/-- The list without the tokens that are equal to `b`. -/
def delete (R : Reader α) (b s : List α) : List α :=
  ((R.split s).1.filter (· ≠ b)).flatten ++ (R.split s).2

/-- **The other tokens and the tail stay.** -/
theorem split_delete (b s : List α) :
    R.split (R.delete b s) = ((R.split s).1.filter (· ≠ b), (R.split s).2) := by
  have htokens : ∀ t ∈ (R.split s).1.filter (· ≠ b), R.IsToken t := fun t ht =>
    isToken_of_mem_split s t (List.mem_filter.mp ht).1
  rw [delete, split_flatten_append htokens, split_of_none (next_split_snd s), List.append_nil]

/-- **Nothing is left to delete.** -/
theorem delete_delete (b s : List α) : R.delete b (R.delete b s) = R.delete b s := by
  rw [delete, split_delete, List.filter_filter]
  simp only [Bool.and_self]
  rfl

theorem count_split_delete (b s : List α) : (R.split (R.delete b s)).1.count b = 0 := by
  rw [split_delete, List.count_eq_zero, List.mem_filter]
  simp

end Reader

end Tokens
