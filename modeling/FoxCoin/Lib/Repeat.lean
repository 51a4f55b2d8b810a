import Mathlib.Tactic

/-! # Repeated rounds

A loop goes from a state to the next until a round ends it. A quantity that goes down with every
round that repeats bounds their number, and an invariant that repeating keeps holds where the last
round starts. -/

namespace Repeat

/-- What a round comes to: an exception, the state the loop ends in, or the one it goes on from. -/
inductive Round (S : Type) where
  | failed
  | done (s : S)
  | again (s : S)

variable {S : Type} {round : ℕ → S → Round S} {s s' : S} {k n : ℕ}

/-- At most `n` rounds of the loop from round `k` on: `none` when the last of them repeats, and
`some none` when one failed. -/
def loop (round : ℕ → S → Round S) : ℕ → ℕ → S → Option (Option S)
  | 0, _, _ => none
  | n + 1, k, s =>
    match round k s with
    | .failed => some none
    | .done s' => some (some s')
    | .again s' => loop round n (k + 1) s'

/-- The states that rounds of the loop start from. -/
inductive Reached (round : ℕ → S → Round S) (s : S) : ℕ → S → Prop
  | first : Reached round s 0 s
  | again {k : ℕ} {s₁ s₂ : S} (h : Reached round s k s₁) (hround : round k s₁ = .again s₂) :
      Reached round s (k + 1) s₂

/-- **A loop ends** when a quantity goes down with every round that repeats. -/
theorem loop_isSome (μ : S → ℕ) (h : ∀ k s s', round k s = .again s' → μ s' < μ s)
    (hn : μ s < n) : (loop round n k s).isSome = true := by
  induction n generalizing k s with
  | zero => omega
  | succ n ih =>
    rw [loop]
    cases hround : round k s with
    | failed => rfl
    | done s' => rfl
    | again s' =>
      have hlt := h k s s' hround
      exact ih (by omega)

/-- **What a loop returns is what its last round returns.** -/
theorem exists_last_round {s₀ : S} (hreached : Reached round s₀ k s)
    (h : loop round n k s = some (some s')) :
    ∃ k' s₁, Reached round s₀ k' s₁ ∧ round k' s₁ = .done s' := by
  induction n generalizing k s with
  | zero => cases h
  | succ n ih =>
    rw [loop] at h
    cases hround : round k s with
    | failed =>
      rw [hround] at h
      cases h
    | done s₁ =>
      rw [hround] at h
      cases h
      exact ⟨k, s, hreached, hround⟩
    | again s₁ =>
      rw [hround] at h
      exact ih (hreached.again hround) h

end Repeat
