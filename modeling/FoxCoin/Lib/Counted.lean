import FoxCoin.Lib.Checked

/-! # Computations that fail and count

A computation that may stop with an error and that counts how often it calls some routine, where the
calls made before an error count as well. -/

namespace Counting

open Checked

variable {ε α β : Type}

/-- The number of calls that were made, and the result. -/
structure Counted (ε α : Type) where
  count : ℕ
  result : Except ε α

/-- No call, and the result `a`. -/
instance : Monad (Counted ε) where
  pure a := ⟨0, .ok a⟩
  bind x f :=
    match x.result with
    | .error e => ⟨x.count, .error e⟩
    | .ok a => ⟨x.count + (f a).count, (f a).result⟩

/-- A computation that makes no call. -/
instance : MonadLift (Except ε) (Counted ε) where
  monadLift x := ⟨0, x⟩

/-- One call. -/
def tick : Counted ε Unit := ⟨1, .ok ()⟩

@[simp] theorem pure_count (a : α) : (pure a : Counted ε α).count = 0 := rfl

@[simp] theorem pure_result (a : α) : (pure a : Counted ε α).result = .ok a := rfl

@[simp] theorem lift_count (x : Except ε α) : (liftM x : Counted ε α).count = 0 := rfl

@[simp] theorem lift_result (x : Except ε α) : (liftM x : Counted ε α).result = x := rfl

@[simp] theorem tick_count : (tick : Counted ε Unit).count = 1 := rfl

@[simp] theorem tick_result : (tick : Counted ε Unit).result = .ok () := rfl

/-- The result does not depend on what was counted. -/
@[simp] theorem bind_result (x : Counted ε α) (f : α → Counted ε β) :
    (x >>= f).result = x.result >>= fun a => (f a).result := by
  cases h : x.result <;> simp only [bind, Except.bind, h]

/-- The calls of a sequence are those of its first part, and those of the rest if it is reached. -/
theorem bind_count_le {x : Counted ε α} {f : α → Counted ε β} {m n : ℕ} (hx : x.count ≤ m)
    (hf : ∀ a, x.result = .ok a → (f a).count ≤ n) : (x >>= f).count ≤ m + n := by
  cases h : x.result with
  | error e =>
    simp only [bind, h]
    omega
  | ok a =>
    have := hf a h
    simp only [bind, h]
    omega

/-- Only the calls of the rest count when the first part makes none. -/
theorem lift_bind_count_le {x : Except ε α} {f : α → Counted ε β} {n : ℕ}
    (hf : ∀ a, x = .ok a → (f a).count ≤ n) : ((liftM x : Counted ε α) >>= f).count ≤ n := by
  have := bind_count_le (x := (liftM x : Counted ε α)) (f := f) (m := 0) (n := n) le_rfl hf
  omega

end Counting
