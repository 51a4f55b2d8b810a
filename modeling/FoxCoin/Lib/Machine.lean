import FoxCoin.Lib.Checked

/-! # Arithmetic of machine integers

A routine that computes with machine integers is run here on integers of any size, and stops where a
result does not fit its type or a divisor is zero. Where it does not stop, the machine computes the
same numbers. -/

namespace Machine

open Checked

/-- What an operation can run into. -/
inductive Fault where
  | overflow
  | divisionByZero
  deriving DecidableEq, Repr

/-- A computation with machine integers. -/
abbrev Arith (α : Type) := Except Fault α

/-- Whether a number is a value of a signed 64-bit type. -/
def fitsInt64 (x : ℤ) : Bool := decide (-2 ^ 63 ≤ x) && decide (x < 2 ^ 63)

/-- Whether a number is a value of a signed 32-bit type. -/
def fitsInt32 (x : ℤ) : Bool := decide (-2 ^ 31 ≤ x) && decide (x < 2 ^ 31)

/-- A signed 32-bit result. -/
def toInt32 (x : ℤ) : Arith ℤ := do
  ensure (fitsInt32 x) .overflow
  pure x

/-- A signed 64-bit result. -/
def toInt64 (x : ℤ) : Arith ℤ := do
  ensure (fitsInt64 x) .overflow
  pure x

/-- An unsigned 32-bit result. -/
def toUInt32 (x : ℤ) : Arith ℕ := do
  ensure (decide (0 ≤ x) && decide (x < 2 ^ 32)) .overflow
  pure x.toNat

/-- A division of unsigned numbers. -/
def div (a b : ℕ) : Arith ℕ := do
  ensure (decide (b ≠ 0)) .divisionByZero
  pure (a / b)

theorem fitsInt64_iff {x : ℤ} : fitsInt64 x = true ↔ -2 ^ 63 ≤ x ∧ x < 2 ^ 63 := by
  simp [fitsInt64]

theorem fitsInt32_iff {x : ℤ} : fitsInt32 x = true ↔ -2 ^ 31 ≤ x ∧ x < 2 ^ 31 := by
  simp [fitsInt32]

theorem toInt32_eq_ok {x y : ℤ} : toInt32 x = .ok y ↔ fitsInt32 x = true ∧ x = y := by
  rw [toInt32, ensure_bind_eq_ok, pure_eq_ok]

theorem toInt64_eq_ok {x y : ℤ} : toInt64 x = .ok y ↔ (-2 ^ 63 ≤ x ∧ x < 2 ^ 63) ∧ x = y := by
  rw [toInt64, ensure_bind_eq_ok, pure_eq_ok, fitsInt64_iff]

theorem toInt64_eq {x : ℤ} (hlow : -2 ^ 63 ≤ x) (hhigh : x < 2 ^ 63) : toInt64 x = .ok x :=
  toInt64_eq_ok.mpr ⟨⟨hlow, hhigh⟩, rfl⟩

theorem toUInt32_eq {n : ℕ} (h : n < 2 ^ 32) : toUInt32 n = .ok n := by
  rw [toUInt32, ensure_bind_eq_ok]
  exact ⟨by simpa using by exact_mod_cast h, rfl⟩

theorem div_eq {a b : ℕ} (h : b ≠ 0) : div a b = .ok (a / b) := by
  rw [div, ensure_bind_eq_ok]
  exact ⟨by simpa using h, rfl⟩

/-! ## Sums -/

/-- The sum of a list, term by term, in a signed 64-bit variable. -/
def sumInt64 (start : ℤ) (l : List ℤ) : Arith ℤ := l.foldlM (fun s x => toInt64 (s + x)) start

/-- **A sum of terms that are not negative fits exactly where its total does.** -/
theorem sumInt64_eq_ok {start : ℤ} {l : List ℤ} (hstart : 0 ≤ start) (hl : ∀ x ∈ l, 0 ≤ x) {n : ℤ} :
    sumInt64 start l = .ok n ↔ start + l.sum = n ∧ (l ≠ [] → start + l.sum < 2 ^ 63) := by
  induction l generalizing start with
  | nil => simp [sumInt64]
  | cons x l ih =>
    have hx : 0 ≤ x := hl x List.mem_cons_self
    have hrest : 0 ≤ l.sum := List.sum_nonneg fun y hy => hl y (List.mem_cons_of_mem _ hy)
    have hnext := ih (add_nonneg hstart hx) fun y hy => hl y (List.mem_cons_of_mem _ hy)
    rw [sumInt64, foldlM_cons_eq_ok]
    constructor
    · rintro ⟨s, hs, htail⟩
      obtain ⟨⟨-, hfit⟩, rfl⟩ := toInt64_eq_ok.mp hs
      obtain ⟨htotal, hbound⟩ := hnext.mp htail
      refine ⟨by rw [List.sum_cons]; omega, fun _ => ?_⟩
      by_cases hnil : l = []
      · simpa [hnil] using hfit
      · rw [List.sum_cons]
        have := hbound hnil
        omega
    · rintro ⟨htotal, hbound⟩
      have hfit := hbound (List.cons_ne_nil x l)
      rw [List.sum_cons] at htotal hfit
      exact ⟨start + x, toInt64_eq (by omega) (by omega), hnext.mpr ⟨by omega, fun _ => by omega⟩⟩

end Machine
