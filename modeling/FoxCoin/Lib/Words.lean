import Mathlib.Data.List.GetD
import Mathlib.Tactic

/-! # Numbers as words

A number of any width is a list of words of 32 bits, the lowest first. Its bits are those of its
words, and the words from the highest one down decide which of two numbers is less. -/

namespace Words

variable {l l' : List UInt32}

/-- The number that words stand for, the lowest first. -/
def value : List UInt32 → ℕ
  | [] => 0
  | p :: l => 2 ^ 32 * value l + p.toNat

/-- The numbers that a width of `w` words has room for. -/
def modulus (w : ℕ) : ℕ := 2 ^ (32 * w)

@[simp] theorem modulus_zero : modulus 0 = 1 := rfl

theorem modulus_succ (w : ℕ) : modulus (w + 1) = 2 ^ 32 * modulus w := by
  rw [modulus, modulus, ← pow_add]
  congr 1
  omega

theorem modulus_pos (w : ℕ) : 0 < modulus w := Nat.two_pow_pos _

theorem value_lt (l : List UInt32) : value l < modulus l.length := by
  induction l with
  | nil => exact Nat.one_pos
  | cons p l ih =>
    have hp := p.toNat_lt
    rw [value, List.length_cons, modulus_succ]
    omega

/-- Words of one length are determined by their number. -/
theorem value_injective (hlen : l.length = l'.length) (h : value l = value l') : l = l' := by
  induction l generalizing l' with
  | nil => exact (List.length_eq_zero_iff.mp hlen.symm).symm
  | cons p l ih =>
    cases l' with
    | nil => cases hlen
    | cons q l' =>
      have hp := p.toNat_lt
      have hq := q.toNat_lt
      rw [value, value] at h
      have hlow : p = q := UInt32.toNat_inj.mp (by omega)
      have hhigh : value l = value l' := by omega
      rw [hlow, ih (Nat.succ_inj.mp hlen) hhigh]

/-- Every number that fits has its words. -/
theorem exists_value {w n : ℕ} (h : n < modulus w) : ∃ l, l.length = w ∧ value l = n := by
  induction w generalizing n with
  | zero => exact ⟨[], rfl, by rw [modulus_zero] at h; rw [value]; omega⟩
  | succ w ih =>
    rw [modulus_succ] at h
    obtain ⟨l, hlen, hvalue⟩ := @ih (n / 2 ^ 32) (Nat.div_lt_of_lt_mul h)
    refine ⟨UInt32.ofNat n :: l, by rw [List.length_cons, hlen], ?_⟩
    rw [value, hvalue, UInt32.toNat_ofNat']
    exact Nat.div_add_mod n (2 ^ 32)

@[simp] theorem value_zeros (w : ℕ) : value (List.replicate w 0) = 0 := by
  induction w with
  | zero => rfl
  | succ w ih => rw [List.replicate_succ, value, ih]; rfl

/-- The remainder of a number goes through its words. -/
theorem mul_add_mod {r : ℕ} (h : r < 2 ^ 32) (x m : ℕ) :
    (2 ^ 32 * x + r) % (2 ^ 32 * m) = 2 ^ 32 * (x % m) + r := by
  rw [Nat.mod_mul, Nat.mul_add_mod, Nat.mod_eq_of_lt h, Nat.mul_add_div (by decide),
    Nat.div_eq_of_lt h, Nat.add_zero, Nat.add_comm]

/-- The complement of all words is the complement of the number. -/
theorem value_map_not (l : List UInt32) :
    value (l.map fun p => ~~~p) = modulus l.length - 1 - value l := by
  induction l with
  | nil => rfl
  | cons p l ih =>
    have hp := p.toNat_lt
    have hl := value_lt l
    have hnot : (~~~p).toNat = 2 ^ 32 - 1 - p.toNat := by
      rw [UInt32.toNat_not]
      rfl
    rw [List.map_cons, value, value, ih, hnot, List.length_cons, modulus_succ]
    omega

/-! ## Bits -/

/-- **The bits of a number are those of its words.** -/
theorem testBit_value (l : List UInt32) (n : ℕ) :
    (value l).testBit n = (l.getD (n / 32) 0).toNat.testBit (n % 32) := by
  induction l generalizing n with
  | nil => simp [value]
  | cons p l ih =>
    rw [value, Nat.testBit_two_pow_mul_add _ p.toNat_lt]
    rcases Nat.lt_or_ge n 32 with hlt | hge
    · rw [if_pos hlt, Nat.div_eq_of_lt hlt, Nat.mod_eq_of_lt hlt]
      rfl
    · obtain ⟨m, rfl⟩ := Nat.exists_eq_add_of_le' hge
      rw [if_neg (by omega), Nat.add_sub_cancel, ih, Nat.add_mod_right, Nat.add_div_right _ (by decide)]
      rfl

/-- A word has no more bits than its width. -/
theorem testBit_toNat_of_ge (p : UInt32) {i : ℕ} (h : 32 ≤ i) : p.toNat.testBit i = false :=
  Nat.testBit_lt_two_pow (p.toNat_lt.trans_le (Nat.pow_le_pow_right (by decide) h))

/-- Words stand for a number when all their bits are its bits. -/
theorem value_eq_of_testBit {n : ℕ} (hn : n < modulus l.length)
    (h : ∀ j < l.length, ∀ i < 32, (l.getD j 0).toNat.testBit i = n.testBit (32 * j + i)) :
    value l = n := by
  refine Nat.eq_of_testBit_eq fun k => ?_
  rw [testBit_value]
  rcases Nat.lt_or_ge (k / 32) l.length with hlt | hge
  · rw [h _ hlt _ (Nat.mod_lt k (by decide)), Nat.div_add_mod]
  · have hbelow : n < 2 ^ k := hn.trans_le (Nat.pow_le_pow_right (by decide) (by omega))
    rw [List.getD_eq_default _ _ hge, Nat.testBit_lt_two_pow hbelow]
    exact Nat.zero_testBit _

/-! ## The highest word -/

/-- The highest word of a number. -/
theorem value_reverse_cons (p : UInt32) (l : List UInt32) :
    value (p :: l).reverse = modulus l.length * p.toNat + value l.reverse := by
  have happend : ∀ l : List UInt32, value (l ++ [p]) = modulus l.length * p.toNat + value l := by
    intro l
    induction l with
    | nil => simp [value]
    | cons q l ih =>
      rw [List.cons_append, value, ih, value, List.length_cons, modulus_succ]
      ring
  rw [List.reverse_cons, happend, List.length_reverse]

/-- The number with the lower highest word is the lower one. -/
theorem value_reverse_lt {p q : UInt32} (hlen : l.length = l'.length) (h : p < q) :
    value (p :: l).reverse < value (q :: l').reverse := by
  have hlow := value_lt l.reverse
  rw [List.length_reverse] at hlow
  have hstep : modulus l.length * (p.toNat + 1) ≤ modulus l.length * q.toNat :=
    Nat.mul_le_mul_left _ (UInt32.lt_iff_toNat_lt.mp h)
  rw [value_reverse_cons, value_reverse_cons, ← hlen]
  rw [Nat.mul_add, Nat.mul_one] at hstep
  omega

end Words
