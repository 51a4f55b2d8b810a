import FoxCoin.Lib.Words

/-! # Unsigned integers of a fixed width

`uint256` and `uint160` are arrays of words of 32 bits, with operators that loop over the words. The
operators agree with the arithmetic of numbers modulo the width. -/

namespace FoxCoin

open Words

/-- `base_uint<BITS>` of `W` words. -/
structure BaseUint (W : ℕ) where
  pn : List UInt32
  width : pn.length = W

namespace BaseUint

variable {W : ℕ}

/-- The number that is represented. -/
def toNat (a : BaseUint W) : ℕ := value a.pn

/-! ## The operators -/

/-- `operator!`. -/
def isZero (a : BaseUint W) : Bool := a.pn.all fun p => p == 0

/-- `operator~`. -/
def compl (a : BaseUint W) : BaseUint W := ⟨a.pn.map fun p => ~~~p, by rw [List.length_map, a.width]⟩

/-- The loop of `operator++`, which goes on while the word becomes zero and another one follows. -/
def incLoop : List UInt32 → List UInt32
  | [] => []
  | p :: pn => if p + 1 = 0 then (p + 1) :: incLoop pn else (p + 1) :: pn

theorem length_incLoop (pn : List UInt32) : (incLoop pn).length = pn.length := by
  induction pn with
  | nil => rfl
  | cons p pn ih =>
    rw [incLoop]
    split_ifs
    · rw [List.length_cons, List.length_cons, ih]
    · rfl

/-- The prefix `operator++`. -/
def preInc (a : BaseUint W) : BaseUint W := ⟨incLoop a.pn, by rw [length_incLoop, a.width]⟩

/-- The postfix `operator++`: what it returns, and `*this` after it. -/
def postInc (a : BaseUint W) : BaseUint W × BaseUint W := (a, a.preInc)

/-- The loop of `operator--`, which goes on while the word becomes `-1` and another one follows. -/
def decLoop : List UInt32 → List UInt32
  | [] => []
  | p :: pn => if p - 1 = 0xffffffff then (p - 1) :: decLoop pn else (p - 1) :: pn

theorem length_decLoop (pn : List UInt32) : (decLoop pn).length = pn.length := by
  induction pn with
  | nil => rfl
  | cons p pn ih =>
    rw [decLoop]
    split_ifs
    · rw [List.length_cons, List.length_cons, ih]
    · rfl

/-- The prefix `operator--`. -/
def preDec (a : BaseUint W) : BaseUint W := ⟨decLoop a.pn, by rw [length_decLoop, a.width]⟩

/-- The postfix `operator--`: what it returns, and `*this` after it. -/
def postDec (a : BaseUint W) : BaseUint W × BaseUint W := (a, a.preDec)

/-- The unary `operator-`. -/
def neg (a : BaseUint W) : BaseUint W := a.compl.postInc.2

/-- The loop of `operator+=`. -/
def addLoop : UInt64 → List UInt32 → List UInt32 → List UInt32
  | carry, p :: pn, q :: bpn =>
    let n : UInt64 := carry + p.toUInt64 + q.toUInt64
    (n &&& 0xffffffff).toUInt32 :: addLoop (n >>> 32) pn bpn
  | _, _, _ => []

theorem length_addLoop (carry : UInt64) {pn bpn : List UInt32} (h : pn.length = bpn.length) :
    (addLoop carry pn bpn).length = pn.length := by
  induction pn generalizing carry bpn with
  | nil => rfl
  | cons p pn ih =>
    cases bpn with
    | nil => cases h
    | cons q bpn => rw [addLoop, List.length_cons, List.length_cons, ih _ (Nat.succ_inj.mp h)]

/-- `operator+=`. -/
def addAssign (a b : BaseUint W) : BaseUint W :=
  ⟨addLoop 0 a.pn b.pn, by rw [length_addLoop 0 (a.width.trans b.width.symm), a.width]⟩

/-- `operator-=`. -/
def subAssign (a b : BaseUint W) : BaseUint W := a.addAssign b.neg

/-- `operator=(uint64)`: the two low words, and zeros. -/
def assign64 (W : ℕ) (b : UInt64) : BaseUint W :=
  ⟨([b.toUInt32, (b >>> 32).toUInt32] ++ List.replicate (W - 2) 0).take W, by
    rw [List.length_take, List.length_append, List.length_replicate]
    simp only [List.length_cons, List.length_nil]
    omega⟩

/-- `operator+=(uint64)`. -/
def addAssign64 (a : BaseUint W) (b64 : UInt64) : BaseUint W := a.addAssign (assign64 W b64)

/-- `operator-=(uint64)`. -/
def subAssign64 (a : BaseUint W) (b64 : UInt64) : BaseUint W := a.addAssign (assign64 W b64).neg

/-- `pn[j] |= x`. -/
def orAt (pn : List UInt32) (j : ℕ) (x : UInt32) : List UInt32 := pn.set j (pn.getD j 0 ||| x)

/-- A round of the loop of `operator<<=`. -/
def shlRound (W : ℕ) (a : List UInt32) (k : ℕ) (shift : UInt32) (pn : List UInt32) (i : ℕ) :
    List UInt32 :=
  let pn := if i + k + 1 < W ∧ shift ≠ 0 then orAt pn (i + k + 1) (a.getD i 0 >>> (32 - shift)) else pn
  if i + k < W then orAt pn (i + k) (a.getD i 0 <<< shift) else pn

/-- A round of the loop of `operator>>=`. -/
def shrRound (a : List UInt32) (k : ℕ) (shift : UInt32) (pn : List UInt32) (i : ℕ) : List UInt32 :=
  let pn := if k + 1 ≤ i ∧ shift ≠ 0 then orAt pn (i - k - 1) (a.getD i 0 <<< (32 - shift)) else pn
  if k ≤ i then orAt pn (i - k) (a.getD i 0 >>> shift) else pn

theorem length_orAt (pn : List UInt32) (j : ℕ) (x : UInt32) : (orAt pn j x).length = pn.length :=
  List.length_set

theorem length_ite_orAt (c : Prop) [Decidable c] (pn : List UInt32) (i : ℕ) (x : UInt32) :
    (if c then orAt pn i x else pn).length = pn.length := by
  split_ifs
  · exact length_orAt _ _ _
  · rfl

theorem length_foldl {round : List UInt32 → ℕ → List UInt32}
    (hround : ∀ pn i, (round pn i).length = pn.length) (is : List ℕ) (pn : List UInt32) :
    (is.foldl round pn).length = pn.length := by
  induction is generalizing pn with
  | nil => rfl
  | cons i is ih => rw [List.foldl_cons, ih, hround]

theorem length_shlRound (a : List UInt32) (k : ℕ) (shift : UInt32) (pn : List UInt32) (i : ℕ) :
    (shlRound W a k shift pn i).length = pn.length := by
  rw [shlRound, length_ite_orAt, length_ite_orAt]

theorem length_shrRound (a : List UInt32) (k : ℕ) (shift : UInt32) (pn : List UInt32) (i : ℕ) :
    (shrRound a k shift pn i).length = pn.length := by
  rw [shrRound, length_ite_orAt, length_ite_orAt]

/-- `operator<<=`. -/
def shlAssign (a : BaseUint W) (shift : UInt32) : BaseUint W :=
  ⟨(List.range W).foldl (shlRound W a.pn (shift / 32).toNat (shift % 32)) (List.replicate W 0), by
    rw [length_foldl (length_shlRound _ _ _), List.length_replicate]⟩

/-- `operator>>=`. -/
def shrAssign (a : BaseUint W) (shift : UInt32) : BaseUint W :=
  ⟨(List.range W).foldl (shrRound a.pn (shift / 32).toNat (shift % 32)) (List.replicate W 0), by
    rw [length_foldl (length_shrRound _ _ _), List.length_replicate]⟩

/-- The loop of the comparisons over the words from the highest one down: the result at the first
words that pass one of the tests, and at the end. -/
def compareLoop (isTrue isFalse : UInt32 → UInt32 → Bool) (atEnd : Bool) :
    List UInt32 → List UInt32 → Bool
  | p :: pn, q :: bpn =>
    if isTrue p q then true
    else if isFalse p q then false
    else compareLoop isTrue isFalse atEnd pn bpn
  | _, _ => atEnd

/-- `operator<`. -/
def lt (a b : BaseUint W) : Bool :=
  compareLoop (fun p q => decide (p < q)) (fun p q => decide (p > q)) false a.pn.reverse b.pn.reverse

/-- `operator<=`. -/
def le (a b : BaseUint W) : Bool :=
  compareLoop (fun p q => decide (p < q)) (fun p q => decide (p > q)) true a.pn.reverse b.pn.reverse

/-- `operator>`. -/
def gt (a b : BaseUint W) : Bool :=
  compareLoop (fun p q => decide (p > q)) (fun p q => decide (p < q)) false a.pn.reverse b.pn.reverse

/-- `operator>=`. -/
def ge (a b : BaseUint W) : Bool :=
  compareLoop (fun p q => decide (p > q)) (fun p q => decide (p < q)) true a.pn.reverse b.pn.reverse

/-- The loop of `operator==`. -/
def eqLoop : List UInt32 → List UInt32 → Bool
  | p :: pn, q :: bpn => if p != q then false else eqLoop pn bpn
  | _, _ => true

/-- `operator==`. -/
def eq (a b : BaseUint W) : Bool := eqLoop a.pn b.pn

/-- `operator!=`. -/
def ne (a b : BaseUint W) : Bool := !a.eq b

/-- `operator==` with a `uint64`. -/
def eq64 (a : BaseUint W) (b : UInt64) : Bool :=
  if a.pn.getD 0 0 != b.toUInt32 then false
  else if a.pn.getD 1 0 != (b >>> 32).toUInt32 then false
  else (a.pn.drop 2).all fun p => p == 0

/-- `operator!=` with a `uint64`. -/
def ne64 (a : BaseUint W) (b : UInt64) : Bool := !a.eq64 b

/-- `operator+`. -/
def add (a b : BaseUint W) : BaseUint W := a.addAssign b

/-- The binary `operator-`. -/
def sub (a b : BaseUint W) : BaseUint W := a.subAssign b

/-- `operator<<`. -/
def shl (a : BaseUint W) (shift : UInt32) : BaseUint W := a.shlAssign shift

/-- `operator>>`. -/
def shr (a : BaseUint W) (shift : UInt32) : BaseUint W := a.shrAssign shift

/-! ## Numbers that are represented -/

theorem toNat_lt (a : BaseUint W) : a.toNat < modulus W := by
  have h := value_lt a.pn
  rwa [a.width] at h

/-- A number is represented in one way. -/
theorem toNat_injective {a b : BaseUint W} (h : a.toNat = b.toNat) : a = b := by
  obtain ⟨pn, hpn⟩ := a
  obtain ⟨bpn, hbpn⟩ := b
  obtain rfl : pn = bpn := value_injective (hpn.trans hbpn.symm) h
  rfl

theorem exists_toNat {n : ℕ} (h : n < modulus W) : ∃ a : BaseUint W, a.toNat = n := by
  obtain ⟨pn, hlen, hvalue⟩ := exists_value h
  exact ⟨⟨pn, hlen⟩, hvalue⟩

/-! ## Addition -/

theorem value_incLoop (pn : List UInt32) :
    value (incLoop pn) = (value pn + 1) % modulus pn.length := by
  induction pn with
  | nil => rfl
  | cons p pn ih =>
    have hp := p.toNat_lt
    have hadd : (p + 1).toNat = (p.toNat + 1) % 2 ^ 32 := UInt32.toNat_add p 1
    rw [incLoop, List.length_cons, modulus_succ, value]
    split_ifs with hzero
    · -- the carry goes on to the next word
      rw [hzero, UInt32.toNat_zero] at hadd
      have hsum : 2 ^ 32 * value pn + p.toNat + 1 = 2 ^ 32 * (value pn + 1) := by omega
      rw [hzero, value, ih, hsum, Nat.mul_mod_mul_left, UInt32.toNat_zero, Nat.add_zero]
    · have hne : (p + 1).toNat ≠ 0 := fun h => hzero (UInt32.toNat_inj.mp h)
      have hlt : p.toNat + 1 < 2 ^ 32 := by
        by_contra hge
        obtain hfull : p.toNat + 1 = 2 ^ 32 := by omega
        rw [hadd, hfull] at hne
        exact hne (Nat.mod_self _)
      rw [Nat.mod_eq_of_lt hlt] at hadd
      have hpn := value_lt pn
      rw [value, hadd, Nat.mod_eq_of_lt (by omega), Nat.add_assoc]

theorem value_decLoop (pn : List UInt32) :
    value (decLoop pn) = (value pn + (modulus pn.length - 1)) % modulus pn.length := by
  induction pn with
  | nil => rfl
  | cons p pn ih =>
    have hp := p.toNat_lt
    have hpos := modulus_pos pn.length
    have hsub : (p - 1).toNat = (2 ^ 32 - 1 + p.toNat) % 2 ^ 32 := UInt32.toNat_sub p 1
    have hfull : (p - 1 = 0xffffffff) ↔ p.toNat = 0 := by
      rw [← UInt32.toNat_inj, hsub]
      show _ = 2 ^ 32 - 1 ↔ _
      omega
    rw [decLoop, List.length_cons, modulus_succ, value]
    split_ifs with hborrow
    · -- the borrow goes on to the next word
      have hzero := hfull.mp hborrow
      have hsum : 2 ^ 32 * value pn + p.toNat + (2 ^ 32 * modulus pn.length - 1) =
          2 ^ 32 * (value pn + (modulus pn.length - 1)) + (2 ^ 32 - 1) := by
        rw [hzero]
        omega
      rw [hborrow, value, ih, hsum, mul_add_mod (by decide)]
      rfl
    · have hne := mt hfull.mpr hborrow
      have hlow : (p - 1).toNat = p.toNat - 1 := by omega
      have hpn := value_lt pn
      have hsum : 2 ^ 32 * value pn + p.toNat + (2 ^ 32 * modulus pn.length - 1) =
          2 ^ 32 * value pn + (p.toNat - 1) + 2 ^ 32 * modulus pn.length := by omega
      rw [value, hlow, hsum, Nat.add_mod_right, Nat.mod_eq_of_lt (by omega)]

/-- **The loop of the addition** carries from word to word. -/
theorem value_addLoop {pn bpn : List UInt32} (h : pn.length = bpn.length) {carry : UInt64}
    (hcarry : carry.toNat ≤ 1) :
    value (addLoop carry pn bpn) = (carry.toNat + value pn + value bpn) % modulus pn.length := by
  induction pn generalizing carry bpn with
  | nil => simp [addLoop, value, Nat.mod_one]
  | cons p pn ih =>
    cases bpn with
    | nil => cases h
    | cons q bpn =>
      have hp := p.toNat_lt
      have hq := q.toNat_lt
      have hn : (carry + p.toUInt64 + q.toUInt64).toNat = carry.toNat + p.toNat + q.toNat := by
        rw [UInt64.toNat_add, UInt64.toNat_add, UInt32.toNat_toUInt64, UInt32.toNat_toUInt64]
        omega
      have hlow : ((carry + p.toUInt64 + q.toUInt64) &&& 0xffffffff).toUInt32.toNat =
          (carry.toNat + p.toNat + q.toNat) % 2 ^ 32 := by
        rw [UInt64.toNat_toUInt32, UInt64.toNat_and, hn]
        show (_ &&& 2 ^ 32 - 1) % 2 ^ 32 = _
        rw [Nat.and_two_pow_sub_one_eq_mod, Nat.mod_mod]
      have hhigh : ((carry + p.toUInt64 + q.toUInt64) >>> 32).toNat =
          (carry.toNat + p.toNat + q.toNat) / 2 ^ 32 := by
        rw [UInt64.toNat_shiftRight, hn, Nat.shiftRight_eq_div_pow]
        rfl
      -- the low word stays here, and the carry is at most one again
      have hsum : carry.toNat + value (p :: pn) + value (q :: bpn) =
          2 ^ 32 * ((carry.toNat + p.toNat + q.toNat) / 2 ^ 32 + value pn + value bpn) +
            (carry.toNat + p.toNat + q.toNat) % 2 ^ 32 := by
        rw [value, value]
        omega
      rw [addLoop, value, hlow, ih (Nat.succ_inj.mp h) (by rw [hhigh]; omega), hhigh, hsum,
        List.length_cons, modulus_succ, mul_add_mod (Nat.mod_lt _ (by decide))]

/-- The sum modulo the width. -/
theorem toNat_addAssign (a b : BaseUint W) :
    (a.addAssign b).toNat = (a.toNat + b.toNat) % modulus W := by
  have h := value_addLoop (a.width.trans b.width.symm) (show UInt64.toNat 0 ≤ 1 by decide)
  rw [a.width, UInt64.toNat_zero, Nat.zero_add] at h
  exact h

theorem toNat_preInc (a : BaseUint W) : a.preInc.toNat = (a.toNat + 1) % modulus W := by
  have h := value_incLoop a.pn
  rwa [a.width] at h

theorem toNat_preDec (a : BaseUint W) :
    a.preDec.toNat = (a.toNat + (modulus W - 1)) % modulus W := by
  have h := value_decLoop a.pn
  rwa [a.width] at h

/-- The two's complement. -/
theorem toNat_neg (a : BaseUint W) : a.neg.toNat = (modulus W - a.toNat) % modulus W := by
  have hcompl : a.compl.toNat = modulus W - 1 - a.toNat := by
    have h := value_map_not a.pn
    rwa [a.width] at h
  have hlt := a.toNat_lt
  rw [neg, postInc, toNat_preInc, hcompl]
  congr 1
  omega

theorem toNat_assign64 (h : 2 ≤ W) (b : UInt64) : (assign64 W b).toNat = b.toNat := by
  have hb := b.toNat_lt
  have hlow : b.toUInt32.toNat = b.toNat % 2 ^ 32 := UInt64.toNat_toUInt32 b
  have hhigh : (b >>> 32).toUInt32.toNat = b.toNat / 2 ^ 32 := by
    rw [UInt64.toNat_toUInt32, UInt64.toNat_shiftRight, Nat.shiftRight_eq_div_pow,
      show UInt64.toNat 32 % 64 = 32 from rfl]
    exact Nat.mod_eq_of_lt (by omega)
  rw [toNat, assign64]
  simp only
  rw [List.take_of_length_le (by simp; omega), List.cons_append, List.cons_append, List.nil_append,
    value, value, value_zeros, hlow, hhigh]
  omega

/-! ## Shifts -/

theorem getD_orAt (pn : List UInt32) (i j : ℕ) (x : UInt32) :
    (orAt pn i x).getD j 0 = if i = j ∧ i < pn.length then pn.getD j 0 ||| x else pn.getD j 0 := by
  rw [orAt, List.getD_eq_getElem?_getD, List.getElem?_set]
  by_cases hij : i = j
  · subst hij
    by_cases hlt : i < pn.length
    · rw [if_pos rfl, if_pos hlt, if_pos ⟨rfl, hlt⟩]
      rfl
    · rw [if_pos rfl, if_neg hlt, if_neg (fun h => hlt h.2), List.getD_eq_default _ _ (not_lt.mp hlt)]
      rfl
  · rw [if_neg hij, if_neg (fun h => hij h.1), List.getD_eq_getElem?_getD]

/-- A word that is changed under a condition. -/
theorem getD_ite_orAt {pn : List UInt32} {c c' : Prop} [Decidable c] [Decidable c'] {i j : ℕ}
    (x : UInt32) (h : c' ↔ c ∧ i = j ∧ i < pn.length) :
    (if c then orAt pn i x else pn).getD j 0 = pn.getD j 0 ||| (if c' then x else 0) := by
  by_cases hc : c
  · rw [if_pos hc, getD_orAt]
    by_cases hij : i = j ∧ i < pn.length
    · rw [if_pos hij, if_pos (h.mpr ⟨hc, hij⟩)]
    · rw [if_neg hij, if_neg (fun hc' => hij (h.mp hc').2), UInt32.or_zero]
  · rw [if_neg hc, if_neg (fun hc' => hc (h.mp hc').1), UInt32.or_zero]

/-- The bits that rounds add to words: a loop that starts with zeros collects them. -/
theorem testBit_foldl {round : List UInt32 → ℕ → List UInt32} {added : ℕ → ℕ → UInt32}
    (hlen : ∀ pn i, (round pn i).length = pn.length)
    (hround : ∀ pn i j, pn.length = W → i < W → j < W →
      (round pn i).getD j 0 = pn.getD j 0 ||| added i j) {t : ℕ} (ht : t ≤ W) {j : ℕ} (hj : j < W)
    (b : ℕ) :
    (((List.range t).foldl round (List.replicate W 0)).getD j 0).toNat.testBit b = true ↔
      ∃ i < t, (added i j).toNat.testBit b = true := by
  induction t with
  | zero => simp [hj]
  | succ t ih =>
    have hwidth : ((List.range t).foldl round (List.replicate W 0)).length = W := by
      rw [length_foldl hlen, List.length_replicate]
    rw [List.range_succ, List.foldl_append, List.foldl_cons, List.foldl_nil,
      hround _ t j hwidth ht hj, UInt32.toNat_or, Nat.testBit_or, Bool.or_eq_true,
      ih (Nat.le_of_succ_le ht)]
    simp only [Nat.lt_succ_iff_lt_or_eq, or_and_right, exists_or, exists_eq_left]

/-- What a round of `operator<<=` adds to a word. -/
def shlAdded (a : List UInt32) (k : ℕ) (shift : UInt32) (i j : ℕ) : UInt32 :=
  (if i + k + 1 = j ∧ shift ≠ 0 then a.getD i 0 >>> (32 - shift) else 0) |||
    (if i + k = j then a.getD i 0 <<< shift else 0)

theorem getD_shlRound {a pn : List UInt32} {k : ℕ} {shift : UInt32} {i j : ℕ} (hlen : pn.length = W)
    (hj : j < W) :
    (shlRound W a k shift pn i).getD j 0 = pn.getD j 0 ||| shlAdded a k shift i j := by
  have hhigh : i + k + 1 = j ∧ shift ≠ 0 ↔
      (i + k + 1 < W ∧ shift ≠ 0) ∧ i + k + 1 = j ∧ i + k + 1 < pn.length :=
    ⟨fun ⟨hij, hne⟩ => ⟨⟨by omega, hne⟩, hij, by omega⟩, fun ⟨⟨_, hne⟩, hij, _⟩ => ⟨hij, hne⟩⟩
  rw [shlRound, shlAdded, ← UInt32.or_assoc, ← getD_ite_orAt _ hhigh]
  refine getD_ite_orAt _ ?_
  rw [length_ite_orAt]
  omega

/-- What a round of `operator>>=` adds to a word. -/
def shrAdded (a : List UInt32) (k : ℕ) (shift : UInt32) (i j : ℕ) : UInt32 :=
  (if j + k + 1 = i ∧ shift ≠ 0 then a.getD i 0 <<< (32 - shift) else 0) |||
    (if j + k = i then a.getD i 0 >>> shift else 0)

theorem getD_shrRound {a pn : List UInt32} {k : ℕ} {shift : UInt32} {i j : ℕ} (hlen : pn.length = W)
    (hi : i < W) :
    (shrRound a k shift pn i).getD j 0 = pn.getD j 0 ||| shrAdded a k shift i j := by
  have hlow : j + k + 1 = i ∧ shift ≠ 0 ↔
      (k + 1 ≤ i ∧ shift ≠ 0) ∧ i - k - 1 = j ∧ i - k - 1 < pn.length :=
    ⟨fun ⟨hij, hne⟩ => ⟨⟨by omega, hne⟩, by omega, by omega⟩,
      fun ⟨⟨hle, hne⟩, hij, _⟩ => ⟨by omega, hne⟩⟩
  rw [shrRound, shrAdded, ← UInt32.or_assoc, ← getD_ite_orAt _ hlow]
  refine getD_ite_orAt _ ?_
  rw [length_ite_orAt]
  omega

/-- The bits of two parts that a condition each adds. -/
theorem testBit_or_ite {c c' : Prop} [Decidable c] [Decidable c'] (x y : UInt32) (b : ℕ) :
    ((if c then x else 0) ||| (if c' then y else 0) : UInt32).toNat.testBit b = true ↔
      (c ∧ x.toNat.testBit b = true) ∨ (c' ∧ y.toNat.testBit b = true) := by
  rw [UInt32.toNat_or, Nat.testBit_or, Bool.or_eq_true]
  split_ifs <;> simp [*]

theorem testBit_shiftLeft (x shift : UInt32) {b : ℕ} (hshift : shift.toNat < 32) (hb : b < 32) :
    (x <<< shift).toNat.testBit b = true ↔
      shift.toNat ≤ b ∧ x.toNat.testBit (b - shift.toNat) = true := by
  rw [UInt32.toNat_shiftLeft, Nat.mod_eq_of_lt hshift, Nat.testBit_mod_two_pow,
    Nat.testBit_shiftLeft, Bool.and_eq_true, Bool.and_eq_true, decide_eq_true_iff,
    decide_eq_true_iff]
  exact and_iff_right hb

theorem testBit_shiftRight (x shift : UInt32) {b : ℕ} (hshift : shift.toNat < 32) :
    (x >>> shift).toNat.testBit b = x.toNat.testBit (shift.toNat + b) := by
  rw [UInt32.toNat_shiftRight, Nat.mod_eq_of_lt hshift, Nat.testBit_shiftRight]

/-- The count of a shift, in whole words and remaining bits. -/
theorem shift_parts (shift : UInt32) :
    32 * (shift / 32).toNat + (shift % 32).toNat = shift.toNat ∧ (shift % 32).toNat < 32 := by
  rw [UInt32.toNat_div, UInt32.toNat_mod]
  exact ⟨Nat.div_add_mod _ 32, Nat.mod_lt _ (by decide)⟩

theorem toNat_sub_shift {shift : UInt32} (hlt : shift.toNat < 32) (hne : shift ≠ 0) :
    (32 - shift).toNat = 32 - shift.toNat ∧ (32 - shift).toNat < 32 := by
  have hpos : shift.toNat ≠ 0 := fun h => hne (UInt32.toNat_inj.mp h)
  have hsub : (32 - shift).toNat = 32 - shift.toNat :=
    UInt32.toNat_sub_of_le 32 shift (UInt32.le_iff_toNat_le.mpr hlt.le)
  exact ⟨hsub, by omega⟩

/-- The bits of the words that the rounds of `operator<<=` add. -/
theorem exists_testBit_shlAdded {a : List UInt32} {k : ℕ} {shift : UInt32}
    (hshift : shift.toNat < 32) {j b : ℕ} (hj : j < W) (hb : b < 32) :
    (∃ i < W, (shlAdded a k shift i j).toNat.testBit b = true) ↔
      32 * k + shift.toNat ≤ 32 * j + b ∧
        (value a).testBit (32 * j + b - (32 * k + shift.toNat)) = true := by
  simp only [shlAdded, testBit_or_ite, testBit_shiftLeft _ shift hshift hb, testBit_value]
  constructor
  · rintro ⟨i, hi, ⟨⟨rfl, hne⟩, hbit⟩ | ⟨rfl, hle, hbit⟩⟩
    · -- the high bits of the word before
      obtain ⟨hsub, hlt⟩ := toNat_sub_shift hshift hne
      rw [testBit_shiftRight _ _ hlt, hsub] at hbit
      have hroom : 32 - shift.toNat + b < 32 := by
        by_contra hge
        rw [testBit_toNat_of_ge _ (not_lt.mp hge)] at hbit
        cases hbit
      have hdiv : (32 * (i + k + 1) + b - (32 * k + shift.toNat)) / 32 = i := by omega
      have hmod : (32 * (i + k + 1) + b - (32 * k + shift.toNat)) % 32 = 32 - shift.toNat + b := by
        omega
      rw [hdiv, hmod]
      exact ⟨by omega, hbit⟩
    · have hdiv : (32 * (i + k) + b - (32 * k + shift.toNat)) / 32 = i := by omega
      have hmod : (32 * (i + k) + b - (32 * k + shift.toNat)) % 32 = b - shift.toNat := by omega
      rw [hdiv, hmod]
      exact ⟨by omega, hbit⟩
  · rintro ⟨hle, hbit⟩
    refine ⟨(32 * j + b - (32 * k + shift.toNat)) / 32, by omega, ?_⟩
    rcases Nat.lt_or_ge b shift.toNat with hlow | hhigh
    · have hne : shift ≠ 0 := by
        rintro rfl
        exact Nat.not_lt_zero b hlow
      obtain ⟨hsub, hlt⟩ := toNat_sub_shift hshift hne
      have hmod : (32 * j + b - (32 * k + shift.toNat)) % 32 = 32 - shift.toNat + b := by omega
      refine Or.inl ⟨⟨by omega, hne⟩, ?_⟩
      rwa [testBit_shiftRight _ _ hlt, hsub, ← hmod]
    · have hmod : (32 * j + b - (32 * k + shift.toNat)) % 32 = b - shift.toNat := by omega
      refine Or.inr ⟨by omega, hhigh, ?_⟩
      rwa [← hmod]

/-- **Shifting to the left** multiplies by a power of two. -/
theorem toNat_shlAssign (a : BaseUint W) (shift : UInt32) :
    (a.shlAssign shift).toNat = a.toNat * 2 ^ shift.toNat % modulus W := by
  obtain ⟨hparts, hlt⟩ := shift_parts shift
  have hlen : (a.shlAssign shift).pn.length = W := (a.shlAssign shift).width
  refine value_eq_of_testBit ?_ fun j hj b hb => ?_
  · rw [hlen]
    exact Nat.mod_lt _ (modulus_pos W)
  rw [hlen] at hj
  have hroom : 32 * j + b < 32 * W := by omega
  rw [Bool.eq_iff_iff, shlAssign, testBit_foldl (length_shlRound _ _ _)
    (fun pn i j hpn _ hj => getD_shlRound hpn hj) le_rfl hj b,
    exists_testBit_shlAdded hlt hj hb, hparts, modulus, Nat.testBit_mod_two_pow,
    Nat.testBit_mul_two_pow, Bool.and_eq_true, Bool.and_eq_true, decide_eq_true_iff,
    decide_eq_true_iff, and_iff_right hroom]
  rfl

/-- The bits of the words that the rounds of `operator>>=` add. -/
theorem exists_testBit_shrAdded {a : List UInt32} (hlen : a.length = W) {k : ℕ} {shift : UInt32}
    (hshift : shift.toNat < 32) {j b : ℕ} (hb : b < 32) :
    (∃ i < W, (shrAdded a k shift i j).toNat.testBit b = true) ↔
      (value a).testBit (32 * k + shift.toNat + (32 * j + b)) = true := by
  simp only [shrAdded, testBit_or_ite, testBit_shiftRight _ shift hshift, testBit_value]
  constructor
  · rintro ⟨i, hi, ⟨⟨rfl, hne⟩, hbit⟩ | ⟨rfl, hbit⟩⟩
    · -- the low bits of the word after
      obtain ⟨hsub, hlt⟩ := toNat_sub_shift hshift hne
      obtain ⟨hle, hbit⟩ := (testBit_shiftLeft _ _ hlt hb).mp hbit
      rw [hsub] at hle hbit
      have hdiv : (32 * k + shift.toNat + (32 * j + b)) / 32 = j + k + 1 := by omega
      have hmod : (32 * k + shift.toNat + (32 * j + b)) % 32 = b - (32 - shift.toNat) := by omega
      rwa [hdiv, hmod]
    · have hroom : shift.toNat + b < 32 := by
        by_contra hge
        rw [testBit_toNat_of_ge _ (not_lt.mp hge)] at hbit
        cases hbit
      have hdiv : (32 * k + shift.toNat + (32 * j + b)) / 32 = j + k := by omega
      have hmod : (32 * k + shift.toNat + (32 * j + b)) % 32 = shift.toNat + b := by omega
      rwa [hdiv, hmod]
  · intro hbit
    have hi : (32 * k + shift.toNat + (32 * j + b)) / 32 < W := by
      -- beyond the last word there are no bits
      by_contra hge
      rw [List.getD_eq_default _ _ (by omega), UInt32.toNat_zero, Nat.zero_testBit] at hbit
      cases hbit
    refine ⟨_, hi, ?_⟩
    rcases Nat.lt_or_ge (shift.toNat + b) 32 with hlow | hhigh
    · have hmod : (32 * k + shift.toNat + (32 * j + b)) % 32 = shift.toNat + b := by omega
      refine Or.inr ⟨by omega, ?_⟩
      rwa [← hmod]
    · have hne : shift ≠ 0 := by
        rintro rfl
        rw [UInt32.toNat_zero] at hhigh
        omega
      obtain ⟨hsub, hlt⟩ := toNat_sub_shift hshift hne
      have hmod : (32 * k + shift.toNat + (32 * j + b)) % 32 = b - (32 - shift.toNat) := by omega
      refine Or.inl ⟨⟨by omega, hne⟩, (testBit_shiftLeft _ _ hlt hb).mpr ⟨by omega, ?_⟩⟩
      rwa [hsub, ← hmod]

/-- **Shifting to the right** divides by a power of two. -/
theorem toNat_shrAssign (a : BaseUint W) (shift : UInt32) :
    (a.shrAssign shift).toNat = a.toNat / 2 ^ shift.toNat := by
  obtain ⟨hparts, hlt⟩ := shift_parts shift
  have hlen : (a.shrAssign shift).pn.length = W := (a.shrAssign shift).width
  refine value_eq_of_testBit ?_ fun j hj b hb => ?_
  · rw [hlen]
    exact (Nat.div_le_self _ _).trans_lt a.toNat_lt
  rw [hlen] at hj
  rw [Bool.eq_iff_iff, shrAssign, testBit_foldl (length_shrRound _ _ _)
    (fun pn i j hpn hi _ => getD_shrRound hpn hi) le_rfl hj b,
    exists_testBit_shrAdded a.width hlt hb, hparts, Nat.testBit_div_two_pow]
  rw [toNat, Nat.add_comm]

/-! ## Comparisons -/

/-- The comparison with `<` over the words from the highest one down. -/
theorem compareLoop_lt {atEnd : Bool} {l l' : List UInt32} (hlen : l.length = l'.length) :
    compareLoop (fun p q => decide (p < q)) (fun p q => decide (p > q)) atEnd l l' =
      (decide (value l.reverse < value l'.reverse) ||
        (atEnd && decide (value l.reverse = value l'.reverse))) := by
  induction l generalizing l' with
  | nil =>
    obtain rfl := List.length_eq_zero_iff.mp hlen.symm
    simp [compareLoop]
  | cons p l ih =>
    cases l' with
    | nil => cases hlen
    | cons q l' =>
      have hlen' := Nat.succ_inj.mp hlen
      rw [compareLoop]
      -- the highest words decide unless they are equal
      rcases Nat.lt_trichotomy p.toNat q.toNat with hlt | hpq | hgt
      · have hword : p < q := UInt32.lt_iff_toNat_lt.mpr hlt
        have hvalue := value_reverse_lt hlen' hword
        rw [if_pos (decide_eq_true hword), decide_eq_true hvalue, Bool.true_or]
      · obtain rfl := UInt32.toNat_inj.mp hpq
        rw [ih hlen', value_reverse_cons, value_reverse_cons, hlen']
        simp
      · have hword : q < p := UInt32.lt_iff_toNat_lt.mpr hgt
        have hnot : ¬p < q := fun h => absurd (UInt32.lt_iff_toNat_lt.mp h) hgt.not_gt
        have hvalue := value_reverse_lt hlen'.symm hword
        rw [if_neg (by rw [decide_eq_true_iff]; exact hnot), if_pos (decide_eq_true hword),
          decide_eq_false hvalue.not_gt, decide_eq_false hvalue.ne', Bool.and_false, Bool.or_false]

/-- The comparison with `>` is the one with `<` of the operands the other way round. -/
theorem compareLoop_gt (atEnd : Bool) (l l' : List UInt32) :
    compareLoop (fun p q => decide (p > q)) (fun p q => decide (p < q)) atEnd l l' =
      compareLoop (fun p q => decide (p < q)) (fun p q => decide (p > q)) atEnd l' l := by
  induction l generalizing l' with
  | nil => cases l' <;> rfl
  | cons p l ih =>
    cases l' with
    | nil => rfl
    | cons q l' => rw [compareLoop, compareLoop, ih]

theorem lt_iff (a b : BaseUint W) : a.lt b = true ↔ a.toNat < b.toNat := by
  rw [lt, compareLoop_lt (by rw [List.length_reverse, List.length_reverse, a.width, b.width]),
    List.reverse_reverse, List.reverse_reverse, Bool.false_and, Bool.or_false, decide_eq_true_iff]
  rfl

theorem le_iff (a b : BaseUint W) : a.le b = true ↔ a.toNat ≤ b.toNat := by
  rw [le, compareLoop_lt (by rw [List.length_reverse, List.length_reverse, a.width, b.width]),
    List.reverse_reverse, List.reverse_reverse, Bool.true_and, Bool.or_eq_true, decide_eq_true_iff,
    decide_eq_true_iff, ← Nat.le_iff_lt_or_eq]
  rfl

theorem gt_iff (a b : BaseUint W) : a.gt b = true ↔ a.toNat > b.toNat := by
  rw [gt, compareLoop_gt]
  exact lt_iff b a

theorem ge_iff (a b : BaseUint W) : a.ge b = true ↔ a.toNat ≥ b.toNat := by
  rw [ge, compareLoop_gt]
  exact le_iff b a

theorem eqLoop_iff {l l' : List UInt32} (hlen : l.length = l'.length) :
    eqLoop l l' = true ↔ l = l' := by
  induction l generalizing l' with
  | nil =>
    obtain rfl := List.length_eq_zero_iff.mp hlen.symm
    exact iff_of_true rfl rfl
  | cons p l ih =>
    cases l' with
    | nil => cases hlen
    | cons q l' =>
      rw [eqLoop, List.cons.injEq, ← ih (Nat.succ_inj.mp hlen)]
      by_cases hpq : p = q <;> simp [hpq]

theorem eq_iff (a b : BaseUint W) : a.eq b = true ↔ a.toNat = b.toNat := by
  rw [eq, eqLoop_iff (a.width.trans b.width.symm)]
  exact ⟨fun h => congrArg value h, fun h => congrArg pn (toNat_injective h)⟩

/-- The comparison with a `uint64` is the one with the words that it is assigned to. -/
theorem eq64_iff (h : 2 ≤ W) (a : BaseUint W) (b : UInt64) : a.eq64 b = true ↔ a.toNat = b.toNat := by
  rw [← toNat_assign64 h b]
  have hwords : a.eq64 b = true ↔ a.pn = (assign64 W b).pn := by
    obtain ⟨l, hl⟩ := a
    rcases l with _ | ⟨p, _ | ⟨q, l⟩⟩
    · rw [List.length_nil] at hl
      omega
    · rw [List.length_singleton] at hl
      omega
    have hlen : l.length = W - 2 := by
      rw [List.length_cons, List.length_cons] at hl
      omega
    have hzeros : (l.all fun p => p == 0) = true ↔ l = List.replicate (W - 2) 0 := by
      rw [List.all_eq_true, List.eq_replicate_iff]
      simp [hlen]
    rw [eq64, assign64]
    simp only
    rw [List.take_of_length_le (by simp; omega)]
    simp only [List.getD_cons_zero, List.getD_cons_succ, List.drop_succ_cons, List.drop_zero,
      List.cons_append, List.nil_append, List.cons.injEq, ← hzeros]
    by_cases hp : p = b.toUInt32 <;> by_cases hq : q = (b >>> 32).toUInt32 <;> simp [hp, hq]
  rw [hwords]
  exact ⟨fun h => congrArg value h, fun h => congrArg BaseUint.pn (toNat_injective h)⟩

/-- `operator!` tells zero. -/
theorem isZero_iff (a : BaseUint W) : a.isZero = true ↔ a.toNat = 0 := by
  have hzeros : a.isZero = true ↔ a.pn = List.replicate W 0 := by
    rw [isZero, List.all_eq_true, List.eq_replicate_iff, a.width]
    simp
  rw [hzeros]
  constructor
  · intro h
    rw [toNat, h, value_zeros]
  · intro h
    refine value_injective (by rw [a.width, List.length_replicate]) ?_
    rw [value_zeros]
    exact h

/-! ## Differences -/

/-- The difference of two numbers, as an integer modulo the width. -/
theorem sub_emod {x y M : ℕ} (hy : y < M) : ((x + (M - y) % M) % M : ℕ) = ((x : ℤ) - y) % M := by
  rw [Nat.add_mod_mod, Int.natCast_mod, Nat.cast_add, Nat.cast_sub hy.le,
    show (x : ℤ) + (M - y) = x - y + M by ring, Int.add_emod_right]

theorem toNat_subAssign (a b : BaseUint W) :
    ((a.subAssign b).toNat : ℤ) = (a.toNat - b.toNat) % modulus W := by
  rw [subAssign, toNat_addAssign, toNat_neg]
  exact sub_emod b.toNat_lt

theorem toNat_neg_emod (a : BaseUint W) : (a.neg.toNat : ℤ) = -a.toNat % modulus W := by
  have h := sub_emod (x := 0) a.toNat_lt
  rw [Nat.zero_add, Nat.mod_mod, Nat.cast_zero, Int.zero_sub] at h
  rw [toNat_neg, h]

theorem toNat_preDec_emod (a : BaseUint W) : (a.preDec.toNat : ℤ) = (a.toNat - 1) % modulus W := by
  have hpos := modulus_pos W
  rw [toNat_preDec, Int.natCast_mod, Nat.cast_add, Nat.cast_sub hpos,
    show (a.toNat : ℤ) + (modulus W - (1 : ℕ)) = a.toNat - 1 + modulus W by push_cast; ring,
    Int.add_emod_right]

/-! ## The agreement -/

/-- The operators on `W` words agree with the arithmetic of the numbers below `M`: each number
below `M` is represented once, and the operators compute on the numbers modulo `M`. -/
structure AgreesModulo (W M : ℕ) : Prop where
  toNat_lt (a : BaseUint W) : a.toNat < M
  toNat_injective (a b : BaseUint W) : a.toNat = b.toNat → a = b
  exists_toNat (n : ℕ) : n < M → ∃ a : BaseUint W, a.toNat = n
  assign64 (b : UInt64) : (BaseUint.assign64 W b).toNat = b.toNat
  add (a b : BaseUint W) : (a.add b).toNat = (a.toNat + b.toNat) % M
  addAssign (a b : BaseUint W) : (a.addAssign b).toNat = (a.toNat + b.toNat) % M
  addAssign64 (a : BaseUint W) (b : UInt64) :
    (a.addAssign64 b).toNat = (a.toNat + b.toNat) % M
  sub (a b : BaseUint W) : ((a.sub b).toNat : ℤ) = (a.toNat - b.toNat) % M
  subAssign (a b : BaseUint W) : ((a.subAssign b).toNat : ℤ) = (a.toNat - b.toNat) % M
  subAssign64 (a : BaseUint W) (b : UInt64) :
    ((a.subAssign64 b).toNat : ℤ) = (a.toNat - b.toNat) % M
  neg (a : BaseUint W) : (a.neg.toNat : ℤ) = -a.toNat % M
  preInc (a : BaseUint W) : a.preInc.toNat = (a.toNat + 1) % M
  postInc (a : BaseUint W) : a.postInc.1 = a ∧ a.postInc.2.toNat = (a.toNat + 1) % M
  preDec (a : BaseUint W) : (a.preDec.toNat : ℤ) = (a.toNat - 1) % M
  postDec (a : BaseUint W) : a.postDec.1 = a ∧ (a.postDec.2.toNat : ℤ) = (a.toNat - 1) % M
  shl (a : BaseUint W) (shift : UInt32) : (a.shl shift).toNat = a.toNat * 2 ^ shift.toNat % M
  shlAssign (a : BaseUint W) (shift : UInt32) :
    (a.shlAssign shift).toNat = a.toNat * 2 ^ shift.toNat % M
  shr (a : BaseUint W) (shift : UInt32) : (a.shr shift).toNat = a.toNat / 2 ^ shift.toNat
  shrAssign (a : BaseUint W) (shift : UInt32) :
    (a.shrAssign shift).toNat = a.toNat / 2 ^ shift.toNat
  lt (a b : BaseUint W) : a.lt b = true ↔ a.toNat < b.toNat
  le (a b : BaseUint W) : a.le b = true ↔ a.toNat ≤ b.toNat
  gt (a b : BaseUint W) : a.gt b = true ↔ a.toNat > b.toNat
  ge (a b : BaseUint W) : a.ge b = true ↔ a.toNat ≥ b.toNat
  eq (a b : BaseUint W) : a.eq b = true ↔ a.toNat = b.toNat
  ne (a b : BaseUint W) : a.ne b = true ↔ a.toNat ≠ b.toNat
  eq64 (a : BaseUint W) (b : UInt64) : a.eq64 b = true ↔ a.toNat = b.toNat
  ne64 (a : BaseUint W) (b : UInt64) : a.ne64 b = true ↔ a.toNat ≠ b.toNat
  isZero (a : BaseUint W) : a.isZero = true ↔ a.toNat = 0

/-- The operators agree at every width with room for a `uint64`. -/
theorem agreesModulo (h : 2 ≤ W) : AgreesModulo W (modulus W) where
  toNat_lt := toNat_lt
  toNat_injective _ _ := toNat_injective
  exists_toNat _ := exists_toNat
  assign64 := toNat_assign64 h
  add := toNat_addAssign
  addAssign := toNat_addAssign
  addAssign64 a b := by rw [addAssign64, toNat_addAssign, toNat_assign64 h]
  sub := toNat_subAssign
  subAssign := toNat_subAssign
  subAssign64 a b := by
    have hsub := toNat_subAssign a (BaseUint.assign64 W b)
    rwa [toNat_assign64 h] at hsub
  neg := toNat_neg_emod
  preInc := toNat_preInc
  postInc a := ⟨rfl, toNat_preInc a⟩
  preDec := toNat_preDec_emod
  postDec a := ⟨rfl, toNat_preDec_emod a⟩
  shl := toNat_shlAssign
  shlAssign := toNat_shlAssign
  shr := toNat_shrAssign
  shrAssign := toNat_shrAssign
  lt := lt_iff
  le := le_iff
  gt := gt_iff
  ge := ge_iff
  eq := eq_iff
  ne a b := by rw [BaseUint.ne, Bool.not_eq_true', ← Bool.not_eq_true, eq_iff]
  eq64 := eq64_iff h
  ne64 a b := by rw [BaseUint.ne64, Bool.not_eq_true', ← Bool.not_eq_true, eq64_iff h]
  isZero := isZero_iff

/-- **The operators of `uint256` and of `uint160`** agree with the arithmetic modulo `2 ^ 256` and
modulo `2 ^ 160`, for all operands and all counts of a shift. -/
theorem operators_agree : AgreesModulo 8 (2 ^ 256) ∧ AgreesModulo 5 (2 ^ 160) :=
  ⟨agreesModulo (by decide), agreesModulo (by decide)⟩

end BaseUint

end FoxCoin
