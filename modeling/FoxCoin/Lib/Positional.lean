import Mathlib.Data.List.TakeWhile
import Mathlib.Data.Nat.Digits.Lemmas
import Mathlib.Tactic

/-! # Numbers by their digits, the most significant first

Texts and byte strings are read from the most significant digit down. This file has the value of
such a list of digits, that a value has one list of each length, and the two ways to go from one
base to another: through the number, keeping the count of leading zeros, and digit by digit between
powers of two, with the bits that are left over. -/

namespace Positional

open Nat (ofDigits)

variable {b c : ℕ} {ds es : List ℕ}

/-! ## Values -/

/-- The number that a list of digits in base `b` writes, the most significant digit first. -/
def value (b : ℕ) (ds : List ℕ) : ℕ := ofDigits b ds.reverse

@[simp] theorem value_nil (b : ℕ) : value b [] = 0 := rfl

theorem value_snoc (b : ℕ) (ds : List ℕ) (d : ℕ) : value b (ds ++ [d]) = d + b * value b ds := by
  rw [value, List.reverse_append, List.reverse_singleton, List.singleton_append, Nat.ofDigits_cons,
    value]

theorem value_append (b : ℕ) (ds es : List ℕ) :
    value b (ds ++ es) = value b ds * b ^ es.length + value b es := by
  rw [value, List.reverse_append, Nat.ofDigits_append, List.length_reverse, value, value]
  ring

theorem value_singleton (b d : ℕ) : value b [d] = d := by
  rw [value, List.reverse_singleton, Nat.ofDigits_singleton]

/-- Reading digit by digit adds up the value. -/
theorem foldl_eq_value (b : ℕ) (ds : List ℕ) (n : ℕ) :
    ds.foldl (fun n d => b * n + d) n = n * b ^ ds.length + value b ds := by
  induction ds using List.reverseRecOn with
  | nil => simp
  | append_singleton ds d ih =>
    rw [List.foldl_append, ih, List.foldl_cons, List.foldl_nil, value_snoc, List.length_append,
      List.length_singleton, pow_succ]
    ring

theorem value_lt (hb : 1 < b) (hds : ∀ d ∈ ds, d < b) : value b ds < b ^ ds.length := by
  rw [value, ← List.length_reverse]
  exact Nat.ofDigits_lt_base_pow_length hb fun d hd => hds d (List.mem_reverse.mp hd)

/-- **A value has one list of digits of each length.** -/
theorem value_inj (hb : 1 < b) (hlen : ds.length = es.length) (hds : ∀ d ∈ ds, d < b)
    (hes : ∀ d ∈ es, d < b) (h : value b ds = value b es) : ds = es := by
  refine List.reverse_injective (Nat.ofDigits_inj_of_len_eq hb ?_ ?_ ?_ h)
  · rw [List.length_reverse, List.length_reverse, hlen]
  · exact fun d hd => hds d (List.mem_reverse.mp hd)
  · exact fun d hd => hes d (List.mem_reverse.mp hd)

theorem value_replicate_append (b k : ℕ) (ds : List ℕ) :
    value b (List.replicate k 0 ++ ds) = value b ds := by
  rw [value_append, value, List.reverse_replicate, Nat.ofDigits_replicate_zero, zero_mul, zero_add]

/-! ## Digits of a number -/

/-- The digits of a number, without leading zeros. -/
def digits (b n : ℕ) : List ℕ := (Nat.digits b n).reverse

theorem value_digits (b n : ℕ) : value b (digits b n) = n := by
  rw [value, digits, List.reverse_reverse, Nat.ofDigits_digits]

theorem digits_lt (hb : 1 < b) {n : ℕ} : ∀ d ∈ digits b n, d < b :=
  fun _ hd => Nat.digits_lt_base hb (List.mem_reverse.mp hd)

/-- The first digit of a number is not zero. -/
theorem head_digits_ne_zero (b n : ℕ) : ∀ d ∈ (digits b n).head?, d ≠ 0 := by
  intro d hd
  rw [digits, List.head?_reverse] at hd
  have hn : n ≠ 0 := by
    rintro rfl
    simp at hd
  have hlast := Nat.getLast_digit_ne_zero b hn
  rw [List.getLast?_eq_getLast_of_ne_nil (Nat.digits_ne_nil_iff_ne_zero.mpr hn), Option.mem_def,
    Option.some.injEq] at hd
  rwa [← hd]

/-- Digits that do not start with a zero are those of their value. -/
theorem digits_value (hb : 1 < b) (hds : ∀ d ∈ ds, d < b) (hhead : ∀ d ∈ ds.head?, d ≠ 0) :
    digits b (value b ds) = ds := by
  rw [digits, value, Nat.digits_ofDigits b hb ds.reverse, List.reverse_reverse]
  · exact fun d hd => hds d (List.mem_reverse.mp hd)
  · intro hne
    rw [List.getLast_reverse]
    exact hhead _ (List.head?_eq_some_head _)

/-! ## From one base to another -/

/-- How many zeros a list of digits starts with. -/
def leadingZeros (ds : List ℕ) : ℕ := (ds.takeWhile (· = 0)).length

/-- The digits in base `c` of the number that digits in base `b` write, with as many leading
zeros. -/
def rebase (b c : ℕ) (ds : List ℕ) : List ℕ :=
  List.replicate (leadingZeros ds) 0 ++ digits c (value b ds)

theorem replicate_leadingZeros (ds : List ℕ) :
    List.replicate (leadingZeros ds) 0 ++ ds.dropWhile (· = 0) = ds := by
  have htake : ds.takeWhile (· = 0) = List.replicate (leadingZeros ds) 0 := by
    refine List.eq_replicate_iff.mpr ⟨rfl, fun d hd => ?_⟩
    simpa using List.mem_takeWhile_imp hd
  rw [← htake, List.takeWhile_append_dropWhile]

theorem head_dropWhile_ne_zero (ds : List ℕ) : ∀ d ∈ (ds.dropWhile (· = 0)).head?, d ≠ 0 := by
  intro d hd
  have := List.head?_dropWhile_not (fun d => decide (d = 0)) ds
  rw [Option.mem_def] at hd
  rw [hd] at this
  simpa using this

theorem leadingZeros_replicate_append {k : ℕ} (hhead : ∀ d ∈ ds.head?, d ≠ 0) :
    leadingZeros (List.replicate k 0 ++ ds) = k := by
  have hnone : ds.takeWhile (· = 0) = [] := by
    cases ds with
    | nil => rfl
    | cons d ds =>
      have hd := hhead d rfl
      rw [List.takeWhile_cons_of_neg (by simpa using hd)]
  rw [leadingZeros, List.takeWhile_append_of_pos (by simp), hnone, List.append_nil,
    List.length_replicate]

theorem rebase_lt (hc : 1 < c) : ∀ d ∈ rebase b c ds, d < c := by
  intro d hd
  rcases List.mem_append.mp hd with hd | hd
  · rw [List.eq_of_mem_replicate hd]
    omega
  · exact digits_lt hc d hd

/-- **Going to another base and back** leaves the digits. -/
theorem rebase_rebase (hb : 1 < b) (hds : ∀ d ∈ ds, d < b) (c : ℕ) :
    rebase c b (rebase b c ds) = ds := by
  have hvalue : value b ds = value b (ds.dropWhile (· = 0)) := by
    conv_lhs => rw [← replicate_leadingZeros ds, value_replicate_append]
  rw [rebase, rebase, leadingZeros_replicate_append (head_digits_ne_zero c _),
    value_replicate_append, value_digits, hvalue,
    digits_value hb (fun d hd => hds d (List.dropWhile_subset _ hd)) (head_dropWhile_ne_zero ds),
    replicate_leadingZeros]

/-! ## Digit by digit, between powers of two -/

/-- **Digits of `w` bits have been read and digits of `v` bits written**, and `k` bits with the value
`acc` are left over. -/
structure Regroup (w v : ℕ) (ins outs : List ℕ) (k acc : ℕ) : Prop where
  bits : ins.length * w = outs.length * v + k
  value_eq : value (2 ^ w) ins = value (2 ^ v) outs * 2 ^ k + acc
  outs_lt : ∀ d ∈ outs, d < 2 ^ v
  acc_lt : acc < 2 ^ k

namespace Regroup

variable {w v k acc : ℕ} {ins outs outs' : List ℕ}

theorem start (w v : ℕ) : Regroup w v [] [] 0 0 :=
  ⟨by simp, by simp, by simp, by simp⟩

/-- A digit is read. -/
theorem read (h : Regroup w v ins outs k acc) {x : ℕ} (hx : x < 2 ^ w) :
    Regroup w v (ins ++ [x]) outs (k + w) (acc * 2 ^ w + x) := by
  refine ⟨?_, ?_, h.outs_lt, ?_⟩
  · rw [List.length_append, List.length_singleton, add_mul, one_mul, h.bits]
    ring
  · rw [value_snoc, h.value_eq, pow_add]
    ring
  · have hacc := h.acc_lt
    calc acc * 2 ^ w + x < acc * 2 ^ w + 2 ^ w := by omega
      _ = (acc + 1) * 2 ^ w := by ring
      _ ≤ 2 ^ k * 2 ^ w := Nat.mul_le_mul_right _ hacc
      _ = 2 ^ (k + w) := (pow_add 2 k w).symm

/-- A digit is written. -/
theorem write {l : ℕ} (h : Regroup w v ins outs (v + l) acc) :
    Regroup w v ins (outs ++ [acc / 2 ^ l]) l (acc % 2 ^ l) := by
  have hpos : 0 < 2 ^ l := Nat.two_pow_pos l
  have hdiv : acc / 2 ^ l < 2 ^ v := by
    rw [Nat.div_lt_iff_lt_mul hpos, ← pow_add]
    exact h.acc_lt
  refine ⟨?_, ?_, fun d hd => ?_, Nat.mod_lt _ hpos⟩
  · rw [List.length_append, List.length_singleton, h.bits]
    ring
  · rw [value_snoc, h.value_eq, pow_add]
    have := Nat.div_add_mod acc (2 ^ l)
    nlinarith
  · rcases List.mem_append.mp hd with hd | hd
    · exact h.outs_lt d hd
    · rw [List.mem_singleton.mp hd]
      exact hdiv

end Regroup

section Bits

variable {m l j x acc : ℕ}

/-- The upper bits of what is left over and a digit that is read, as shifts compute them. -/
theorem div_two_pow_eq_or (h : l + j = m) (hx : x < 2 ^ m) (acc : ℕ) :
    (acc * 2 ^ m + x) / 2 ^ l = acc <<< j ||| x >>> l := by
  have hpow : 2 ^ m = 2 ^ j * 2 ^ l := by rw [← pow_add, Nat.add_comm, h]
  have hlow : x / 2 ^ l < 2 ^ j := by
    rw [Nat.div_lt_iff_lt_mul (Nat.two_pow_pos l), ← hpow]
    exact hx
  rw [Nat.shiftLeft_eq, Nat.shiftRight_eq_div_pow, Nat.mul_comm acc (2 ^ j),
    ← Nat.two_pow_add_eq_or_of_lt hlow, hpow, ← mul_assoc, Nat.add_comm,
    Nat.add_mul_div_right _ _ (Nat.two_pow_pos l), Nat.add_comm, Nat.mul_comm acc]

/-- The lower bits are those of the digit. -/
theorem mod_two_pow_eq_and (h : l ≤ m) (x acc : ℕ) :
    (acc * 2 ^ m + x) % 2 ^ l = x &&& (2 ^ l - 1) := by
  obtain ⟨j, rfl⟩ := Nat.exists_eq_add_of_le h
  rw [Nat.and_two_pow_sub_one_eq_mod, pow_add, ← mul_assoc, Nat.mul_right_comm,
    Nat.mul_add_mod_self_right]

/-- The bits in the middle of a digit. -/
theorem and_div_two_pow (x i l : ℕ) : (x &&& (2 ^ (i + l) - 1)) / 2 ^ l = x >>> l &&& (2 ^ i - 1) := by
  rw [Nat.and_two_pow_sub_one_eq_mod, Nat.and_two_pow_sub_one_eq_mod, Nat.shiftRight_eq_div_pow,
    Nat.add_comm, pow_add, Nat.mod_mul_right_div_self]

theorem and_mod_two_pow (x i l : ℕ) : (x &&& (2 ^ (i + l) - 1)) % 2 ^ l = x &&& (2 ^ l - 1) := by
  rw [Nat.and_two_pow_sub_one_eq_mod, Nat.and_two_pow_sub_one_eq_mod, pow_add, Nat.mod_mul_left_mod]

/-- A digit behind what is left over. -/
theorem mul_two_pow_add_eq_or (hx : x < 2 ^ m) (acc : ℕ) : acc * 2 ^ m + x = acc <<< m ||| x := by
  have := div_two_pow_eq_or (Nat.zero_add m) hx acc
  rwa [pow_zero, Nat.div_one, Nat.shiftRight_zero] at this

namespace Regroup

variable {w v k : ℕ} {ins outs : List ℕ}

/-- A digit is read and kept. -/
theorem keep (h : Regroup w v ins outs k acc) (hx : x < 2 ^ w) :
    Regroup w v (ins ++ [x]) outs (k + w) (acc <<< w ||| x) := by
  rw [← mul_two_pow_add_eq_or hx]
  exact h.read hx

/-- A digit is read and one is written. -/
theorem shift (h : Regroup w v ins outs k acc) (hx : x < 2 ^ w) (hk : k + w = v + l)
    (hlj : l + j = w) :
    Regroup w v (ins ++ [x]) (outs ++ [acc <<< j ||| x >>> l]) l (x &&& (2 ^ l - 1)) := by
  have hread := h.read hx
  rw [hk] at hread
  rw [← div_two_pow_eq_or hlj hx, ← mod_two_pow_eq_and (show l ≤ w by omega) x acc]
  exact hread.write

/-- A digit is read and two are written. -/
theorem shift₂ (h : Regroup w v ins outs k acc) (hx : x < 2 ^ w) (hk : k + w = v + (v + l))
    (hlj : v + l + j = w) :
    Regroup w v (ins ++ [x]) (outs ++ [acc <<< j ||| x >>> (v + l)] ++ [x >>> l &&& (2 ^ v - 1)]) l
      (x &&& (2 ^ l - 1)) := by
  have hread := h.shift hx hk hlj
  rw [← and_div_two_pow, ← and_mod_two_pow x v l]
  exact hread.write

end Regroup

end Bits

/-- **Digits of `w` bits are written in digits of `v` bits**, with `p` zero bits after them. -/
structure Padded (w v : ℕ) (ins outs : List ℕ) (p : ℕ) : Prop where
  bits : outs.length * v = ins.length * w + p
  value_eq : value (2 ^ v) outs = value (2 ^ w) ins * 2 ^ p
  outs_lt : ∀ d ∈ outs, d < 2 ^ v

section Padded

variable {w v k acc p p' : ℕ} {ins outs outs' : List ℕ}

/-- The bits that are left over are filled up with zeros and written. -/
theorem Regroup.pad (h : Regroup w v ins outs k acc) (hk : k ≤ v) :
    Padded w v ins (outs ++ [acc * 2 ^ (v - k)]) (v - k) := by
  have hpow : 2 ^ v = 2 ^ k * 2 ^ (v - k) := by rw [← pow_add, Nat.add_sub_cancel' hk]
  refine ⟨?_, ?_, fun d hd => ?_⟩
  · rw [List.length_append, List.length_singleton, h.bits, add_mul, one_mul]
    omega
  · rw [value_snoc, h.value_eq, add_mul, mul_assoc (value (2 ^ v) outs), ← hpow]
    ring
  · rcases List.mem_append.mp hd with hd | hd
    · exact h.outs_lt d hd
    · rw [List.mem_singleton.mp hd, hpow]
      exact Nat.mul_lt_mul_of_pos_right h.acc_lt (Nat.two_pow_pos _)

/-- Nothing is left over. -/
theorem Regroup.padded_zero (h : Regroup w v ins outs 0 acc) : Padded w v ins outs 0 := by
  have hacc : acc = 0 := by simpa using h.acc_lt
  exact ⟨by rw [h.bits]; rfl, by rw [h.value_eq, hacc]; simp, h.outs_lt⟩

/-- What was read is written in what it was read from, when the bits that are left over are zero. -/
theorem Regroup.padded (h : Regroup v w outs ins k 0) (houts : ∀ d ∈ outs, d < 2 ^ v) :
    Padded w v ins outs k :=
  ⟨h.bits, h.value_eq, houts⟩

/-- Equal numbers of bits, each with less than a digit left over. -/
theorem eq_of_bits {a a' : ℕ} (hp : p < w) (hp' : p' < w) (h : a * w + p = a' * w + p') :
    a = a' ∧ p = p' := by
  have hw : 0 < w := by omega
  rw [Nat.mul_comm a, Nat.mul_comm a'] at h
  have hdiv := congrArg (· / w) h
  have hmod := congrArg (· % w) h
  simp only [Nat.mul_add_div hw, Nat.div_eq_of_lt hp, Nat.div_eq_of_lt hp', Nat.add_zero] at hdiv
  simp only [Nat.mul_add_mod, Nat.mod_eq_of_lt hp, Nat.mod_eq_of_lt hp'] at hmod
  exact ⟨hdiv, hmod⟩

/-- **Reading back** what digits were written in gives them, and leaves the zero bits over. -/
theorem Padded.read (h : Padded w v ins outs p) (hp : p < w) (hins : ∀ d ∈ ins, d < 2 ^ w)
    (hread : Regroup v w outs outs' k acc) (hk : k < w) : outs' = ins ∧ k = p ∧ acc = 0 := by
  obtain ⟨hlen, rfl⟩ := eq_of_bits hk hp (hread.bits.symm.trans h.bits)
  have hvalue := hread.value_eq.symm.trans h.value_eq
  have hacc := hread.acc_lt
  have hpos : 0 < 2 ^ k := Nat.two_pow_pos k
  obtain ⟨hsame, hzero⟩ := eq_of_bits hacc hpos (hvalue.trans (Nat.add_zero _).symm)
  exact ⟨value_inj (Nat.one_lt_two_pow (by omega)) hlen hread.outs_lt hins hsame, rfl, hzero⟩

/-- **Digits are written in one way.** -/
theorem Padded.unique (h : Padded w v ins outs p) (h' : Padded w v ins outs' p') (hp : p < v)
    (hp' : p' < v) : outs = outs' := by
  have hbits : outs.length * v + p' = outs'.length * v + p := by
    rw [h.bits, h'.bits]
    omega
  obtain ⟨hlen, rfl⟩ := eq_of_bits hp' hp hbits
  exact value_inj (Nat.one_lt_two_pow (by omega)) hlen h.outs_lt h'.outs_lt
    (h.value_eq.trans h'.value_eq.symm)

end Padded

end Positional
