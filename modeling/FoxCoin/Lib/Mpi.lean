import FoxCoin.Lib.Reader

/-! # Multi-precision integers as bytes

The format of a signed number of any size: its length in four bytes, and then the bytes of its
magnitude, the highest first, of which the topmost bit is the sign. A magnitude that needs that bit
gets a zero byte in front. -/

namespace Mpi

open Wire

variable {b : ℤ} {bytes l : List UInt8} {k n : ℕ}

/-! ## Bytes with the highest first -/

/-- The low `k` bytes of a number, the highest first. -/
def beBytes (k n : ℕ) : List UInt8 := (leBytes k n).reverse

/-- The number that bytes stand for, the highest first. -/
def ofBeBytes (bytes : List UInt8) : ℕ := ofLeBytes bytes.reverse

@[simp] theorem length_beBytes (k n : ℕ) : (beBytes k n).length = k := by
  rw [beBytes, List.length_reverse, leBytes_length]

theorem ofBeBytes_beBytes (h : n < 256 ^ k) : ofBeBytes (beBytes k n) = n := by
  rw [ofBeBytes, beBytes, List.reverse_reverse, ofLeBytes_leBytes, Nat.mod_eq_of_lt h]

theorem beBytes_ofBeBytes (bytes : List UInt8) : beBytes bytes.length (ofBeBytes bytes) = bytes := by
  have h := leBytes_ofLeBytes bytes.reverse
  rw [List.length_reverse] at h
  rw [beBytes, ofBeBytes, h, List.reverse_reverse]

theorem ofBeBytes_lt (bytes : List UInt8) : ofBeBytes bytes < 256 ^ bytes.length := by
  have h := ofLeBytes_lt bytes.reverse
  rwa [List.length_reverse] at h

theorem ofLeBytes_append (l l' : List UInt8) :
    ofLeBytes (l ++ l') = ofLeBytes l + 256 ^ l.length * ofLeBytes l' := by
  induction l with
  | nil => simp [ofLeBytes]
  | cons c l ih =>
    rw [List.cons_append, ofLeBytes, ofLeBytes, ih, List.length_cons]
    ring

@[simp] theorem ofBeBytes_nil : ofBeBytes [] = 0 := rfl

theorem ofBeBytes_cons (c : UInt8) (l : List UInt8) :
    ofBeBytes (c :: l) = c.toNat * 256 ^ l.length + ofBeBytes l := by
  rw [ofBeBytes, List.reverse_cons, ofLeBytes_append, List.length_reverse, ofBeBytes]
  simp only [ofLeBytes]
  ring

/-! ## Signed numbers -/

/-- The number that bytes stand for when the topmost bit is the sign. -/
def signed (bytes : List UInt8) : ℤ :=
  let n := ofBeBytes bytes
  let sign := 256 ^ bytes.length / 2
  if bytes ≠ [] ∧ sign ≤ n then -((n - sign : ℕ) : ℤ) else n

/-- The number of bytes of a magnitude with a free topmost bit. -/
def size (n : ℕ) : ℕ := if n = 0 then 0 else (Nat.log2 n + 1) / 8 + 1

/-- The bytes of a signed number. -/
def body (b : ℤ) : List UInt8 :=
  beBytes (size b.natAbs) (b.natAbs + if b < 0 then 256 ^ size b.natAbs / 2 else 0)

/-- The bytes of a magnitude hold it, with its sign bit, and not one byte too many. -/
theorem size_spec (h : n ≠ 0) :
    0 < size n ∧ 256 ^ (size n - 1) ≤ 2 * n ∧ 2 * n < 256 ^ size n := by
  have hlow := Nat.log2_self_le h
  have hhigh := @Nat.lt_log2_self n
  rw [size, if_neg h]
  generalize n.log2 = l at hlow hhigh
  have hpow : ∀ k, 256 ^ k = 2 ^ (8 * k) := fun k => by rw [pow_mul]; rfl
  refine ⟨Nat.succ_pos _, ?_, ?_⟩
  · calc 256 ^ ((l + 1) / 8 + 1 - 1) = 2 ^ (8 * ((l + 1) / 8)) := by rw [hpow]; rfl
      _ ≤ 2 ^ (l + 1) := Nat.pow_le_pow_right (by omega) (by omega)
      _ = 2 * 2 ^ l := by rw [pow_succ]; ring
      _ ≤ 2 * n := by omega
  · calc 2 * n < 2 * 2 ^ (l + 1) := by omega
      _ = 2 ^ (l + 2) := by rw [pow_succ 2 (l + 1)]; ring
      _ ≤ 2 ^ (8 * ((l + 1) / 8 + 1)) := Nat.pow_le_pow_right (by omega) (by omega)
      _ = 256 ^ ((l + 1) / 8 + 1) := (hpow _).symm

/-- The size is the least one that leaves the topmost bit free. -/
theorem size_le (h : 2 * n < 256 ^ k) : size n ≤ k := by
  by_cases hn : n = 0
  · rw [hn, size, if_pos rfl]
    exact Nat.zero_le k
  · obtain ⟨hpos, hlow, -⟩ := size_spec hn
    by_contra hlt
    have hle : 256 ^ k ≤ 256 ^ (size n - 1) := Nat.pow_le_pow_right (by decide) (by omega)
    omega

theorem lt_size (h : 256 ^ k ≤ 2 * n) : k < size n := by
  have hn : n ≠ 0 := by
    rintro rfl
    exact absurd h (not_le.mpr (Nat.pow_pos (by decide)))
  exact (Nat.pow_lt_pow_iff_right (by decide : 1 < 256)).mp (h.trans_lt (size_spec hn).2.2)

/-- Half of a power of the base is a sign bit. -/
theorem two_mul_sign (h : 0 < k) : 2 * (256 ^ k / 2) = 256 ^ k := by
  obtain ⟨k, rfl⟩ := Nat.exists_eq_succ_of_ne_zero h.ne'
  rw [pow_succ]
  omega

@[simp] theorem length_body (b : ℤ) : (body b).length = size b.natAbs := length_beBytes _ _

theorem ofBeBytes_body (b : ℤ) :
    ofBeBytes (body b) = b.natAbs + if b < 0 then 256 ^ size b.natAbs / 2 else 0 := by
  refine ofBeBytes_beBytes ?_
  by_cases hb : b = 0
  · simp [hb, size]
  · obtain ⟨hpos, -, hhigh⟩ := size_spec (Int.natAbs_ne_zero.mpr hb)
    have hsign := two_mul_sign hpos
    split_ifs
    · omega
    · omega

/-- **The bytes of a signed number stand for it.** -/
theorem signed_body (b : ℤ) : signed (body b) = b := by
  rw [signed, ofBeBytes_body, length_body]
  by_cases hb : b = 0
  · rw [hb]
    rfl
  · obtain ⟨hpos, -, hhigh⟩ := size_spec (Int.natAbs_ne_zero.mpr hb)
    have hsign := two_mul_sign hpos
    have hne : body b ≠ [] := by
      rw [← List.length_pos_iff_ne_nil, length_body]
      exact hpos
    by_cases hneg : b < 0
    · rw [if_pos hneg, if_pos ⟨hne, by omega⟩]
      omega
    · rw [if_neg hneg, if_neg (by rintro ⟨-, hle⟩; omega)]
      omega

/-- No shorter bytes stand for a number. -/
theorem size_le_of_signed (h : signed bytes = b) : size b.natAbs ≤ bytes.length := by
  refine size_le ?_
  have hlt := ofBeBytes_lt bytes
  rw [signed] at h
  by_cases hnil : bytes = []
  · rw [hnil] at h
    rw [← h, hnil]
    decide
  · have hsign := two_mul_sign (List.length_pos_iff_ne_nil.mpr hnil)
    simp only [ne_eq, hnil, not_false_eq_true, true_and] at h
    split_ifs at h with hneg
    · omega
    · omega

/-- No other bytes of the same length stand for it. -/
theorem eq_body_of_signed (h : signed bytes = b) (hlen : bytes.length = size b.natAbs) :
    bytes = body b := by
  rw [← beBytes_ofBeBytes bytes, body, hlen]
  by_cases hb : b = 0
  · rw [hb]
    rfl
  · have hpos := (size_spec (Int.natAbs_ne_zero.mpr hb)).1
    have hne : bytes ≠ [] := List.length_pos_iff_ne_nil.mp (by omega)
    rw [signed, hlen] at h
    simp only [ne_eq, hne, not_false_eq_true, true_and] at h
    congr 1
    split_ifs at h ⊢ <;> omega

/-- The first byte has the sign, and the other ones the rest of the magnitude. -/
theorem signed_cons (c : UInt8) (l : List UInt8) :
    signed (c :: l) = if 128 ≤ c.toNat then
      -(((c.toNat - 128) * 256 ^ l.length + ofBeBytes l : ℕ) : ℤ)
      else ((c.toNat * 256 ^ l.length + ofBeBytes l : ℕ) : ℤ) := by
  have hlt := ofBeBytes_lt l
  have hhalf : 256 ^ (c :: l).length / 2 = 128 * 256 ^ l.length := by
    rw [List.length_cons, pow_succ]
    omega
  rw [signed, ofBeBytes_cons, hhalf]
  by_cases hc : 128 ≤ c.toNat
  · have hsplit : c.toNat * 256 ^ l.length =
        (c.toNat - 128) * 256 ^ l.length + 128 * 256 ^ l.length := by
      rw [← Nat.add_mul]
      congr 1
      omega
    rw [if_pos hc, if_pos ⟨List.cons_ne_nil c l, by omega⟩, hsplit]
    congr 2
    omega
  · have hle : c.toNat * 256 ^ l.length ≤ 127 * 256 ^ l.length :=
      Nat.mul_le_mul_right _ (by omega)
    rw [if_neg hc, if_neg (by rintro ⟨-, h⟩; omega)]

theorem natAbs_signed_lt (bytes : List UInt8) : (signed bytes).natAbs < 256 ^ bytes.length := by
  have hlt := ofBeBytes_lt bytes
  rw [signed]
  split_ifs
  · omega
  · omega

/-! ## The format -/

/-- The bytes of a number with their length in front. -/
def encode (b : ℤ) : List UInt8 := beBytes 4 (size b.natAbs) ++ body b

/-- The number that such bytes stand for; `none` when the length is not the one in front. -/
def decode (bytes : List UInt8) : Option ℤ :=
  if 4 ≤ bytes.length ∧ ofBeBytes (bytes.take 4) + 4 = bytes.length then
    some (signed (bytes.drop 4))
  else none

theorem length_encode (b : ℤ) : (encode b).length = size b.natAbs + 4 := by
  rw [encode, List.length_append, length_beBytes, length_body, Nat.add_comm]

theorem drop_encode (b : ℤ) : (encode b).drop 4 = body b := List.drop_left' (length_beBytes 4 _)

/-- Bytes with their length in front are decoded. -/
theorem decode_append (h : l.length < 2 ^ 32) :
    decode (beBytes 4 l.length ++ l) = some (signed l) := by
  have htake : (beBytes 4 l.length ++ l).take 4 = beBytes 4 l.length :=
    List.take_left' (length_beBytes 4 _)
  have hdrop : (beBytes 4 l.length ++ l).drop 4 = l := List.drop_left' (length_beBytes 4 _)
  have hlength : ofBeBytes (beBytes 4 l.length) = l.length := ofBeBytes_beBytes h
  rw [decode, htake, hdrop, hlength, List.length_append, length_beBytes,
    if_pos ⟨Nat.le_add_right _ _, Nat.add_comm _ _⟩]

/-- **Encoded numbers are decoded.** -/
theorem decode_encode (h : size b.natAbs < 2 ^ 32) : decode (encode b) = some b := by
  have := decode_append (l := body b) (by rwa [length_body])
  rwa [length_body, signed_body] at this

end Mpi
