import FoxCoin.BigNumMpi
import Mathlib.Data.List.GetD

/-! # Compact targets as bytes

`GetCompact` takes the length and the first three bytes of a number out of the byte format, and
`SetCompact` puts them back in front of zeros. The consensus rules compare these forms: encoding
drops low bytes only, and what is left has the same form. -/

namespace FoxCoin

open Mpi Wire

namespace BnMpi

variable {lib : BnMpi} {self bn : ℤ} {l : List UInt8} {n k : ℕ}

/-! ## Encoding -/

/-- The first three bytes, as far as there are any. -/
def leading (l : List UInt8) : ℕ :=
  (l.getD 0 0).toNat * 2 ^ 16 + (l.getD 1 0).toNat * 2 ^ 8 + (l.getD 2 0).toNat

theorem leading_lt (l : List UInt8) : leading l < 2 ^ 24 := by
  have h0 := (l.getD 0 0).toNat_lt
  have h1 := (l.getD 1 0).toNat_lt
  have h2 := (l.getD 2 0).toNat_lt
  rw [leading]
  omega

/-- The first three bytes are the number without its other bytes. -/
theorem leading_eq (l : List UInt8) :
    leading l = if l.length ≤ 3 then ofBeBytes l * 256 ^ (3 - l.length)
      else ofBeBytes l / 256 ^ (l.length - 3) := by
  match l with
  | [] => rfl
  | [a] => simp [leading, ofBeBytes_cons]
  | [a, b] =>
    simp only [leading, ofBeBytes_cons, ofBeBytes_nil, List.length_cons, List.length_nil]
    simp
    ring
  | a :: b :: c :: rest =>
    -- the bytes after the third one are the remainder of the division
    have hrest := ofBeBytes_lt rest
    have hvalue : ofBeBytes (a :: b :: c :: rest) =
        ofBeBytes rest + leading (a :: b :: c :: rest) * 256 ^ rest.length := by
      simp only [leading, ofBeBytes_cons, List.length_cons, List.getD_cons_zero,
        List.getD_cons_succ]
      ring
    have hdiv : ofBeBytes (a :: b :: c :: rest) / 256 ^ rest.length =
        leading (a :: b :: c :: rest) := by
      rw [hvalue, Nat.add_mul_div_right _ _ (Nat.pow_pos (by decide)), Nat.div_eq_of_lt hrest,
        Nat.zero_add]
    simp only [List.length_cons]
    split_ifs with hle
    · obtain rfl : rest = [] := List.length_eq_zero_iff.mp (by omega)
      simpa using hdiv.symm
    · rw [show rest.length + 1 + 1 + 1 - 3 = rest.length by omega, hdiv]

/-- The size and the first three bytes are put together bit by bit. -/
theorem or_leading (nSize : ℕ) (l : List UInt8) :
    nSize <<< 24 ||| (l.getD 0 0).toNat <<< 16 ||| (l.getD 1 0).toNat <<< 8 |||
      (l.getD 2 0).toNat = nSize * 2 ^ 24 + leading l := by
  have h0 := (l.getD 0 0).toNat_lt
  have h1 := (l.getD 1 0).toNat_lt
  have h2 := (l.getD 2 0).toNat_lt
  -- what is to the left of a byte is shifted past it
  have hor : ∀ {x c i : ℕ}, c < 2 ^ 8 → x <<< (i + 8) ||| c <<< i = (x * 2 ^ 8 + c) <<< i := by
    intro x c i hc
    rw [Nat.add_comm, Nat.shiftLeft_add, ← Nat.shiftLeft_or_distrib,
      ← Nat.shiftLeft_add_eq_or_of_lt hc, Nat.shiftLeft_eq x]
  rw [show 24 = 16 + 8 from rfl, hor h0, show 16 = 8 + 8 from rfl, hor h1,
    ← Nat.shiftLeft_add_eq_or_of_lt h2, Nat.shiftLeft_eq, leading]
  ring

/-- The compact form has the size and the first three bytes of the byte format. -/
theorem getCompact_eq_leading (bn : ℤ) :
    FoxCoin.getCompact bn = size bn.natAbs * 2 ^ 24 + leading (body bn) := by
  by_cases hzero : bn = 0
  · rw [hzero]
    decide
  have hpos := (size_spec (Int.natAbs_ne_zero.mpr hzero)).1
  have hsize : mpiSize bn.natAbs = size bn.natAbs := rfl
  rw [leading_eq, length_body, ofBeBytes_body]
  simp only [FoxCoin.getCompact, hsize]
  generalize bn.natAbs = n at hpos
  generalize size n = s at hpos
  split_ifs with hneg hs hs
  · interval_cases s <;> omega
  · obtain ⟨k, rfl⟩ : ∃ k, s = k + 3 := ⟨s - 3, by omega⟩
    have hsign : 256 ^ (k + 3) / 2 = 2 ^ 23 * 256 ^ k := by
      rw [show 256 ^ (k + 3) = 2 ^ 23 * 256 ^ k * 2 by ring]
      exact Nat.mul_div_cancel _ two_pos
    rw [Nat.add_sub_cancel, hsign, Nat.add_mul_div_right _ _ (Nat.pow_pos (by decide))]
    ring
  · rw [Nat.add_zero, Nat.add_zero]
  · rw [Nat.add_zero, Nat.add_zero]

/-- **`GetCompact` is the compact form.** -/
theorem getCompact_eq (hlib : lib.Documented) (hbn : lib.IsBigNum bn) (hsize : size bn.natAbs ≤ 255) :
    lib.getCompact bn = FoxCoin.getCompact bn := by
  have hlength : (encode bn).length - 4 = (body bn).length := by
    rw [length_encode, length_body, Nat.add_sub_cancel]
  have hget : ∀ i, (encode bn).getD (4 + i) 0 = (body bn).getD i 0 := by
    intro i
    rw [encode, List.getD_eq_getElem?_getD, List.getElem?_append_right (by simp),
      length_beBytes, Nat.add_sub_cancel_left, List.getD_eq_getElem?_getD]
  have hshift : (body bn).length <<< 24 % 2 ^ 32 = (body bn).length <<< 24 := by
    rw [Nat.shiftLeft_eq, length_body]
    exact Nat.mod_eq_of_lt (by omega)
  -- a byte that is not there adds no bits
  have hbyte : ∀ i x j, (if i + 1 ≤ (body bn).length then x ||| ((body bn).getD i 0).toNat <<< j
      else x) = x ||| ((body bn).getD i 0).toNat <<< j := by
    intro i x j
    split_ifs with hi
    · rfl
    · rw [List.getD_eq_default _ _ (by omega), UInt8.toNat_zero, Nat.zero_shiftLeft, Nat.or_zero]
  have hlast : ∀ x, (if 3 ≤ (body bn).length then x ||| ((body bn).getD 2 0).toNat else x) =
      x ||| ((body bn).getD 2 0).toNat := fun x => by
    have := hbyte 2 x 0
    rwa [Nat.shiftLeft_zero] at this
  rw [getCompact_eq_leading, getCompact, hlib.bn2mpi bn hbn]
  simp only [hlength, hget 0, hget 1, hget 2, hshift]
  rw [hbyte 0, hbyte 1, hlast, or_leading, length_body]

/-! ## Decoding -/

theorem ofBeBytes_zeros (k : ℕ) : ofBeBytes (List.replicate k 0) = 0 := by
  rw [ofBeBytes, List.reverse_replicate]
  exact ofLeBytes_append_zeros [] k

/-- The bytes that `SetCompact` makes up, after the length. -/
def compactBody (nCompact : ℕ) : List UInt8 :=
  ([UInt8.ofNat (nCompact / 2 ^ 16), UInt8.ofNat (nCompact / 2 ^ 8), UInt8.ofNat nCompact] ++
    List.replicate (nCompact / 2 ^ 24 - 3) 0).take (nCompact / 2 ^ 24)

theorem length_compactBody (nCompact : ℕ) : (compactBody nCompact).length = nCompact / 2 ^ 24 := by
  rw [compactBody, List.length_take, List.length_append, List.length_replicate]
  simp only [List.length_cons, List.length_nil]
  omega

/-- The lengths of less than three bytes, and the others. -/
theorem length_cases (n : ℕ) : n = 0 ∨ n = 1 ∨ n = 2 ∨ ∃ k, n = k + 3 := by
  rcases Nat.lt_or_ge n 3 with hlt | hge
  · omega
  · exact Or.inr (Or.inr (Or.inr ⟨n - 3, by omega⟩))

/-- These bytes stand for the target. -/
theorem signed_compactBody (nCompact : ℕ) :
    signed (compactBody nCompact) = FoxCoin.setCompact nCompact := by
  have hbyte : ∀ x : ℕ, (UInt8.ofNat x).toNat = x % 256 := fun x => UInt8.toNat_ofNat
  have hsign : 2 ^ 23 ≤ nCompact % 2 ^ 24 ↔ 128 ≤ nCompact / 2 ^ 16 % 256 := by omega
  have hmantissa : nCompact % 2 ^ 24 % 2 ^ 23 = nCompact / 2 ^ 16 % 128 * 2 ^ 16 +
      nCompact / 2 ^ 8 % 256 * 2 ^ 8 + nCompact % 256 := by
    omega
  simp only [compactBody, FoxCoin.setCompact, hsign]
  obtain hsize | hsize | hsize | ⟨k, hsize⟩ := length_cases (nCompact / 2 ^ 24) <;> rw [hsize]
  · have hzero : nCompact % 2 ^ 24 % 2 ^ 23 / 256 ^ 3 = 0 := by omega
    simp only [List.take_zero, Nat.zero_le, if_true, Nat.sub_zero, hzero]
    split_ifs <;> rfl
  · rw [show List.take 1 _ = [UInt8.ofNat (nCompact / 2 ^ 16)] from rfl, signed_cons, hbyte]
    simp only [ofBeBytes_nil, List.length_nil, pow_zero, Nat.mul_one, Nat.add_zero,
      show (1 : ℕ) ≤ 3 by decide, if_true]
    split_ifs <;> omega
  · rw [show List.take 2 _ =
      [UInt8.ofNat (nCompact / 2 ^ 16), UInt8.ofNat (nCompact / 2 ^ 8)] from rfl, signed_cons,
      ofBeBytes_cons, hbyte, hbyte]
    simp only [ofBeBytes_nil, List.length_cons, List.length_nil, pow_zero, Nat.mul_one,
      Nat.add_zero, Nat.zero_add, pow_one, show (2 : ℕ) ≤ 3 by decide, if_true]
    split_ifs <;> omega
  · rw [Nat.add_sub_cancel, List.take_of_length_le (by simp), List.cons_append, List.cons_append,
      List.cons_append, List.nil_append, signed_cons, ofBeBytes_cons, ofBeBytes_cons,
      ofBeBytes_zeros, hbyte, hbyte, hbyte]
    simp only [List.length_cons, List.length_replicate, Nat.add_zero]
    -- three bytes of the mantissa, with zeros after them
    have hvalue : nCompact % 2 ^ 24 % 2 ^ 23 * 256 ^ k = nCompact / 2 ^ 16 % 128 * 256 ^ (k + 1 + 1) +
        (nCompact / 2 ^ 8 % 256 * 256 ^ (k + 1) + nCompact % 256 * 256 ^ k) := by
      rw [hmantissa]
      ring
    have hn : (if k + 3 ≤ 3 then nCompact % 2 ^ 24 % 2 ^ 23 / 256 ^ (3 - (k + 3))
        else nCompact % 2 ^ 24 % 2 ^ 23 * 256 ^ k) = nCompact % 2 ^ 24 % 2 ^ 23 * 256 ^ k := by
      split_ifs
      · obtain rfl : k = 0 := by omega
        rw [pow_zero, Nat.mul_one, Nat.div_one]
      · rfl
    rw [hn, hvalue]
    split_ifs with hneg
    · rw [show nCompact / 2 ^ 16 % 256 - 128 = nCompact / 2 ^ 16 % 128 by omega]
    · rw [show nCompact / 2 ^ 16 % 256 = nCompact / 2 ^ 16 % 128 by omega]

/-- **`SetCompact` reads the compact form.** -/
theorem setCompact_eq (hlib : lib.Documented) (self : ℤ) {nCompact : ℕ} (h : nCompact < 2 ^ 32) :
    lib.setCompact self nCompact = FoxCoin.setCompact nCompact := by
  have hlength := length_compactBody nCompact
  have hbn : lib.IsBigNum (signed (compactBody nCompact)) :=
    isBigNum_of_lt hlib (natAbs_signed_lt _) (by rw [hlength]; omega)
  have hbytes : ∀ nSize, nSize < 256 → beBytes 4 nSize = [0, 0, 0, UInt8.ofNat nSize] := by
    intro nSize hlt
    rw [← sizeBytes_eq, sizeBytes, Nat.div_eq_of_lt (by omega), Nat.div_eq_of_lt (by omega),
      Nat.div_eq_of_lt (by omega)]
    rfl
  have hread : lib.setCompact self nCompact =
      (lib.mpi2bn (sizeBytes (compactBody nCompact).length ++ compactBody nCompact)).getD self := by
    rw [sizeBytes_eq, hlength, hbytes _ (by omega), setCompact, compactBody]
    obtain hsize | hsize | hsize | ⟨k, hsize⟩ := length_cases (nCompact / 2 ^ 24) <;> rw [hsize]
    · rfl
    · rfl
    · rfl
    · have hzeros : List.replicate (4 + (k + 3)) (0 : UInt8) =
          0 :: 0 :: 0 :: 0 :: 0 :: 0 :: 0 :: List.replicate k 0 := by
        rw [show 4 + (k + 3) = k + 7 by omega]
        rfl
      rw [Nat.add_sub_cancel, List.take_of_length_le (by simp), hzeros]
      simp only [show 1 ≤ k + 3 by omega, show 2 ≤ k + 3 by omega, show 3 ≤ k + 3 by omega, if_true]
      rfl
  rw [hread, mpi2bn_sizeBytes hlib (by rw [hlength]; omega) hbn, Option.getD_some,
    signed_compactBody]

/-! ## Encoding what was decoded -/

/-- Dropping low bytes keeps the size, when three bytes are left. -/
theorem size_div_mul {n k : ℕ} (hsize : size n = k + 3) : size (n / 256 ^ k * 256 ^ k) = k + 3 := by
  have hn : n ≠ 0 := by
    rintro rfl
    cases hsize
  obtain ⟨-, hlow, hhigh⟩ := size_spec hn
  rw [hsize] at hlow hhigh
  replace hlow : 256 ^ (k + 2) ≤ 2 * n := hlow
  have hle : n / 256 ^ k * 256 ^ k ≤ n := Nat.div_mul_le_self n _
  have hpow : 256 ^ (k + 2) = 2 * (2 ^ 15 * 256 ^ k) := by ring
  -- the first two bytes are not dropped
  have hfirst : 2 ^ 15 * 256 ^ k ≤ n / 256 ^ k * 256 ^ k :=
    Nat.mul_le_mul_right _ ((Nat.le_div_iff_mul_le (Nat.pow_pos (by decide))).mpr (by omega))
  refine le_antisymm (size_le (by omega)) (lt_size ?_)
  omega

/-- The compact form of a number keeps its size. -/
theorem size_setCompact_getCompact (n : ℕ) :
    size (FoxCoin.setCompact (FoxCoin.getCompact n)).natAbs = size n := by
  have hsize : mpiSize n = size n := rfl
  rw [FoxCoin.setCompact_getCompact, Int.natAbs_natCast, hsize]
  split_ifs with hs
  · rfl
  · obtain ⟨k, hk⟩ : ∃ k, size n = k + 3 := ⟨size n - 3, by omega⟩
    rw [hk, Nat.add_sub_cancel, size_div_mul hk]

/-- The compact form of a number keeps its first three bytes. -/
theorem leading_body_natCast (n : ℕ) : leading (body n) =
    if size n ≤ 3 then n * 256 ^ (3 - size n) else n / 256 ^ (size n - 3) := by
  rw [leading_eq, length_body, ofBeBytes_body, if_neg (not_lt.mpr (Int.natCast_nonneg n)),
    Int.natAbs_natCast, Nat.add_zero]

theorem leading_setCompact_getCompact (n : ℕ) :
    leading (body (FoxCoin.setCompact (FoxCoin.getCompact n))) = leading (body n) := by
  have hsize := size_setCompact_getCompact n
  rw [FoxCoin.setCompact_getCompact, Int.natAbs_natCast, show mpiSize n = size n from rfl] at *
  rw [leading_body_natCast, leading_body_natCast, hsize]
  split_ifs with hs
  · rfl
  · rw [Nat.mul_div_cancel _ (Nat.pow_pos (by decide))]

/-- **The compact form is encoded as itself.** -/
theorem getCompact_setCompact_getCompact (n : ℕ) :
    FoxCoin.getCompact (FoxCoin.setCompact (FoxCoin.getCompact n)) = FoxCoin.getCompact n := by
  rw [getCompact_eq_leading (FoxCoin.setCompact _), size_setCompact_getCompact,
    leading_setCompact_getCompact]
  exact (getCompact_eq_leading n).symm

/-- The first three bytes determine each other. -/
theorem take_three_eq {l l' : List UInt8} (hlen : l.length = l'.length)
    (h : leading l = leading l') : l.take 3 = l'.take 3 := by
  have hget : ∀ i < 3, l.getD i 0 = l'.getD i 0 := by
    have h0 := (l.getD 0 0).toNat_lt
    have h1 := (l.getD 1 0).toNat_lt
    have h2 := (l.getD 2 0).toNat_lt
    have h0' := (l'.getD 0 0).toNat_lt
    have h1' := (l'.getD 1 0).toNat_lt
    have h2' := (l'.getD 2 0).toNat_lt
    rw [leading, leading] at h
    intro i hi
    apply UInt8.toNat_inj.mp
    interval_cases i <;> omega
  refine List.ext_getElem (by rw [List.length_take, List.length_take, hlen]) fun i hi hi' => ?_
  rw [List.length_take] at hi hi'
  have := hget i (by omega)
  rw [List.getD_eq_getElem _ _ (by omega), List.getD_eq_getElem _ _ (by omega)] at this
  rw [List.getElem_take, List.getElem_take, this]

/-- What `SetCompact` makes of the compact form of a number: it is not larger, it has the same size
and the same first three bytes, and the same compact form again. -/
structure KeepsCompact (lib : BnMpi) (self x : ℤ) : Prop where
  le : lib.setCompact self (lib.getCompact x) ≤ x
  nonneg : 0 ≤ lib.setCompact self (lib.getCompact x)
  leading : (lib.bn2mpi (lib.setCompact self (lib.getCompact x))).take 7 = (lib.bn2mpi x).take 7
  whole : size x.natAbs ≤ 3 → lib.setCompact self (lib.getCompact x) = x
  again : lib.getCompact (lib.setCompact self (lib.getCompact x)) = lib.getCompact x

/-- **Compact targets**: what is encoded is kept up to its low bytes, and its compact form stays. -/
theorem keepsCompact {lib : BnMpi} (hlib : lib.Documented) (self : ℤ) {x : ℤ} (hnonneg : 0 ≤ x)
    (hlt : x < 2 ^ 256) : lib.KeepsCompact self x := by
  obtain ⟨n, rfl⟩ := Int.eq_ofNat_of_zero_le hnonneg
  have hsize : size n ≤ 33 := size_le (by
    have : n < 2 ^ 256 := by exact_mod_cast hlt
    omega)
  have hbytes : n < 256 ^ 32 := by exact_mod_cast hlt
  have hbig : ∀ k : ℕ, k < 256 ^ 32 → lib.IsBigNum (k : ℤ) := fun k hk =>
    isBigNum_of_lt hlib (k := 32) hk (by decide)
  have hleading := leading_lt (body n)
  have hget : lib.getCompact (n : ℤ) = FoxCoin.getCompact n :=
    getCompact_eq hlib (hbig n hbytes) (by rw [Int.natAbs_natCast]; omega)
  have hset : lib.setCompact self (lib.getCompact (n : ℤ)) =
      FoxCoin.setCompact (FoxCoin.getCompact n) := by
    rw [hget]
    refine setCompact_eq hlib self ?_
    rw [getCompact_eq_leading, Int.natAbs_natCast]
    omega
  -- what is decoded is a number `y` of the same size and first bytes
  obtain ⟨y, hy, hyle⟩ : ∃ y : ℕ, FoxCoin.setCompact (FoxCoin.getCompact n) = y ∧ y ≤ n := by
    refine ⟨_, setCompact_getCompact n, ?_⟩
    split_ifs
    · exact le_rfl
    · exact Nat.div_mul_le_self n _
  have hysize : size y = size n := by
    have := size_setCompact_getCompact n
    rwa [hy, Int.natAbs_natCast] at this
  have hyleading : leading (body y) = leading (body n) := by
    rw [← hy]
    exact leading_setCompact_getCompact n
  have hybig := hbig y (hyle.trans_lt hbytes)
  rw [hy] at hset
  refine ⟨?_, ?_, ?_, fun hthree => ?_, ?_⟩
  · rw [hset]
    exact_mod_cast hyle
  · rw [hset]
    exact Int.natCast_nonneg y
  · rw [hset, hlib.bn2mpi _ hybig, hlib.bn2mpi _ (hbig n hbytes), encode, encode,
      Int.natAbs_natCast, Int.natAbs_natCast, hysize, List.take_append, List.take_append,
      length_beBytes, take_three_eq (by rw [length_body, length_body]; exact hysize) hyleading]
  · rw [hset, ← hy, FoxCoin.setCompact_getCompact]
    exact congrArg Nat.cast (if_pos hthree)
  · rw [hset, hget, getCompact_eq hlib hybig (by rw [Int.natAbs_natCast]; omega), ← hy,
      getCompact_setCompact_getCompact]

/-- The largest number of 256 bits, whose topmost bit is set. -/
theorem keepsCompact_format : format.KeepsCompact 0 (2 ^ 256 - 1) :=
  keepsCompact format_documented 0 (by decide) (by decide)

end BnMpi

end FoxCoin
