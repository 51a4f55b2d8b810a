import FoxCoin.StackOps
import FoxCoin.Lib.Mpi

/-! # Conversions of big numbers

`CBigNum` converts from and to integers, byte vectors and compact targets by way of the byte format
of the big-number library: it puts the bytes of a number together by hand and lets the library read
them, or has them written and takes them apart. -/

namespace FoxCoin

open Mpi Wire

/-! ## The library -/

/-- The functions of the big-number library on its byte format, and the most bits that the magnitude
of a number may have. -/
structure BnMpi where
  maxBits : ℕ
  /-- `BN_bn2mpi`. -/
  bn2mpi : ℤ → List UInt8
  /-- `BN_mpi2bn`, `none` when it fails. -/
  mpi2bn : List UInt8 → Option ℤ

/-- A value of a `CBigNum`. -/
def BnMpi.IsBigNum (lib : BnMpi) (bn : ℤ) : Prop := bn.natAbs < 2 ^ lib.maxBits

/-- What the documentation says about the byte format. Numbers of 2048 bits are far below the limit
of the library, and the number of bits is an `int`. -/
structure BnMpi.Documented (lib : BnMpi) : Prop where
  le_maxBits : 2048 ≤ lib.maxBits
  maxBits_lt : lib.maxBits < 2 ^ 31
  bn2mpi : ∀ bn, lib.IsBigNum bn → lib.bn2mpi bn = encode bn
  mpi2bn : ∀ bytes bn, decode bytes = some bn → lib.IsBigNum bn → lib.mpi2bn bytes = some bn

namespace BnMpi

variable (lib : BnMpi)

/-! ## The code -/

/-- The four bytes of `nSize`, the highest first. -/
def sizeBytes (nSize : ℕ) : List UInt8 :=
  [.ofNat (nSize / 2 ^ 24), .ofNat (nSize / 2 ^ 16), .ofNat (nSize / 2 ^ 8), .ofNat nSize]

/-- What a round of the loops does with the byte `c`: `fLeadingZeroes` and the bytes written so
far. The sign goes into the first byte, or into one before it. -/
def writeByte (fNegative : Bool) (st : Bool × List UInt8) (c : UInt8) : Bool × List UInt8 :=
  let (fLeadingZeroes, p) := st
  if fLeadingZeroes then
    if c = 0 then (true, p)
    else if c &&& 0x80 ≠ 0 then (false, p ++ [if fNegative then 0x80 else 0] ++ [c])
    else if fNegative then (false, p ++ [c ||| 0x80])
    else (false, p ++ [c])
  else (false, p ++ [c])

/-- The loop over the bytes of a 64-bit number, which shifts them out at the top. -/
def writeLoop (fNegative : Bool) : ℕ → UInt64 → Bool × List UInt8 → Bool × List UInt8
  | 0, _, st => st
  | i + 1, n, st => writeLoop fNegative i (n <<< 8) (writeByte fNegative st (n >>> 56).toUInt8)

/-- `setint64`. The magnitude of the least number is found without leaving the type. -/
def setint64 (self : ℤ) (sn : Int64) : ℤ :=
  let fNegative := decide (sn < 0)
  let n : UInt64 := if sn < 0 then (-(sn + 1)).toUInt64 + 1 else sn.toUInt64
  let p := (writeLoop fNegative 8 n (true, [])).2
  (lib.mpi2bn (sizeBytes p.length ++ p)).getD self

/-- `setuint64`. -/
def setuint64 (self : ℤ) (n : UInt64) : ℤ :=
  let p := (writeLoop false 8 n (true, [])).2
  (lib.mpi2bn (sizeBytes p.length ++ p)).getD self

/-- `setuint256`, which goes through the bytes of `n` from the last one down. -/
def setuint256 (self : ℤ) (n : Uint256) : ℤ :=
  let p := ((leBytes 32 n).reverse.foldl (writeByte false) (true, [])).2
  (lib.mpi2bn (sizeBytes p.length ++ p)).getD self

/-- The loop of `getuint256`: `n[i] = vch[j]` for a number of rounds, while `j` is not in the
length. -/
def copyLoop (vch : List UInt8) : ℕ → ℕ → ℕ → List UInt8 → List UInt8
  | 0, _, _, n => n
  | nRounds + 1, i, j, n =>
    if 4 ≤ j then copyLoop vch nRounds (i + 1) (j - 1) (n.set i (vch.getD j 0)) else n

/-- `getuint256`. -/
def getuint256 (bn : ℤ) : Uint256 :=
  let vch := lib.bn2mpi bn
  if vch.length < 4 then 0
  else
    let vch := if 4 < vch.length then vch.set 4 (vch.getD 4 0 &&& 0x7f) else vch
    ofLeBytes (copyLoop vch 32 0 (vch.length - 1) (List.replicate 32 0))

/-- `setvch`. -/
def setvch (self : ℤ) (vch : List UInt8) : ℤ :=
  (lib.mpi2bn (sizeBytes vch.length ++ vch.reverse)).getD self

/-- `getvch`. -/
def getvch (bn : ℤ) : List UInt8 :=
  let vch := lib.bn2mpi bn
  if vch.length ≤ 4 then [] else (vch.drop 4).reverse

/-- `SetCompact`. -/
def setCompact (self : ℤ) (nCompact : ℕ) : ℤ :=
  let nSize := nCompact / 2 ^ 24
  let vch : List UInt8 := (List.replicate (4 + nSize) 0).set 3 (.ofNat nSize)
  let vch := if 1 ≤ nSize then vch.set 4 (.ofNat (nCompact / 2 ^ 16)) else vch
  let vch := if 2 ≤ nSize then vch.set 5 (.ofNat (nCompact / 2 ^ 8)) else vch
  let vch := if 3 ≤ nSize then vch.set 6 (.ofNat nCompact) else vch
  (lib.mpi2bn vch).getD self

/-- `GetCompact`. -/
def getCompact (bn : ℤ) : ℕ :=
  let vch := lib.bn2mpi bn
  let nSize := vch.length - 4
  let nCompact := nSize <<< 24 % 2 ^ 32
  let nCompact := if 1 ≤ nSize then nCompact ||| (vch.getD 4 0).toNat <<< 16 else nCompact
  let nCompact := if 2 ≤ nSize then nCompact ||| (vch.getD 5 0).toNat <<< 8 else nCompact
  if 3 ≤ nSize then nCompact ||| (vch.getD 6 0).toNat else nCompact

/-! ## Bytes written by hand -/

theorem sizeBytes_eq (nSize : ℕ) : sizeBytes nSize = beBytes 4 nSize := by
  simp only [sizeBytes, beBytes, leBytes, Nat.div_div_eq_div_mul, List.reverse_cons,
    List.reverse_nil, List.nil_append, List.cons_append]
  rfl

variable {lib} (hlib : lib.Documented) {self bn : ℤ} {l : List UInt8} {fNegative : Bool}

include hlib in
/-- Bytes with their length in front are read. -/
theorem mpi2bn_sizeBytes (hlen : l.length < 2 ^ 32) (hbn : lib.IsBigNum (signed l)) :
    lib.mpi2bn (sizeBytes l.length ++ l) = some (signed l) := by
  rw [sizeBytes_eq]
  exact hlib.mpi2bn _ _ (decode_append hlen) hbn

theorem foldl_writeByte_false (p : List UInt8) :
    l.foldl (writeByte fNegative) (false, p) = (false, p ++ l) := by
  induction l generalizing p with
  | nil => rw [List.foldl_nil, List.append_nil]
  | cons c l ih =>
    rw [List.foldl_cons, writeByte]
    simp only [Bool.false_eq_true, if_false]
    rw [ih, List.append_assoc, List.singleton_append]

theorem and_sign_ne_zero (c : UInt8) : c &&& 0x80 ≠ 0 ↔ 128 ≤ c.toNat := by
  obtain ⟨c⟩ := c
  revert c
  decide +kernel

theorem toNat_or_sign {c : UInt8} (h : c.toNat < 128) : (c ||| 0x80).toNat = c.toNat + 128 := by
  have hor := Nat.two_pow_add_eq_or_of_lt (i := 7) (b := c.toNat) h 1
  rw [UInt8.toNat_or, Nat.or_comm]
  show 2 ^ 7 * 1 ||| c.toNat = c.toNat + 128
  omega

/-- **The bytes written are those of the number**, with the sign. -/
theorem signed_writeBytes (fNegative : Bool) (l : List UInt8) :
    signed (l.foldl (writeByte fNegative) (true, [])).2 =
      if fNegative then -(ofBeBytes l : ℤ) else ofBeBytes l := by
  induction l with
  | nil => cases fNegative <;> rfl
  | cons c l ih =>
    rw [List.foldl_cons, writeByte, ofBeBytes_cons]
    simp only [if_true]
    by_cases hzero : c = 0
    · rw [if_pos hzero, ih, hzero, UInt8.toNat_zero, Nat.zero_mul, Nat.zero_add]
    rw [if_neg hzero]
    by_cases hsign : c &&& 0x80 ≠ 0
    · -- the topmost bit is not free: the sign has a byte of its own
      rw [if_pos hsign, foldl_writeByte_false, List.nil_append, List.append_assoc,
        List.singleton_append, List.singleton_append, signed_cons, ofBeBytes_cons]
      cases fNegative with
      | false => simp
      | true => simp
    rw [if_neg hsign]
    rw [and_sign_ne_zero, not_le] at hsign
    cases fNegative with
    | false =>
      rw [if_neg Bool.false_ne_true, foldl_writeByte_false, List.nil_append, List.singleton_append,
        signed_cons, if_neg (not_le.mpr hsign), if_neg Bool.false_ne_true]
    | true =>
      rw [if_pos rfl, foldl_writeByte_false, List.nil_append, List.singleton_append, signed_cons,
        toNat_or_sign hsign, if_pos (Nat.le_add_left _ _), if_pos rfl, Nat.add_sub_cancel]

/-- One byte more than the number has is enough. -/
theorem length_writeBytes_le (fNegative : Bool) (l : List UInt8) :
    (l.foldl (writeByte fNegative) (true, [])).2.length ≤ l.length + 1 := by
  induction l with
  | nil => exact Nat.zero_le _
  | cons c l ih =>
    rw [List.foldl_cons, writeByte]
    simp only [if_true]
    split_ifs
    · exact ih.trans (Nat.le_succ _)
    all_goals
      rw [foldl_writeByte_false]
      simp only [List.nil_append, List.length_append, List.length_cons, List.length_nil]
      omega

/-- The topmost byte of a 64-bit number, and then the next ones. -/
def topBytes : ℕ → UInt64 → List UInt8
  | 0, _ => []
  | i + 1, n => (n >>> 56).toUInt8 :: topBytes i (n <<< 8)

theorem writeLoop_eq (i : ℕ) (n : UInt64) (st : Bool × List UInt8) :
    writeLoop fNegative i n st = (topBytes i n).foldl (writeByte fNegative) st := by
  induction i generalizing n st with
  | zero => rfl
  | succ i ih => rw [writeLoop, ih, topBytes, List.foldl_cons]

theorem length_topBytes (i : ℕ) (n : UInt64) : (topBytes i n).length = i := by
  induction i generalizing n with
  | zero => rfl
  | succ i ih => rw [topBytes, List.length_cons, ih]

theorem ofBeBytes_topBytes {i : ℕ} (hi : i ≤ 8) (n : UInt64) :
    ofBeBytes (topBytes i n) = n.toNat / 256 ^ (8 - i) := by
  induction i generalizing n with
  | zero =>
    have := n.toNat_lt
    rw [topBytes, ofBeBytes_nil, Nat.div_eq_of_lt (by omega)]
  | succ i ih =>
    have hn := n.toNat_lt
    have htop : (n >>> 56).toUInt8.toNat = n.toNat / 2 ^ 56 := by
      rw [UInt64.toNat_toUInt8, UInt64.toNat_shiftRight, Nat.shiftRight_eq_div_pow,
        show UInt64.toNat 56 % 64 = 56 from rfl]
      exact Nat.mod_eq_of_lt (by omega)
    have hnext : (n <<< 8).toNat = n.toNat * 256 % 2 ^ 64 := by
      rw [UInt64.toNat_shiftLeft, Nat.shiftLeft_eq]
      rfl
    rw [topBytes, ofBeBytes_cons, length_topBytes, ih (by omega), htop, hnext]
    have hlt : i < 8 := hi
    interval_cases i <;> omega

theorem ofBeBytes_topBytes_eight (n : UInt64) : ofBeBytes (topBytes 8 n) = n.toNat := by
  rw [ofBeBytes_topBytes le_rfl, Nat.sub_self, pow_zero, Nat.div_one]

/-! ## Conversions from integers -/

include hlib in
/-- A number of at most 256 bytes is a big number. -/
theorem isBigNum_of_lt {k : ℕ} (h : bn.natAbs < 256 ^ k) (hk : k ≤ 256) : lib.IsBigNum bn := by
  have hle := hlib.le_maxBits
  have hpow : 256 ^ k = 2 ^ (8 * k) := by
    rw [pow_mul]
    rfl
  rw [hpow] at h
  exact h.trans_le (Nat.pow_le_pow_right (by decide) (by omega))

include hlib in
/-- What is written by hand is read by the library. -/
theorem getD_writeBytes (self : ℤ) (fNegative : Bool) (hlen : l.length ≤ 32) :
    (lib.mpi2bn (sizeBytes (l.foldl (writeByte fNegative) (true, [])).2.length ++
        (l.foldl (writeByte fNegative) (true, [])).2)).getD self =
      if fNegative then -(ofBeBytes l : ℤ) else ofBeBytes l := by
  have hlength := length_writeBytes_le fNegative l
  have hlt := ofBeBytes_lt l
  have hbn : lib.IsBigNum (signed (l.foldl (writeByte fNegative) (true, [])).2) := by
    refine isBigNum_of_lt hlib (k := l.length) ?_ (by omega)
    rw [signed_writeBytes]
    split_ifs
    · rwa [Int.natAbs_neg, Int.natAbs_natCast]
    · rwa [Int.natAbs_natCast]
  rw [mpi2bn_sizeBytes hlib (by omega) hbn, Option.getD_some, signed_writeBytes]

/-- The magnitude of a negative number, found without leaving the type. -/
theorem toNat_magnitude_of_neg {sn : Int64} (h : sn < 0) :
    ((-(sn + 1)).toUInt64 + 1).toNat = sn.toInt.natAbs := by
  have hneg : sn.toInt < 0 := by simpa using Int64.lt_iff_toInt_lt.mp h
  have hlow := sn.le_toInt
  have hadd : (sn + 1).toInt = sn.toInt + 1 := by
    rw [Int64.toInt_add, Int64.toInt_one, Int.bmod_eq_of_le (by omega) (by omega)]
  have hminus : (-(sn + 1)).toInt = -(sn.toInt + 1) := by
    rw [Int64.toInt_neg, hadd, Int.bmod_eq_of_le (by omega) (by omega)]
  have hle : 0 ≤ -(sn + 1) := by
    rw [Int64.le_iff_toInt_le, hminus, Int64.toInt_zero]
    omega
  have hnat : (-(sn + 1)).toUInt64.toNat = (-(sn.toInt + 1)).toNat := by
    rw [Int64.toNat_toUInt64_of_le hle, ← hminus]
    rfl
  rw [UInt64.toNat_add, hnat, UInt64.toNat_one, Nat.mod_eq_of_lt (by omega)]
  omega

theorem toNat_magnitude_of_nonneg {sn : Int64} (h : ¬sn < 0) :
    sn.toUInt64.toNat = sn.toInt.natAbs := by
  have hle : 0 ≤ sn := Int64.not_lt.mp h
  have hpos : 0 ≤ sn.toInt := by simpa using Int64.le_iff_toInt_le.mp hle
  rw [Int64.toNat_toUInt64_of_le hle]
  show sn.toInt.toNat = _
  omega

include hlib in
theorem setint64_eq (self : ℤ) (sn : Int64) : lib.setint64 self sn = sn.toInt := by
  have hlt : sn < 0 ↔ sn.toInt < 0 := by rw [Int64.lt_iff_toInt_lt, Int64.toInt_zero]
  simp only [setint64, writeLoop_eq]
  rw [getD_writeBytes hlib self _ (by rw [length_topBytes]; decide), ofBeBytes_topBytes_eight]
  by_cases hneg : sn < 0
  · rw [if_pos (decide_eq_true hneg), if_pos hneg, toNat_magnitude_of_neg hneg]
    have := hlt.mp hneg
    omega
  · rw [if_neg (by simpa using hneg), if_neg hneg, toNat_magnitude_of_nonneg hneg]
    have := mt hlt.mpr hneg
    omega

include hlib in
theorem setuint64_eq (self : ℤ) (n : UInt64) : lib.setuint64 self n = n.toNat := by
  simp only [setuint64, writeLoop_eq]
  rw [getD_writeBytes hlib self _ (by rw [length_topBytes]; decide), ofBeBytes_topBytes_eight]
  exact if_neg Bool.false_ne_true

include hlib in
theorem setuint256_eq (self : ℤ) {n : Uint256} (hn : n < 2 ^ 256) :
    lib.setuint256 self n = (n : ℕ) := by
  have hbytes : ofBeBytes (leBytes 32 n).reverse = n := ofBeBytes_beBytes (k := 32) hn
  rw [setuint256, getD_writeBytes hlib self _ (by rw [List.length_reverse, leBytes_length]),
    hbytes]
  exact if_neg Bool.false_ne_true

/-! ## The value of a number of 256 bits -/

theorem ofLeBytes_append_zeros (l : List UInt8) (k : ℕ) :
    ofLeBytes (l ++ List.replicate k 0) = ofLeBytes l := by
  have hzeros : ∀ k, ofLeBytes (List.replicate k 0) = 0 := by
    intro k
    induction k with
    | zero => rfl
    | succ k ih => rw [List.replicate_succ, ofLeBytes, ih]; rfl
  rw [ofLeBytes_append, hzeros, Nat.mul_zero, Nat.add_zero]

/-- The first bytes stand for the remainder. -/
theorem ofLeBytes_take (l : List UInt8) (k : ℕ) : ofLeBytes (l.take k) = ofLeBytes l % 256 ^ k := by
  rcases Nat.lt_or_ge l.length k with hlt | hle
  · have hbelow : ofLeBytes l < 256 ^ k :=
      (ofLeBytes_lt l).trans_le (Nat.pow_le_pow_right (by decide) hlt.le)
    rw [List.take_of_length_le hlt.le, Nat.mod_eq_of_lt hbelow]
  · have hlength : (l.take k).length = k := List.length_take_of_le hle
    have hfirst := ofLeBytes_lt (l.take k)
    have hsplit : ofLeBytes l = ofLeBytes (l.take k) + 256 ^ k * ofLeBytes (l.drop k) := by
      conv_lhs => rw [← List.take_append_drop k l, ofLeBytes_append, hlength]
    rw [hlength] at hfirst
    rw [hsplit, Nat.add_mul_mod_self_left, Nat.mod_eq_of_lt hfirst]

/-- The loop copies the bytes after the length from the last one on, `todo`, and has copied `w`. -/
theorem copyLoop_eq {header : List UInt8} (hheader : header.length = 4) (k : ℕ)
    (todo rest w : List UInt8) :
    copyLoop (header ++ (todo.reverse ++ rest)) k w.length (3 + todo.length)
        (w ++ List.replicate k 0) =
      w ++ (todo.take k ++ List.replicate (k - todo.length) 0) := by
  induction k generalizing todo rest w with
  | zero => simp [copyLoop]
  | succ k ih =>
    cases todo with
    | nil => rw [copyLoop, if_neg (by simp)]; simp
    | cons c todo =>
      -- the byte that this round reads, and the place that it is written to
      have hbyte : (header ++ ((c :: todo).reverse ++ rest)).getD (3 + (c :: todo).length) 0 = c := by
        rw [List.length_cons, List.reverse_cons, List.getD_eq_getElem?_getD,
          List.getElem?_append_right (by omega), hheader, List.append_assoc,
          List.getElem?_append_right (by rw [List.length_reverse]; omega), List.length_reverse,
          show 3 + (todo.length + 1) - 4 - todo.length = 0 by omega]
        rfl
      have hset : (w ++ List.replicate (k + 1) 0).set w.length c =
          (w ++ [c]) ++ List.replicate k 0 := by
        rw [List.replicate_succ, List.set_append_right _ _ le_rfl, Nat.sub_self, List.set_cons_zero,
          List.append_assoc, List.singleton_append]
      have hrest : (c :: todo).reverse ++ rest = todo.reverse ++ (c :: rest) := by
        rw [List.reverse_cons, List.append_assoc, List.singleton_append]
      have hnext := ih todo (c :: rest) (w ++ [c])
      rw [List.length_append, List.length_singleton] at hnext
      rw [copyLoop, if_pos (by rw [List.length_cons]; omega), hbyte, hset, hrest, List.length_cons,
        show 3 + (todo.length + 1) - 1 = 3 + todo.length by omega, hnext]
      simp

/-- The bytes of a magnitude, with the sign bit cleared. -/
theorem ofBeBytes_clear_sign {c : UInt8} {l : List UInt8} (h : signed (c :: l) = bn) :
    ofBeBytes ((c &&& 0x7f) :: l) = bn.natAbs := by
  have hc := c.toNat_lt
  have hand : (c &&& 0x7f).toNat = c.toNat % 128 := by
    rw [UInt8.toNat_and]
    exact Nat.and_two_pow_sub_one_eq_mod c.toNat 7
  rw [signed_cons] at h
  rw [ofBeBytes_cons, hand]
  split_ifs at h with hsign
  · rw [show c.toNat % 128 = c.toNat - 128 by omega]
    omega
  · rw [Nat.mod_eq_of_lt (by omega)]
    omega

include hlib in
/-- The magnitude of a number, up to what 256 bits hold. -/
theorem getuint256_eq (hbn : lib.IsBigNum bn) : lib.getuint256 bn = bn.natAbs % 2 ^ 256 := by
  have hheader : (beBytes 4 (size bn.natAbs)).length = 4 := length_beBytes 4 _
  have hsigned := signed_body bn
  rw [getuint256, hlib.bn2mpi bn hbn, encode]
  cases hbody : body bn with
  | nil =>
    rw [hbody] at hsigned
    obtain rfl : bn = 0 := hsigned.symm
    simp only [List.append_nil, hheader, lt_self_iff_false, if_false]
    have hloop := copyLoop_eq hheader 32 [] [] []
    simp only [List.reverse_nil, List.append_nil, List.length_nil, List.nil_append] at hloop
    rw [hloop]
    rfl
  | cons c l =>
    rw [hbody] at hsigned
    -- the first byte of the magnitude is the fifth one, after the length
    have hset : (beBytes 4 (size bn.natAbs) ++ c :: l).set 4
        ((beBytes 4 (size bn.natAbs) ++ c :: l).getD 4 0 &&& 0x7f) =
        beBytes 4 (size bn.natAbs) ++ (c &&& 0x7f) :: l := by
      rw [List.set_append_right _ _ hheader.le, hheader, Nat.sub_self, List.set_cons_zero,
        List.getD_eq_getElem?_getD, List.getElem?_append_right hheader.le, hheader, Nat.sub_self]
      rfl
    have hlength : (beBytes 4 (size bn.natAbs) ++ c :: l).length = 4 + (l.length + 1) := by
      rw [List.length_append, hheader, List.length_cons]
    simp only [hset, hlength]
    rw [if_neg (by omega), if_pos (by omega), List.length_append, hheader, List.length_cons]
    have hloop := copyLoop_eq hheader 32 ((c &&& 0x7f) :: l).reverse [] []
    simp only [List.reverse_reverse, List.append_nil, List.length_nil, List.nil_append,
      List.length_reverse, List.length_cons] at hloop
    rw [show 4 + (l.length + 1) - 1 = 3 + (l.length + 1) by omega, hloop, ofLeBytes_append_zeros,
      ofLeBytes_take]
    exact congrArg (· % 2 ^ 256) (ofBeBytes_clear_sign hsigned)

/-! ## Byte vectors -/

include hlib in
theorem getvch_eq (hbn : lib.IsBigNum bn) : lib.getvch bn = (body bn).reverse := by
  rw [getvch, hlib.bn2mpi bn hbn, drop_encode, length_encode]
  by_cases hzero : size bn.natAbs = 0
  · have hnil : body bn = [] := List.length_eq_zero_iff.mp (by rw [length_body, hzero])
    rw [if_pos (by omega), hnil]
    rfl
  · rw [if_neg (by omega)]

include hlib in
theorem size_lt_of_isBigNum (hbn : lib.IsBigNum bn) : size bn.natAbs < 2 ^ 32 := by
  have hle : size bn.natAbs ≤ lib.maxBits / 8 + 1 := by
    refine size_le ?_
    calc 2 * bn.natAbs < 2 * 2 ^ lib.maxBits := by
          have : bn.natAbs < 2 ^ lib.maxBits := hbn
          omega
      _ = 2 ^ (lib.maxBits + 1) := (pow_succ' _ _).symm
      _ ≤ 2 ^ (8 * (lib.maxBits / 8 + 1)) := Nat.pow_le_pow_right (by decide) (by omega)
      _ = 256 ^ (lib.maxBits / 8 + 1) := by rw [pow_mul]; rfl
  have := hlib.maxBits_lt
  omega

include hlib in
theorem setvch_getvch (self : ℤ) (hbn : lib.IsBigNum bn) :
    lib.setvch self (lib.getvch bn) = bn := by
  have hread := mpi2bn_sizeBytes hlib (l := body bn)
    (by rw [length_body]; exact size_lt_of_isBigNum hlib hbn) (by rwa [signed_body])
  rw [getvch_eq hlib hbn, setvch, List.reverse_reverse, List.length_reverse, hread,
    Option.getD_some, signed_body]

theorem readLE_eq_ofLeBytes (vch : List UInt8) : readLE vch = ofLeBytes vch := by
  induction vch with
  | nil => rfl
  | cons c vch ih => rw [readLE, ofLeBytes, ih]

include hlib in
/-- The numbers of the script interpreter are read by the library. -/
theorem setvch_eq (self : ℤ) {vch : List UInt8} (hlen : vch.length ≤ 256) :
    lib.setvch self vch = FoxCoin.setvch vch := by
  have hbn : lib.IsBigNum (signed vch.reverse) :=
    isBigNum_of_lt hlib (natAbs_signed_lt _) (by rwa [List.length_reverse])
  have hread := mpi2bn_sizeBytes hlib (by rw [List.length_reverse]; omega) hbn
  rw [List.length_reverse] at hread
  rw [setvch, hread, Option.getD_some, signed, ofBeBytes, List.reverse_reverse,
    List.length_reverse, FoxCoin.setvch, readLE_eq_ofLeBytes]
  simp only [ne_eq, List.reverse_eq_nil_iff]

include hlib in
/-- They are written by the library. -/
theorem getvch_eq_getvch (hbn : lib.IsBigNum bn) : lib.getvch bn = FoxCoin.getvch bn := by
  rw [getvch_eq hlib hbn, body, beBytes, List.reverse_reverse]
  rfl

/-- Bytes are the shortest little-endian form of a number, with its sign in the topmost bit. -/
structure IsShortest (vch : List UInt8) (bn : ℤ) : Prop where
  value : signed vch.reverse = bn
  shortest : ∀ vch' : List UInt8, signed vch'.reverse = bn → vch.length ≤ vch'.length
  unique : ∀ vch' : List UInt8, signed vch'.reverse = bn → vch'.length = vch.length → vch' = vch

include hlib in
theorem getvch_isShortest (hbn : lib.IsBigNum bn) : IsShortest (lib.getvch bn) bn := by
  rw [getvch_eq hlib hbn]
  have hlength : (body bn).reverse.length = size bn.natAbs := by
    rw [List.length_reverse, length_body]
  refine ⟨by rw [List.reverse_reverse, signed_body], fun vch' h => ?_, fun vch' h hlen => ?_⟩
  · have hsize := size_le_of_signed h
    rwa [hlength, ← @List.length_reverse _ vch']
  · rw [hlength, ← @List.length_reverse _ vch'] at hlen
    rw [← eq_body_of_signed h hlen, List.reverse_reverse]

/-- **The conversions of big numbers are exact.** -/
theorem conversions_exact {lib : BnMpi} (hlib : lib.Documented) (self : ℤ) :
    (∀ sn : Int64, lib.setint64 self sn = sn.toInt) ∧
      (∀ n : UInt64, lib.setuint64 self n = n.toNat) ∧
      (∀ n : Uint256, n < 2 ^ 256 → lib.setuint256 self n = (n : ℕ) ∧
        lib.getuint256 (lib.setuint256 self n) = n) ∧
      ∀ bn, lib.IsBigNum bn →
        lib.setvch self (lib.getvch bn) = bn ∧ IsShortest (lib.getvch bn) bn := by
  refine ⟨setint64_eq hlib self, setuint64_eq hlib self, fun n hn => ?_, fun bn hbn => ?_⟩
  · have hset := setuint256_eq hlib self hn
    have hbn : lib.IsBigNum ((n : ℕ) : ℤ) :=
      isBigNum_of_lt hlib (k := 32) hn (by decide)
    refine ⟨hset, ?_⟩
    rw [hset, getuint256_eq hlib hbn, Int.natAbs_natCast]
    exact Nat.mod_eq_of_lt hn
  · exact ⟨setvch_getvch hlib self hbn, getvch_isShortest hlib hbn⟩

/-- A library that writes and reads the format. -/
def format : BnMpi where
  maxBits := 2 ^ 31 - 1
  bn2mpi := encode
  mpi2bn := decode

theorem format_documented : format.Documented where
  le_maxBits := by decide
  maxBits_lt := by decide
  bn2mpi _ _ := rfl
  mpi2bn _ _ h _ := h

/-- Such a library converts exactly. -/
theorem conversions_exact_format :
    (∀ sn : Int64, format.setint64 0 sn = sn.toInt) ∧
      (∀ n : UInt64, format.setuint64 0 n = n.toNat) ∧
      (∀ n : Uint256, n < 2 ^ 256 → format.setuint256 0 n = (n : ℕ) ∧
        format.getuint256 (format.setuint256 0 n) = n) ∧
      ∀ bn, format.IsBigNum bn →
        format.setvch 0 (format.getvch bn) = bn ∧ IsShortest (format.getvch bn) bn :=
  conversions_exact format_documented 0

end BnMpi

end FoxCoin
