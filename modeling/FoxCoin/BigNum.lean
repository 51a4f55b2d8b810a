import FoxCoin.DataModel
import FoxCoin.Lib.Mpi

/-! # Compact targets

`CBigNum` is an arbitrary-precision integer, here `ℤ`; division truncates towards zero. Targets are
stored in blocks in the compact form read by `SetCompact`: one size byte and three bytes of
sign and mantissa. -/

namespace FoxCoin

/-- `CBigNum::SetCompact`: the integer with `nCompact >> 24` big-endian bytes, of which the first
three are the low bytes of `nCompact`; the top bit of the first byte is the sign. -/
def setCompact (nCompact : ℕ) : ℤ :=
  let nSize := nCompact / 2 ^ 24
  let nWord := nCompact % 2 ^ 24
  let nMantissa := nWord % 2 ^ 23
  let n : ℕ := if nSize ≤ 3 then nMantissa / 256 ^ (3 - nSize) else nMantissa * 256 ^ (nSize - 3)
  if 2 ^ 23 ≤ nWord then -(n : ℤ) else n

/-- The number of bytes `BN_bn2mpi` writes for a magnitude: enough to leave the sign bit free. -/
def mpiSize (n : ℕ) : ℕ := if n = 0 then 0 else (Nat.log2 n + 1) / 8 + 1

/-- `CBigNum::GetCompact`: the size byte and the first three bytes of the big-endian form. -/
def getCompact (bn : ℤ) : ℕ :=
  let n := bn.natAbs
  let nSize := mpiSize n
  let nMantissa := if nSize ≤ 3 then n * 256 ^ (3 - nSize) else n / 256 ^ (nSize - 3)
  nSize * 2 ^ 24 + (if bn < 0 then 2 ^ 23 else 0) + nMantissa

/-! ## Encoding and decoding -/

/-- The bytes of a magnitude hold it, with its sign bit, and not one byte too many. -/
theorem mpiSize_spec {n : ℕ} (h : n ≠ 0) :
    0 < mpiSize n ∧ 256 ^ (mpiSize n - 1) ≤ 2 * n ∧ 2 * n < 256 ^ mpiSize n := Mpi.size_spec h

/-- The compact form of a size and a mantissa without a sign bit is decoded. -/
theorem setCompact_of_mantissa {nSize nMantissa : ℕ} (h : nMantissa < 2 ^ 23) :
    setCompact (nSize * 2 ^ 24 + nMantissa) =
      (if nSize ≤ 3 then nMantissa / 256 ^ (3 - nSize) else nMantissa * 256 ^ (nSize - 3) : ℕ) := by
  have hsize : (nSize * 2 ^ 24 + nMantissa) / 2 ^ 24 = nSize := by omega
  have hword : (nSize * 2 ^ 24 + nMantissa) % 2 ^ 24 = nMantissa := by omega
  simp only [setCompact, hsize, hword, Nat.mod_eq_of_lt h, if_neg (not_le.mpr h)]

/-- The mantissa leaves the sign bit free. -/
theorem mantissa_lt {n : ℕ} (h : n ≠ 0) :
    (if mpiSize n ≤ 3 then n * 256 ^ (3 - mpiSize n) else n / 256 ^ (mpiSize n - 3)) < 2 ^ 23 := by
  obtain ⟨hpos, -, hhigh⟩ := mpiSize_spec h
  generalize mpiSize n = s at hpos hhigh
  split_ifs with hs
  · interval_cases s <;> omega
  · obtain ⟨k, rfl⟩ : ∃ k, s = k + 3 := ⟨s - 3, by omega⟩
    rw [Nat.add_sub_cancel]
    refine Nat.div_lt_of_lt_mul ?_
    have : 256 ^ (k + 3) = 256 ^ k * 2 ^ 24 := by ring
    omega

/-- The compact form of a number keeps its first three bytes. -/
theorem setCompact_getCompact (n : ℕ) :
    setCompact (getCompact n) = (if mpiSize n ≤ 3 then n
      else n / 256 ^ (mpiSize n - 3) * 256 ^ (mpiSize n - 3) : ℕ) := by
  by_cases hn : n = 0
  · rw [hn]
    decide
  · simp only [getCompact, Int.natAbs_natCast, if_neg (not_lt.mpr (Int.natCast_nonneg n)),
      Nat.add_zero]
    rw [setCompact_of_mantissa (mantissa_lt hn)]
    split_ifs
    · rw [Nat.mul_div_cancel _ (Nat.pow_pos (by omega))]
    · rfl

/-- **Encoding in the compact form only drops low bytes**: a positive integer stays positive and
does not grow. -/
theorem setCompact_getCompact_bounds {bn : ℤ} (h : 0 < bn) :
    0 < setCompact (getCompact bn) ∧ setCompact (getCompact bn) ≤ bn := by
  obtain ⟨n, rfl⟩ := Int.eq_ofNat_of_zero_le h.le
  have hn : n ≠ 0 := by
    rintro rfl
    simp at h
  obtain ⟨hpos, hlow, -⟩ := mpiSize_spec hn
  rw [setCompact_getCompact]
  generalize mpiSize n = s at hpos hlow
  by_cases hs : s ≤ 3
  · rw [if_pos hs]
    exact ⟨h, le_rfl⟩
  · -- the low bytes are dropped, and the first byte is not zero
    obtain ⟨k, rfl⟩ : ∃ k, s = k + 4 := ⟨s - 4, by omega⟩
    have hk : 0 < 256 ^ (k + 1) := Nat.pow_pos (by omega)
    have hnonzero : 0 < n / 256 ^ (k + 1) := by
      refine Nat.div_pos ?_ hk
      have : 256 ^ (k + 4 - 1) = 256 ^ (k + 1) * 65536 := by
        rw [show k + 4 - 1 = k + 1 + 2 by omega]; ring
      omega
    rw [if_neg hs, show k + 4 - 3 = k + 1 by omega]
    constructor
    · exact_mod_cast Nat.mul_pos hnonzero hk
    · exact_mod_cast Nat.div_mul_le_self n _

/-! ## Proof of work -/

/-- `bnProofOfWorkLimit`: `~uint256(0) >> 20`. -/
def bnProofOfWorkLimit : ℤ := 2 ^ 236 - 1

/-- The proof-of-work limit in compact form. -/
def nProofOfWorkLimit : ℕ := getCompact bnProofOfWorkLimit

example : nProofOfWorkLimit = 0x1e0fffff := by decide +kernel

/-- The hash does not exceed the target, and the target is positive and within the limit. -/
def checkProofOfWork (hash : Uint256) (nBits : ℕ) : Except Reject Unit := do
  let bnTarget := setCompact nBits
  Checked.ensure (decide (0 < bnTarget) && decide (bnTarget ≤ bnProofOfWorkLimit))
    ⟨0, "CheckProofOfWork() : nBits below minimum work"⟩
  Checked.ensure (decide (hash ≤ bnTarget.toNat))
    ⟨0, "CheckProofOfWork() : hash doesn't match nBits"⟩

/-- Proof of work is accepted exactly when the target is in range and the hash reaches it. -/
theorem checkProofOfWork_eq_ok {hash : Uint256} {nBits : ℕ} {u : Unit} :
    checkProofOfWork hash nBits = .ok u ↔
      (0 < setCompact nBits ∧ setCompact nBits ≤ bnProofOfWorkLimit) ∧
        hash ≤ (setCompact nBits).toNat := by
  simp [checkProofOfWork, Checked.ensure_bind_eq_ok]

/-- `CBlockIndex::GetBlockWork`: the expected number of hashes for a block with these `nBits`. -/
def getBlockWork (nBits : ℕ) : ℕ :=
  let bnTarget := setCompact nBits
  if bnTarget ≤ 0 then 0 else 2 ^ 256 / (bnTarget.toNat + 1)

/-- A block whose target is in range has positive work. -/
theorem getBlockWork_pos {nBits : ℕ} (hpos : 0 < setCompact nBits)
    (hlim : setCompact nBits ≤ bnProofOfWorkLimit) : 0 < getBlockWork nBits := by
  have hle : (setCompact nBits).toNat + 1 ≤ 2 ^ 256 := by
    have : setCompact nBits ≤ 2 ^ 236 - 1 := hlim
    omega
  rw [getBlockWork, if_neg (not_le.mpr hpos)]
  exact Nat.div_pos hle (Nat.succ_pos _)

end FoxCoin
