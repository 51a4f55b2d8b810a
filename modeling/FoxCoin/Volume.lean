import FoxCoin.Supply

/-! # The total volume

The statistics page shows how many coins there are, by a closed form of the sum of all subsidies.
The subsidies fall by the same amount from block to block up to a height, and are constant from
there on; the closed form takes the wrong height for it. -/

namespace FoxCoin

/-! ## The code -/

/-- `getTotalVolume` at the height of `pindexBest`. The products of `double` values are read as the
exact rationals, and the second branch is arithmetic on `int`. -/
def getTotalVolume (nHeight : ℕ) : ℤ :=
  if nHeight < 196000 then
    int32 (truncate (nHeight * (250 - (nHeight * (625 / 10000000) + 625 / 10000000))))
  else int32 (1960000 * (250 - 120) + 5 * (nHeight - 1960000))

/-- `getReward` at the height of `pindexBest`. -/
def getReward (nHeight : ℕ) : ℚ :=
  if nHeight < 1960000 then 250 - nHeight * (125 / 1000000) else 5

/-! ## Sums of subsidies -/

/-- **The reward is the subsidy in coins.** -/
theorem getReward_eq (nHeight : ℕ) : getReward nHeight = (getBlockValue nHeight 0 : ℚ) / coin := by
  have hcoin : (coin : ℚ) ≠ 0 := by
    norm_num [coin]
  rw [eq_div_iff hcoin, getReward, getBlockValue_eq]
  split_ifs with h
  · rw [int64_eq_self (by omega) (by omega)]
    push_cast [coin]
    ring
  · rw [int64_eq_self (by omega) (by omega)]
    norm_num [coin]

/-- The sum of all rewards up to a height. -/
def volume (nHeight : ℕ) : ℚ := (Finset.Icc 1 nHeight).sum fun k => (getBlockValue k 0 : ℚ) / coin

theorem volume_succ (n : ℕ) : volume (n + 1) = volume n + getReward (n + 1) := by
  rw [volume, Finset.sum_Icc_succ_top (by omega), getReward_eq, volume]

/-- **The closed form while the subsidy falls.** -/
theorem volume_of_lt {nHeight : ℕ} (h : nHeight < 1960000) :
    volume nHeight = nHeight * (250 - (nHeight + 1) / 16000) := by
  induction nHeight with
  | zero => simp [volume]
  | succ n ih =>
    rw [volume_succ, ih (by omega), getReward, if_pos h]
    push_cast
    ring

/-- **The closed form from where the subsidy is constant.** -/
theorem volume_of_ge {nHeight : ℕ} (h : 1960000 ≤ nHeight) :
    volume nHeight = 240099877 + 1 / 2 + 5 * nHeight := by
  induction nHeight, h using Nat.le_induction with
  | base =>
    rw [volume_succ 1959999, volume_of_lt (by omega), getReward, if_neg (by omega)]
    norm_num
  | succ n hn ih =>
    rw [volume_succ, ih, getReward, if_neg (by omega)]
    push_cast
    ring

/-! ## What is shown -/

/-- Truncation of what is not negative rounds down. -/
theorem truncate_eq_floor {q : ℚ} (h : 0 ≤ q) : truncate q = ⌊q⌋ := by
  rw [truncate, Int.tdiv_eq_ediv_of_nonneg (Rat.num_nonneg.mpr h), ← Rat.floor_def']

/-- Below the height in the code, its closed form is that of the sum. -/
theorem getTotalVolume_of_lt {nHeight : ℕ} (h : nHeight < 196000) :
    getTotalVolume nHeight = truncate (volume nHeight) := by
  have hvolume := volume_of_lt (show nHeight < 1960000 by omega)
  have hcast : (nHeight : ℚ) < 196000 := by exact_mod_cast h
  have hpos : (0 : ℚ) ≤ nHeight := Nat.cast_nonneg _
  have heq : (nHeight : ℚ) * (250 - (nHeight * (625 / 10000000) + 625 / 10000000)) =
      volume nHeight := by
    rw [hvolume]
    ring
  have hlow : 0 ≤ volume nHeight := by
    rw [hvolume]
    apply mul_nonneg hpos
    linarith
  have hhigh : volume nHeight < 250 * 196000 := by
    rw [hvolume]
    nlinarith
  rw [getTotalVolume, if_pos h, heq, truncate_eq_floor hlow, int32_eq_self]
  · have := Int.floor_nonneg.mpr hlow
    omega
  · have := Int.floor_lt.mpr (hhigh.trans_eq (by norm_num : (250 * 196000 : ℚ) = (49000000 : ℤ)))
    omega

/-- **From there on it is too much**, as long as the subsidy falls. -/
theorem volume_lt {nHeight : ℕ} (h : nHeight < 1960000) :
    volume nHeight < 245000000 + 5 * nHeight := by
  rw [volume_of_lt h]
  nlinarith [sq_nonneg ((nHeight : ℚ) - 1959999)]

theorem getTotalVolume_of_ge {nHeight : ℕ} (h : 196000 ≤ nHeight) :
    getTotalVolume nHeight = int32 (245000000 + 5 * nHeight) := by
  rw [getTotalVolume, if_neg (by omega)]
  congr 1
  ring

theorem getTotalVolume_ne {nHeight : ℕ} (h : 196000 ≤ nHeight) :
    getTotalVolume nHeight ≠ truncate (volume nHeight) := by
  have hpos : (0 : ℚ) ≤ nHeight := Nat.cast_nonneg _
  rw [getTotalVolume_of_ge h]
  rcases Nat.lt_or_ge nHeight 1960000 with hlt | hge
  · have hcast : (nHeight : ℚ) < 1960000 := by exact_mod_cast hlt
    have hlow : 0 ≤ volume nHeight := by
      rw [volume_of_lt hlt]
      apply mul_nonneg hpos
      linarith
    have hfloor : ⌊volume nHeight⌋ < 245000000 + 5 * nHeight := by
      rw [Int.floor_lt]
      push_cast
      exact volume_lt hlt
    rw [truncate_eq_floor hlow, int32_eq_self (by omega) (by omega)]
    omega
  · -- the difference is no multiple of `2 ^ 32`
    have hlow : 0 ≤ volume nHeight := by
      rw [volume_of_ge hge]
      positivity
    have hfloor : ⌊volume nHeight⌋ = 240099877 + 5 * nHeight := by
      rw [volume_of_ge hge, Int.floor_eq_iff]
      push_cast
      constructor
      · linarith
      · linarith
    rw [truncate_eq_floor hlow, hfloor, int32, Int.bmod_def]
    omega

/-- **The closed form is the sum of the subsidies below height 196000, and nowhere else.** -/
theorem getTotalVolume_eq_iff (nHeight : ℕ) :
    getTotalVolume nHeight =
        truncate ((Finset.Icc 1 nHeight).sum fun k => (getBlockValue k 0 : ℚ) / coin) ↔
      nHeight < 196000 := by
  refine ⟨fun heq => ?_, getTotalVolume_of_lt⟩
  by_contra hge
  exact getTotalVolume_ne (not_lt.mp hge) heq

/-- At the height where the code changes its formula, 245980000 coins are shown instead of
46598987. -/
theorem not_getTotalVolume_eq : ¬∀ nHeight : ℕ, getTotalVolume nHeight =
    truncate ((Finset.Icc 1 nHeight).sum fun k => (getBlockValue k 0 : ℚ) / coin) :=
  fun hall => getTotalVolume_ne le_rfl (hall 196000)

end FoxCoin
