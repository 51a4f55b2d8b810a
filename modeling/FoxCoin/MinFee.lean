import FoxCoin.Lib.Machine
import FoxCoin.PoolAccept

/-! # The least fee in machine arithmetic

`GetMinFee` adds unsigned sizes and multiplies signed amounts. For the sizes a block can have it
computes the exact amount: every intermediate result fits, and the divisor, the room left in the
block, is positive. -/

namespace FoxCoin

open Checked Machine

/-- `GetMinFee_mode`. -/
inductive GetMinFeeMode where
  | gmfBlock
  | gmfRelay
  | gmfSend
  deriving DecidableEq, Repr

/-- `MIN_TX_FEE`. -/
def minTxFee : ℤ := 10000

/-- The base fee of a mode. -/
def GetMinFeeMode.nBaseFee : GetMinFeeMode → ℤ
  | gmfRelay => minRelayTxFee
  | gmfBlock | gmfSend => minTxFee

theorem GetMinFeeMode.nBaseFee_eq (mode : GetMinFeeMode) : mode.nBaseFee = minRelayTxFee := by
  cases mode <;> rfl

/-- One round of the loop of `GetMinFee` over the outputs. -/
def addDustFee (nBaseFee nMinFee : ℤ) (txout : CTxOut) : Arith ℤ :=
  if txout.nValue < cent then toInt64 (nMinFee + nBaseFee) else pure nMinFee

/-- The end of `GetMinFee`: the price is raised as the block approaches full, and an amount out of
range is replaced by the largest one. -/
def raisePrice (nBlockSize nNewBlockSize : ℕ) (nMinFee : ℤ) : Arith ℤ :=
  if nBlockSize ≠ 1 ∧ maxBlockSizeGen / 2 ≤ nNewBlockSize then
    if maxBlockSizeGen ≤ nNewBlockSize then pure maxMoney
    else do
      let nRoom ← toUInt32 ((maxBlockSizeGen : ℤ) - nNewBlockSize)
      let nFactor ← div maxBlockSizeGen nRoom
      let nMinFee ← toInt64 (nMinFee * nFactor)
      pure (if moneyRange nMinFee then nMinFee else maxMoney)
  else pure (if moneyRange nMinFee then nMinFee else maxMoney)

/-- `CTransaction::GetMinFee`, operation by operation. -/
def CTransaction.minFeeArith (mode : GetMinFeeMode) (nBlockSize : ℕ) (fAllowFree : Bool)
    (tx : CTransaction) : Arith ℤ := do
  let nBaseFee := mode.nBaseFee
  let nBytes ← toUInt32 tx.getSerializeSize
  let nNewBlockSize ← toUInt32 (nBlockSize + nBytes : ℕ)
  let nThousands ← toInt64 (1 + (nBytes / 1000 : ℕ))
  let nMinFee ← toInt64 (nThousands * nBaseFee)
  let nMinFee :=
    if fAllowFree then
      if nBlockSize = 1 then
        if nBytes < 10000 then 0 else nMinFee
      else
        if nNewBlockSize < 27000 then 0 else nMinFee
    else nMinFee
  let nMinFee ← tx.vout.foldlM (addDustFee nBaseFee) nMinFee
  raisePrice nBlockSize nNewBlockSize nMinFee

/-! ## Bounds -/

/-- An output takes at least nine bytes. -/
theorem CTxOut.nine_le_getSerializeSize (txout : CTxOut) : 9 ≤ txout.getSerializeSize := by
  have := getSizeOfCompactSize_pos txout.scriptPubKey.length
  unfold getSerializeSize
  omega

/-- The number of outputs is bounded by the size of the transaction. -/
theorem CTransaction.length_vout_le (tx : CTransaction) :
    9 * tx.vout.length ≤ tx.getSerializeSize := by
  have hsum : ∀ l : List CTxOut, 9 * l.length ≤ (l.map CTxOut.getSerializeSize).sum := by
    intro l
    induction l with
    | nil => simp
    | cons txout l ih =>
      have := txout.nine_le_getSerializeSize
      simp only [List.length_cons, List.map_cons, List.sum_cons]
      omega
  have := hsum tx.vout
  unfold getSerializeSize
  omega

/-- The surcharge of the loop over the outputs. -/
def dustFee (vout : List CTxOut) : ℤ :=
  vout.countP (fun txout => decide (txout.nValue < cent)) * minRelayTxFee

theorem dustFee_cons (txout : CTxOut) (vout : List CTxOut) :
    dustFee (txout :: vout) =
      (if txout.nValue < cent then minRelayTxFee else 0) + dustFee vout := by
  unfold dustFee
  by_cases h : txout.nValue < cent
  · rw [List.countP_cons_of_pos (by simpa using h), if_pos h]
    push_cast
    ring
  · rw [List.countP_cons_of_neg (by simpa using h), if_neg h, zero_add]

theorem dustFee_nonneg (vout : List CTxOut) : 0 ≤ dustFee vout := by
  unfold dustFee minRelayTxFee
  positivity

theorem dustFee_le (vout : List CTxOut) : dustFee vout ≤ vout.length * minRelayTxFee := by
  have : vout.countP (fun txout => decide (txout.nValue < cent)) ≤ vout.length := List.countP_le_length
  unfold dustFee minRelayTxFee
  omega

/-- The loop over the outputs adds the surcharge, where the sum fits. -/
theorem foldlM_addDustFee {vout : List CTxOut} {nMinFee : ℤ} (hfee : 0 ≤ nMinFee)
    (hfit : nMinFee + dustFee vout < 2 ^ 63) :
    vout.foldlM (addDustFee minRelayTxFee) nMinFee = .ok (nMinFee + dustFee vout) := by
  induction vout generalizing nMinFee with
  | nil => simp [dustFee, pure, Except.pure]
  | cons txout vout ih =>
    have hdust := dustFee_nonneg vout
    rw [dustFee_cons] at hfit ⊢
    refine foldlM_cons_eq_ok.mpr ⟨nMinFee + if txout.nValue < cent then minRelayTxFee else 0, ?_, ?_⟩
    · unfold addDustFee
      split_ifs with h
      · rw [if_pos h] at hfit
        unfold minRelayTxFee at hfit ⊢
        exact toInt64_eq (by omega) (by omega)
      · rw [add_zero]
        rfl
    · have hstep : 0 ≤ (if txout.nValue < cent then minRelayTxFee else 0) := by
        unfold minRelayTxFee
        split_ifs <;> omega
      rw [ih (by omega) (by omega), add_assoc]

/-- Whether a transaction is small enough to be free. -/
def CTransaction.inFreeArea (nBlockSize : ℕ) (tx : CTransaction) : Bool :=
  if nBlockSize = 1 then decide (tx.getSerializeSize < 10000)
  else decide (nBlockSize + tx.getSerializeSize < 27000)

/-- What `GetMinFee` charges for the size. -/
def CTransaction.sizeFee (nBlockSize : ℕ) (fAllowFree : Bool) (tx : CTransaction) : ℤ :=
  if fAllowFree && tx.inFreeArea nBlockSize then 0
  else (1 + (tx.getSerializeSize / 1000 : ℕ)) * minRelayTxFee

/-- The multiplier of a block that approaches its full size. -/
def fullFactor (nNewBlockSize : ℕ) : ℤ :=
  if maxBlockSizeGen / 2 ≤ nNewBlockSize then
    (maxBlockSizeGen / (maxBlockSizeGen - nNewBlockSize) : ℕ)
  else 1

/-- The amount that is charged in place of one out of range. -/
def clampMoney (n : ℤ) : ℤ := if moneyRange n then n else maxMoney

theorem clampMoney_eq {n : ℤ} (h : 0 ≤ n) : clampMoney n = min n maxMoney := by
  unfold clampMoney
  by_cases hn : n ≤ maxMoney
  · rw [if_pos (moneyRange_iff.mpr ⟨h, hn⟩), min_eq_left hn]
  · rw [if_neg (by rw [moneyRange_iff]; omega), min_eq_right (by omega)]

/-- `GetMinFee` in its three parts. -/
theorem CTransaction.getMinFee_eq (nBlockSize : ℕ) (fAllowFree : Bool) (tx : CTransaction) :
    tx.getMinFee nBlockSize fAllowFree =
      if nBlockSize ≠ 1 ∧ maxBlockSizeGen ≤ nBlockSize + tx.getSerializeSize then maxMoney
      else clampMoney ((tx.sizeFee nBlockSize fAllowFree + dustFee tx.vout) *
        if nBlockSize ≠ 1 then fullFactor (nBlockSize + tx.getSerializeSize) else 1) := by
  unfold getMinFee sizeFee inFreeArea dustFee clampMoney fullFactor
  by_cases hone : nBlockSize = 1
  · simp [hone]
  · by_cases hfull : maxBlockSizeGen / 2 ≤ nBlockSize + tx.getSerializeSize
    · simp [hone, hfull]
    · simp [hone, hfull]

theorem CTransaction.sizeFee_bounds (nBlockSize : ℕ) (fAllowFree : Bool) (tx : CTransaction) :
    0 ≤ tx.sizeFee nBlockSize fAllowFree ∧ tx.sizeFee nBlockSize fAllowFree ≤
      (1 + (tx.getSerializeSize / 1000 : ℕ)) * minRelayTxFee := by
  have hpositive : 0 ≤ (1 + ((tx.getSerializeSize / 1000 : ℕ) : ℤ)) * minRelayTxFee := by
    unfold minRelayTxFee
    positivity
  unfold sizeFee
  split
  · exact ⟨le_rfl, hpositive⟩
  · exact ⟨hpositive, le_rfl⟩

/-- The factor is at least one, and at most the size of a full block. -/
theorem fullFactor_bounds {n : ℕ} (h : n < maxBlockSizeGen) :
    1 ≤ fullFactor n ∧ fullFactor n ≤ maxBlockSizeGen := by
  unfold fullFactor
  split_ifs
  · have hlow : 1 ≤ maxBlockSizeGen / (maxBlockSizeGen - n) :=
      (Nat.one_le_div_iff (by omega)).mpr (Nat.sub_le _ _)
    have hhigh := Nat.div_le_self maxBlockSizeGen (maxBlockSizeGen - n)
    exact ⟨by exact_mod_cast hlow, by exact_mod_cast hhigh⟩
  · exact ⟨le_rfl, by decide⟩

theorem fullFactor_mono {m n : ℕ} (h : m ≤ n) (hn : n < maxBlockSizeGen) :
    fullFactor m ≤ fullFactor n := by
  by_cases hm : maxBlockSizeGen / 2 ≤ m
  · unfold fullFactor
    rw [if_pos hm, if_pos (hm.trans h)]
    exact_mod_cast Nat.div_le_div_left (by omega) (by omega)
  · calc fullFactor m = 1 := if_neg hm
      _ ≤ fullFactor n := (fullFactor_bounds hn).1

theorem CTransaction.sizeFee_mono {m n : ℕ} (hm : 2 ≤ m) (h : m ≤ n) (fAllowFree : Bool)
    (tx : CTransaction) : tx.sizeFee m fAllowFree ≤ tx.sizeFee n fAllowFree := by
  have harea : tx.inFreeArea n = true → tx.inFreeArea m = true := by
    unfold inFreeArea
    rw [if_neg (by omega), if_neg (by omega), decide_eq_true_eq, decide_eq_true_eq]
    omega
  by_cases hfree : (fAllowFree && tx.inFreeArea m) = true
  · calc tx.sizeFee m fAllowFree = 0 := if_pos hfree
      _ ≤ tx.sizeFee n fAllowFree := (tx.sizeFee_bounds n fAllowFree).1
  · have hfree' : ¬(fAllowFree && tx.inFreeArea n) = true := by
      rw [Bool.and_eq_true] at hfree ⊢
      exact fun hboth => hfree ⟨hboth.1, harea hboth.2⟩
    unfold sizeFee
    rw [if_neg hfree, if_neg hfree']

theorem clampMoney_range (n : ℤ) : 0 ≤ clampMoney n ∧ clampMoney n ≤ maxMoney := by
  unfold clampMoney
  split_ifs with h
  · exact moneyRange_iff.mp h
  · exact ⟨by decide, le_rfl⟩

theorem CTransaction.getMinFee_range (nBlockSize : ℕ) (fAllowFree : Bool) (tx : CTransaction) :
    0 ≤ tx.getMinFee nBlockSize fAllowFree ∧ tx.getMinFee nBlockSize fAllowFree ≤ maxMoney := by
  rw [getMinFee_eq]
  split
  · exact ⟨by decide, le_rfl⟩
  · exact clampMoney_range _

/-- **The least fee grows with the block.** -/
theorem CTransaction.getMinFee_mono {m n : ℕ} (hm : 2 ≤ m) (h : m ≤ n) (fAllowFree : Bool)
    (tx : CTransaction) : tx.getMinFee m fAllowFree ≤ tx.getMinFee n fAllowFree := by
  by_cases hfull : maxBlockSizeGen ≤ n + tx.getSerializeSize
  · rw [getMinFee_eq n, if_pos ⟨by omega, hfull⟩]
    exact (tx.getMinFee_range m fAllowFree).2
  have hdust := dustFee_nonneg tx.vout
  have hsize := (tx.sizeFee_bounds m fAllowFree).1
  have hsizes := tx.sizeFee_mono hm h fAllowFree
  have hfactor : fullFactor (m + tx.getSerializeSize) ≤ fullFactor (n + tx.getSerializeSize) :=
    fullFactor_mono (by omega) (by omega)
  have hpos := (fullFactor_bounds (n := m + tx.getSerializeSize) (by omega)).1
  have hproduct : (tx.sizeFee m fAllowFree + dustFee tx.vout) *
        fullFactor (m + tx.getSerializeSize) ≤
      (tx.sizeFee n fAllowFree + dustFee tx.vout) * fullFactor (n + tx.getSerializeSize) :=
    mul_le_mul (by omega) hfactor (by omega) (by omega)
  have hleft : 0 ≤ (tx.sizeFee m fAllowFree + dustFee tx.vout) *
      fullFactor (m + tx.getSerializeSize) := mul_nonneg (by omega) (by omega)
  have hopen : ∀ k, k ≤ n → ¬(k ≠ 1 ∧ maxBlockSizeGen ≤ k + tx.getSerializeSize) := by
    intro k hk
    omega
  rw [getMinFee_eq m, getMinFee_eq n, if_neg (hopen m h), if_neg (hopen n le_rfl),
    if_pos (show m ≠ 1 by omega), if_pos (show n ≠ 1 by omega), clampMoney_eq hleft,
    clampMoney_eq (hleft.trans hproduct)]
  exact min_le_min_right _ hproduct

/-! ## Safety -/

/-- Below two billion, the fee can be multiplied by the factor of any block. -/
theorem raisePrice_eq {nBlockSize nNewBlockSize : ℕ} {nMinFee : ℤ} (hlow : 0 ≤ nMinFee)
    (hhigh : nMinFee < 2000000000) :
    raisePrice nBlockSize nNewBlockSize nMinFee =
      .ok (if nBlockSize ≠ 1 ∧ maxBlockSizeGen ≤ nNewBlockSize then maxMoney
        else clampMoney (nMinFee * if nBlockSize ≠ 1 then fullFactor nNewBlockSize else 1)) := by
  unfold raisePrice
  by_cases hone : nBlockSize = 1
  · have hno : ∀ p : Prop, ¬(nBlockSize ≠ 1 ∧ p) := fun p h => h.1 hone
    rw [if_neg (hno _), if_neg (hno _), if_neg (not_not.mpr hone), mul_one]
    rfl
  by_cases hfull : maxBlockSizeGen ≤ nNewBlockSize
  · rw [if_pos ⟨hone, (Nat.div_le_self _ _).trans hfull⟩, if_pos hfull, if_pos ⟨hone, hfull⟩]
    rfl
  rw [if_neg (fun h : _ ∧ _ => hfull h.2), if_pos hone]
  by_cases hraise : maxBlockSizeGen / 2 ≤ nNewBlockSize
  · have hfactor := fullFactor_bounds (Nat.lt_of_not_le hfull)
    have hroom : toUInt32 ((maxBlockSizeGen : ℤ) - nNewBlockSize) =
        .ok (maxBlockSizeGen - nNewBlockSize) := by
      rw [← Nat.cast_sub (Nat.le_of_not_le hfull)]
      have hle : maxBlockSizeGen - nNewBlockSize ≤ maxBlockSizeGen := Nat.sub_le _ _
      exact toUInt32_eq (hle.trans_lt (by norm_num [maxBlockSizeGen, maxBlockSize]))
    have hdefined : fullFactor nNewBlockSize =
        (maxBlockSizeGen / (maxBlockSizeGen - nNewBlockSize) : ℕ) := if_pos hraise
    have hproduct : toInt64 (nMinFee * fullFactor nNewBlockSize) =
        .ok (nMinFee * fullFactor nNewBlockSize) := by
      have hle := mul_le_mul hhigh.le hfactor.2 (by omega) (by norm_num)
      have hge : 0 ≤ nMinFee * fullFactor nNewBlockSize := mul_nonneg hlow (by omega)
      exact toInt64_eq (by omega) (hle.trans_lt (by norm_num [maxBlockSizeGen, maxBlockSize]))
    have hdiv := div_eq (a := maxBlockSizeGen) (Nat.sub_ne_zero_of_lt (Nat.lt_of_not_le hfull))
    rw [if_pos ⟨hone, hraise⟩, if_neg hfull, hroom, ok_bind, hdiv, ok_bind, ← hdefined, hproduct]
    rfl
  · rw [if_neg (fun h => hraise h.2), fullFactor, if_neg hraise, mul_one]
    rfl

/-- Where the sizes are those of blocks, every operation of `GetMinFee` is exact. -/
theorem CTransaction.minFeeArith_eq (mode : GetMinFeeMode) {nBlockSize : ℕ} (fAllowFree : Bool)
    {tx : CTransaction} (hsize : tx.getSerializeSize ≤ maxBlockSize)
    (hblock : nBlockSize ≤ maxBlockSize) :
    tx.minFeeArith mode nBlockSize fAllowFree = .ok (tx.getMinFee nBlockSize fAllowFree) := by
  unfold maxBlockSize at hsize hblock
  have hvout := tx.length_vout_le
  have hdust := dustFee_le tx.vout
  have hdust0 := dustFee_nonneg tx.vout
  obtain ⟨hfee0, hfee⟩ := tx.sizeFee_bounds nBlockSize fAllowFree
  -- the fee before the last step is below two billion
  have hsum : tx.sizeFee nBlockSize fAllowFree + dustFee tx.vout < 2000000000 := by
    unfold minRelayTxFee at hfee hdust
    omega
  have hbytes : toUInt32 (tx.getSerializeSize : ℤ) = .ok tx.getSerializeSize :=
    toUInt32_eq (by omega)
  have hnew : toUInt32 ((nBlockSize + tx.getSerializeSize : ℕ) : ℤ) =
      .ok (nBlockSize + tx.getSerializeSize) := toUInt32_eq (by omega)
  have hthousands : toInt64 (1 + (tx.getSerializeSize / 1000 : ℕ)) =
      .ok (1 + (tx.getSerializeSize / 1000 : ℕ)) := toInt64_eq (by omega) (by omega)
  have hbase : toInt64 ((1 + (tx.getSerializeSize / 1000 : ℕ)) * minRelayTxFee) =
      .ok ((1 + (tx.getSerializeSize / 1000 : ℕ)) * minRelayTxFee) := by
    unfold minRelayTxFee
    exact toInt64_eq (by omega) (by omega)
  have hfree : (if fAllowFree = true then
        if nBlockSize = 1 then
          if tx.getSerializeSize < 10000 then 0
          else (1 + ((tx.getSerializeSize / 1000 : ℕ) : ℤ)) * minRelayTxFee
        else
          if nBlockSize + tx.getSerializeSize < 27000 then 0
          else (1 + ((tx.getSerializeSize / 1000 : ℕ) : ℤ)) * minRelayTxFee
      else (1 + ((tx.getSerializeSize / 1000 : ℕ) : ℤ)) * minRelayTxFee) =
      tx.sizeFee nBlockSize fAllowFree := by
    unfold sizeFee inFreeArea
    cases fAllowFree <;> by_cases hone : nBlockSize = 1 <;> simp [hone]
  have hloop : tx.vout.foldlM (addDustFee minRelayTxFee) (tx.sizeFee nBlockSize fAllowFree) =
      .ok (tx.sizeFee nBlockSize fAllowFree + dustFee tx.vout) :=
    foldlM_addDustFee hfee0 (by omega)
  rw [getMinFee_eq, ← raisePrice_eq (by omega) hsum, minFeeArith, mode.nBaseFee_eq]
  rw [hbytes, ok_bind, hnew, ok_bind, hthousands, ok_bind, hbase, ok_bind, hfree]
  show (tx.vout.foldlM (addDustFee minRelayTxFee) (tx.sizeFee nBlockSize fAllowFree) >>= _) = _
  rw [hloop, ok_bind]

/-- **`GetMinFee` is safe on the sizes of blocks**: no operation overflows or divides by zero, the
result is an amount of money, and from size 2 on it does not fall as the block grows. -/
theorem minFee_safe (mode : GetMinFeeMode) (fAllowFree : Bool) (tx : CTransaction)
    (hsize : tx.getSerializeSize ≤ maxBlockSize) (nBlockSize : ℕ) (hblock : nBlockSize ≤ maxBlockSize) :
    ∃ nMinFee, tx.minFeeArith mode nBlockSize fAllowFree = .ok nMinFee ∧
      0 ≤ nMinFee ∧ nMinFee ≤ maxMoney ∧
      ∀ nLarger, 2 ≤ nBlockSize → nBlockSize ≤ nLarger → nLarger ≤ maxBlockSize →
        ∃ nLargerFee, tx.minFeeArith mode nLarger fAllowFree = .ok nLargerFee ∧
          nMinFee ≤ nLargerFee := by
  have hrange := tx.getMinFee_range nBlockSize fAllowFree
  refine ⟨_, tx.minFeeArith_eq mode fAllowFree hsize hblock, hrange.1, hrange.2, ?_⟩
  intro nLarger htwo hle hlarger
  exact ⟨_, CTransaction.minFeeArith_eq mode fAllowFree hsize hlarger,
    tx.getMinFee_mono htwo hle fAllowFree⟩

/-- A relayed transaction with a small output, in a block that is nearly full. -/
theorem minFee_safe_nearlyFull :
    (exampleTx 7 [⟨1, 0⟩] [5]).getSerializeSize ≤ maxBlockSize ∧
      ∃ nMinFee, (exampleTx 7 [⟨1, 0⟩] [5]).minFeeArith .gmfRelay 499000 true = .ok nMinFee ∧
        0 ≤ nMinFee ∧ nMinFee ≤ maxMoney ∧
        ∀ nLarger, 2 ≤ 499000 → 499000 ≤ nLarger → nLarger ≤ maxBlockSize →
          ∃ nLargerFee, (exampleTx 7 [⟨1, 0⟩] [5]).minFeeArith .gmfRelay nLarger true =
            .ok nLargerFee ∧ nMinFee ≤ nLargerFee :=
  ⟨by decide, minFee_safe .gmfRelay true (exampleTx 7 [⟨1, 0⟩] [5]) (by decide) 499000 (by decide)⟩

end FoxCoin
