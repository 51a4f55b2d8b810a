import FoxCoin.Script

/-! # Transactions on their own

Serialized sizes, signature-operation counts, output totals, finality and the context-free checks of
`CTransaction::CheckTransaction`. -/

namespace FoxCoin

open Checked

/-! ## Serialized sizes -/

/-- `GetSizeOfCompactSize`. -/
def getSizeOfCompactSize (nSize : ℕ) : ℕ :=
  if nSize < 253 then 1 else if nSize ≤ 0xffff then 3 else if nSize ≤ 0xffffffff then 5 else 9

theorem getSizeOfCompactSize_pos (n : ℕ) : 0 < getSizeOfCompactSize n := by
  unfold getSizeOfCompactSize; split_ifs <;> omega

theorem getSizeOfCompactSize_le (n : ℕ) : getSizeOfCompactSize n ≤ 9 := by
  unfold getSizeOfCompactSize; split_ifs <;> omega

/-- The serialized size of an input: outpoint, script and sequence. -/
def CTxIn.getSerializeSize (txin : CTxIn) : ℕ :=
  36 + (getSizeOfCompactSize txin.scriptSig.length + txin.scriptSig.length) + 4

/-- The serialized size of an output: amount and script. -/
def CTxOut.getSerializeSize (txout : CTxOut) : ℕ :=
  8 + (getSizeOfCompactSize txout.scriptPubKey.length + txout.scriptPubKey.length)

/-- The serialized size of a transaction. -/
def CTransaction.getSerializeSize (tx : CTransaction) : ℕ :=
  4 + (getSizeOfCompactSize tx.vin.length + (tx.vin.map CTxIn.getSerializeSize).sum) +
    (getSizeOfCompactSize tx.vout.length + (tx.vout.map CTxOut.getSerializeSize).sum) + 4

theorem CTransaction.getSerializeSize_pos (tx : CTransaction) : 0 < tx.getSerializeSize := by
  unfold getSerializeSize; omega

/-- `CTransaction::GetLegacySigOpCount`. -/
def CTransaction.getLegacySigOpCount (tx : CTransaction) : ℕ :=
  (tx.vin.map fun txin => txin.scriptSig.getSigOpCount false).sum +
    (tx.vout.map fun txout => txout.scriptPubKey.getSigOpCount false).sum

/-! ## Output totals -/

/-- One round of the summing loop of `GetValueOut`. -/
def addValueOut (nValueOut : ℤ) (txout : CTxOut) : Result ℤ := do
  ensure (moneyRange txout.nValue && moneyRange (nValueOut + txout.nValue))
    ⟨0, "CTransaction::GetValueOut() : value out of range"⟩
  pure (nValueOut + txout.nValue)

/-- `CTransaction::GetValueOut`, which throws when an output or the running total is out of
range. -/
def CTransaction.getValueOut (tx : CTransaction) : Result ℤ := tx.vout.foldlM addValueOut 0

/-- The exact sum of the output values. -/
def CTransaction.valueOut (tx : CTransaction) : ℤ := (tx.vout.map CTxOut.nValue).sum

/-! ## Context-free checks -/

/-- One round of the output loop of `CheckTransaction`. -/
def checkTxOut (nValueOut : ℤ) (txout : CTxOut) : Result ℤ := do
  ensure (decide (0 ≤ txout.nValue))
    ⟨100, "CTransaction::CheckTransaction() : txout.nValue negative"⟩
  ensure (decide (txout.nValue ≤ maxMoney))
    ⟨100, "CTransaction::CheckTransaction() : txout.nValue too high"⟩
  ensure (moneyRange (nValueOut + txout.nValue))
    ⟨100, "CTransaction::CheckTransaction() : txout total out of range"⟩
  pure (nValueOut + txout.nValue)

/-- `CTransaction::CheckTransaction`. -/
def CTransaction.checkTransaction (tx : CTransaction) : Result Unit := do
  ensure (!tx.vin.isEmpty) ⟨10, "CTransaction::CheckTransaction() : vin empty"⟩
  ensure (!tx.vout.isEmpty) ⟨10, "CTransaction::CheckTransaction() : vout empty"⟩
  ensure (decide (tx.getSerializeSize ≤ maxBlockSize))
    ⟨100, "CTransaction::CheckTransaction() : size limits failed"⟩
  let _ ← tx.vout.foldlM checkTxOut 0
  -- the set of outpoints seen so far rejects exactly a repeated one, without an error text
  ensure (decide tx.prevouts.Nodup) ⟨0, ""⟩
  if tx.isCoinBase then
    ensure (tx.vin.all fun txin =>
        decide (2 ≤ txin.scriptSig.length) && decide (txin.scriptSig.length ≤ 100))
      ⟨100, "CTransaction::CheckTransaction() : coinbase script size"⟩
  else
    ensure (tx.vin.all fun txin => !txin.prevout.isNull)
      ⟨10, "CTransaction::CheckTransaction() : prevout is null"⟩

/-- The output loop accepts exactly when every value and every running total is in range, and it
returns the total. -/
theorem foldlM_checkTxOut_eq_ok {vout : List CTxOut} {n m : ℤ}
    (h : vout.foldlM checkTxOut n = .ok m) :
    m = n + (vout.map CTxOut.nValue).sum ∧ (∀ o ∈ vout, 0 ≤ o.nValue ∧ o.nValue ≤ maxMoney) ∧
      vout.foldlM addValueOut n = .ok m ∧ (vout ≠ [] → 0 ≤ m ∧ m ≤ maxMoney) := by
  induction vout generalizing n with
  | nil =>
    simp only [List.foldlM_nil, pure_eq_ok] at h
    simp [h]
  | cons o vout ih =>
    obtain ⟨k, hstep, hrest⟩ := foldlM_cons_eq_ok.mp h
    simp only [checkTxOut, ensure_bind_eq_ok, pure_eq_ok, decide_eq_true_eq, moneyRange_iff]
      at hstep
    obtain ⟨hlo, hhi, hsum, rfl⟩ := hstep
    obtain ⟨rfl, hall, hout, hne⟩ := ih hrest
    have hadd : addValueOut n o = .ok (n + o.nValue) := by
      rw [addValueOut, ensure_bind_eq_ok]
      simp [moneyRange_iff, hlo, hhi, hsum]
    refine ⟨by simp [add_assoc], ?_, foldlM_cons_eq_ok.mpr ⟨_, hadd, hout⟩, fun _ => ?_⟩
    · simpa using ⟨⟨hlo, hhi⟩, hall⟩
    · by_cases hnil : vout = []
      · subst hnil; simpa using hsum
      · exact hne hnil

/-- What a transaction that passes `CheckTransaction` satisfies. -/
structure CTransaction.Checked (tx : CTransaction) : Prop where
  vin_ne_nil : tx.vin ≠ []
  vout_ne_nil : tx.vout ≠ []
  size_le : tx.getSerializeSize ≤ maxBlockSize
  value_range : ∀ o ∈ tx.vout, 0 ≤ o.nValue ∧ o.nValue ≤ maxMoney
  getValueOut_eq : tx.getValueOut = .ok tx.valueOut
  valueOut_nonneg : 0 ≤ tx.valueOut
  valueOut_le : tx.valueOut ≤ maxMoney
  prevouts_nodup : tx.prevouts.Nodup
  coinBase_script : tx.isCoinBase = true →
    ∀ txin ∈ tx.vin, 2 ≤ txin.scriptSig.length ∧ txin.scriptSig.length ≤ 100
  prevout_not_null : tx.isCoinBase = false → ∀ txin ∈ tx.vin, txin.prevout.isNull = false

/-- A transaction that passes `CheckTransaction` is well formed. -/
theorem CTransaction.checked_of_checkTransaction {tx : CTransaction} {u : Unit}
    (h : tx.checkTransaction = .ok u) : tx.Checked := by
  simp only [checkTransaction, bind_eq_ok, ensure_eq_ok, exists_and_left, exists_const,
    decide_eq_true_eq] at h
  obtain ⟨hvin, hvout, hsize, m, hloop, hnodup, hinputs⟩ := h
  have hvin' : tx.vin ≠ [] := by simpa using hvin
  have hvout' : tx.vout ≠ [] := by simpa using hvout
  obtain ⟨hm, hrange, hout, hne⟩ := foldlM_checkTxOut_eq_ok hloop
  have hm' : m = tx.valueOut := by simpa [valueOut] using hm
  subst hm'
  refine ⟨hvin', hvout', hsize, hrange, hout, (hne hvout').1, (hne hvout').2, hnodup, ?_, ?_⟩
  · intro hcb txin htxin
    rw [if_pos hcb, ensure_eq_ok, List.all_eq_true] at hinputs
    simpa using hinputs txin htxin
  · intro hcb txin htxin
    rw [if_neg (by simp [hcb]), ensure_eq_ok, List.all_eq_true] at hinputs
    simpa using hinputs txin htxin

/-! ## Finality -/

/-- `CTransaction::IsFinal`. A zero height or time asks for the node's best height or adjusted
time. -/
def CTransaction.isFinal (tx : CTransaction) (nBestHeight nAdjustedTime nBlockHeight nBlockTime : ℤ) :
    Bool :=
  let nBlockHeight := if nBlockHeight = 0 then nBestHeight else nBlockHeight
  let nBlockTime := if nBlockTime = 0 then nAdjustedTime else nBlockTime
  decide (tx.nLockTime = 0) ||
    decide ((tx.nLockTime : ℤ) <
      if (tx.nLockTime : ℤ) < locktimeThreshold then nBlockHeight else nBlockTime) ||
    tx.vin.all CTxIn.isFinal

end FoxCoin
