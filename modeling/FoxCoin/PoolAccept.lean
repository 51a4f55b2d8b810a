import FoxCoin.NodeState
import FoxCoin.Solver

/-! # Accepting a transaction to the memory pool

`CTxMemPool::accept` checks a transaction on its own and against the pool. Unless it is told not to,
it also fetches the inputs, from the chain or from the pool, and checks standardness, the fee and
the signatures. -/

namespace FoxCoin

open Checked

/-! ## Fees -/

/-- `MIN_RELAY_TX_FEE`, which is `MIN_TX_FEE`. -/
def minRelayTxFee : ℤ := 10000

/-- `CENT`. -/
def cent : ℤ := 1000000

/-- `CTransaction::GetMinFee`. The base fee is the same in every mode. -/
def CTransaction.getMinFee (nBlockSize : ℕ) (fAllowFree : Bool) (tx : CTransaction) : ℤ :=
  let nBytes := tx.getSerializeSize
  let nNewBlockSize := nBlockSize + nBytes
  let nMinFee : ℤ := (1 + (nBytes / 1000 : ℕ)) * minRelayTxFee
  -- small transactions, or those in the free area of a block, are free
  let nMinFee := if fAllowFree && (if nBlockSize = 1 then decide (nBytes < 10000)
    else decide (nNewBlockSize < 27000)) then 0 else nMinFee
  -- every small output costs the base fee
  let nMinFee := nMinFee + tx.vout.countP (fun txout => decide (txout.nValue < cent)) * minRelayTxFee
  if nBlockSize ≠ 1 ∧ maxBlockSizeGen ≤ nNewBlockSize then maxMoney
  else
    -- the price is raised as the block approaches full
    let nMinFee := if nBlockSize ≠ 1 ∧ maxBlockSizeGen / 2 ≤ nNewBlockSize then
      nMinFee * (maxBlockSizeGen / (maxBlockSizeGen - nNewBlockSize) : ℕ) else nMinFee
    if moneyRange nMinFee then nMinFee else maxMoney

/-! ## Standard inputs -/

/-- One round of `AreInputsStandard`. -/
def inputStandard (env : ScriptEnv) (tx : CTransaction) (mapInputs : MapPrevTx) (txin : CTxIn × ℕ) :
    Result Bool := do
  let prev ← getOutputFor mapInputs txin.1
  match solver prev.scriptPubKey with
  | none => pure false
  | some (whichType, vSolutions) =>
    match scriptSigArgsExpected whichType vSolutions with
    | none => pure false
    | some nArgsExpected =>
      match (evalScript env ⟨tx, txin.2, 0⟩ [] txin.1.scriptSig).result with
      | .error _ => pure false
      | .ok stack =>
        if whichType = .txScripthash then
          match stack with
          | [] => pure false
          | subscript :: _ =>
            match solver subscript with
            | none => pure false
            | some (whichType2, vSolutions2) =>
              if whichType2 = .txScripthash then pure false
              else
                match scriptSigArgsExpected whichType2 vSolutions2 with
                | none => pure false
                | some tmpExpected => pure (stack.length == nArgsExpected + tmpExpected)
        else pure (stack.length == nArgsExpected)

/-- `CTransaction::AreInputsStandard`. -/
def CTransaction.areInputsStandard (env : ScriptEnv) (mapInputs : MapPrevTx) (tx : CTransaction) :
    Result Bool :=
  if tx.isCoinBase then pure true
  else tx.vin.zipIdx.allM (inputStandard env tx mapInputs)

/-! ## Accepting -/

/-- What `CTxMemPool::accept` reads of the node besides the pool: the database, the block files and
the walk from the tip. -/
structure PoolView where
  mapTxIndex : TxIndexMap
  files : BlockFiles
  nBestHeight : ℤ
  nAdjustedTime : ℤ
  bestWalk : List CBlockIndex

/-- What fetching and connecting inputs reads. -/
def PoolView.chainView (v : PoolView) (mempool : CTxMemPool) : ChainView :=
  ⟨mempool.mapTx, v.nBestHeight, v.nAdjustedTime, v.files⟩

/-- The result of `CTxMemPool::accept`: a failure carries `*pfMissingInputs`. -/
abbrev AcceptResult (α : Type) := Except (Reject × Bool) α

/-- The part of `CTxMemPool::accept` that `fCheckInputs` turns on. `fLimited` says that the limiter
of free transactions, which is consulted for low fees only, is over its rate. -/
def CTransaction.checkPoolInputs (P : Params) (env : ScriptEnv) (v : PoolView) (mempool : CTxMemPool)
    (fLimited : Bool) (tx : CTransaction) : AcceptResult Unit := do
  let mapInputs ← (tx.fetchInputs (v.chainView mempool) v.mapTxIndex ∅ false false).mapError
    fun e => (⟨e.1.nDoS, if e.2 then "CTxMemPool::accept() : FetchInputs found invalid tx %s" else ""⟩,
      !e.2)
  let fStandard ← (tx.areInputsStandard env mapInputs).mapError fun r => (r, false)
  ensure (fStandard || P.fTestNet) (⟨0, "CTxMemPool::accept() : nonstandard transaction input"⟩, false)
  let nValueIn ← (tx.getValueIn mapInputs).mapError fun r => (r, false)
  let nValueOut ← tx.getValueOut.mapError fun r => (r, false)
  let nFees := int64 (nValueIn - nValueOut)
  -- do not accept it if it cannot get into a block
  ensure (decide (tx.getMinFee 1000 true ≤ nFees)) (⟨0, "CTxMemPool::accept() : not enough fees"⟩, false)
  ensure (!(decide (nFees < minRelayTxFee) && fLimited))
    (⟨0, "CTxMemPool::accept() : free transaction rejected by rate limiter"⟩, false)
  let _ ← (tx.connectInputs P (v.chainView mempool) mapInputs ∅ CDiskTxPos.inMemory v.bestWalk false
    false true).mapError fun r => (⟨r.nDoS, "CTxMemPool::accept() : ConnectInputs failed %s"⟩, false)
  pure ()

/-- `CTransaction::AcceptToMemoryPool`, which calls `CTxMemPool::accept`. -/
def CTransaction.acceptToMemoryPool (P : Params) (env : ScriptEnv) (v : PoolView)
    (mempool : CTxMemPool) (fLimited fCheckInputs : Bool) (tx : CTransaction) :
    AcceptResult CTxMemPool := do
  tx.checkTransaction.mapError
    fun r => (⟨r.nDoS, "CTxMemPool::accept() : CheckTransaction failed"⟩, false)
  ensure (!tx.isCoinBase) (⟨100, "CTxMemPool::accept() : coinbase as individual tx"⟩, false)
  ensure (decide (tx.nLockTime ≤ 2147483647))
    (⟨0, "CTxMemPool::accept() : not accepting nLockTime beyond 2038 yet"⟩, false)
  ensure (P.fTestNet || tx.isStandard P)
    (⟨0, "CTxMemPool::accept() : nonstandard transaction type"⟩, false)
  let hash := tx.getHash P
  ensure (decide (hash ∉ mempool.mapTx)) (⟨0, ""⟩, false)
  ensure (!(fCheckInputs && decide (hash ∈ v.mapTxIndex))) (⟨0, ""⟩, false)
  -- the replacement of a conflicting transaction is disabled
  ensure (tx.vin.all fun txin => decide (txin.prevout ∉ mempool.mapNextTx)) (⟨0, ""⟩, false)
  (if fCheckInputs then tx.checkPoolInputs P env v mempool fLimited else pure ())
  pure (mempool.addUnchecked hash tx)

/-! ## What is accepted -/

/-- The checks of `CTxMemPool::accept` on the transaction alone. -/
structure CTransaction.Loose (P : Params) (tx : CTransaction) : Prop where
  checkTransaction : tx.checkTransaction = .ok ()
  not_coinBase : tx.isCoinBase = false
  nLockTime_le : tx.nLockTime ≤ 2147483647
  standard : (P.fTestNet || tx.isStandard P) = true

/-- The checks of `CTxMemPool::accept` against the pool. -/
structure CTxMemPool.Admits (P : Params) (mempool : CTxMemPool) (tx : CTransaction) : Prop where
  hash_notMem : tx.getHash P ∉ mempool.mapTx
  prevout_notMem : ∀ txin ∈ tx.vin, txin.prevout ∉ mempool.mapNextTx

variable {P : Params} {env : ScriptEnv} {v : PoolView} {mempool mempool' : CTxMemPool}
  {tx : CTransaction} {fLimited fCheckInputs : Bool}

/-- **What `CTxMemPool::accept` accepts**: the transaction is loose, the pool admits it and, when
inputs are checked, it is new to the chain and its inputs are good. It is added as it is. -/
theorem acceptToMemoryPool_eq_ok :
    tx.acceptToMemoryPool P env v mempool fLimited fCheckInputs = .ok mempool' ↔
      tx.Loose P ∧ mempool.Admits P tx ∧
        (fCheckInputs = true → tx.getHash P ∉ v.mapTxIndex ∧
          tx.checkPoolInputs P env v mempool fLimited = .ok ()) ∧
        mempool' = mempool.addUnchecked (tx.getHash P) tx := by
  simp only [CTransaction.acceptToMemoryPool, bind_eq_ok, mapError_eq_ok, ensure_eq_ok, pure_eq_ok]
  constructor
  · rintro ⟨_, hcheck, _, hcoin, _, hlock, _, hstandard, _, hnew, _, hchain, _, hfree, _, hinputs,
      rfl⟩
    refine ⟨⟨hcheck, by simpa using hcoin, of_decide_eq_true hlock, hstandard⟩,
      ⟨of_decide_eq_true hnew, ?_⟩, fun hflag => ?_, rfl⟩
    · intro txin htxin
      exact of_decide_eq_true (List.all_eq_true.mp hfree txin htxin)
    · subst hflag
      exact ⟨by simpa using hchain, hinputs⟩
  · rintro ⟨hloose, hadmits, hinputs, rfl⟩
    refine ⟨(), hloose.checkTransaction, (), by simp [hloose.not_coinBase], (),
      decide_eq_true hloose.nLockTime_le, (), hloose.standard, (),
      decide_eq_true hadmits.hash_notMem, (), ?_, (), ?_, (), ?_, rfl⟩
    · cases fCheckInputs with
      | false => rfl
      | true => simpa using (hinputs rfl).1
    · exact List.all_eq_true.mpr fun txin htxin => decide_eq_true (hadmits.prevout_notMem txin htxin)
    · cases fCheckInputs with
      | false => rfl
      | true => exact (hinputs rfl).2

/-- `Reorganize` accepts with the input checks off. -/
theorem accept_eq_ok :
    mempool.accept P tx = .ok mempool' ↔
      tx.acceptToMemoryPool P env v mempool fLimited false = .ok mempool' := by
  rw [acceptToMemoryPool_eq_ok]
  simp only [CTxMemPool.accept, bind_eq_ok, mapError_eq_ok, ensure_eq_ok, pure_eq_ok]
  constructor
  · rintro ⟨_, hcheck, _, hcoin, _, hlock, _, hstandard, _, hnew, _, hfree, rfl⟩
    refine ⟨⟨hcheck, by simpa using hcoin, of_decide_eq_true hlock, hstandard⟩,
      ⟨of_decide_eq_true hnew, fun txin htxin => ?_⟩, fun h => absurd h Bool.false_ne_true, rfl⟩
    exact of_decide_eq_true (List.all_eq_true.mp hfree txin htxin)
  · rintro ⟨hloose, hadmits, -, rfl⟩
    exact ⟨(), hloose.checkTransaction, (), by simp [hloose.not_coinBase], (),
      decide_eq_true hloose.nLockTime_le, (), hloose.standard, (),
      decide_eq_true hadmits.hash_notMem, (), List.all_eq_true.mpr fun txin htxin =>
        decide_eq_true (hadmits.prevout_notMem txin htxin), rfl⟩

end FoxCoin
