import FoxCoin.Transaction

/-! # The memory pool

Transactions that are not in a block yet, by hash, and for every outpoint they claim the transaction
that claims it. -/

namespace FoxCoin

open Checked

/-- `CTxMemPool`. `mapNextTx` holds the hash of the spending transaction and the index of its
input. -/
structure CTxMemPool where
  mapTx : StdMap Uint256 CTransaction
  mapNextTx : StdMap COutPoint (Uint256 × ℕ)

/-- The pool without transactions. -/
def CTxMemPool.empty : CTxMemPool := ⟨∅, ∅⟩

/-- `CTransaction::CURRENT_VERSION`. -/
def CTransaction.currentVersion : ℤ := 1

/-- `CTransaction::IsStandard`. -/
def CTransaction.isStandard (P : Params) (tx : CTransaction) : Bool :=
  decide (tx.nVersion ≤ CTransaction.currentVersion) &&
    tx.vin.all (fun txin => decide (txin.scriptSig.length ≤ 500) && txin.scriptSig.isPushOnly) &&
    tx.vout.all fun txout => P.isStandard txout.scriptPubKey

/-- `CTxMemPool::addUnchecked`. -/
def CTxMemPool.addUnchecked (mempool : CTxMemPool) (hash : Uint256) (tx : CTransaction) :
    CTxMemPool where
  mapTx := mempool.mapTx.insert hash tx
  mapNextTx := tx.vin.zipIdx.foldl (fun m txin => m.insert txin.1.prevout (hash, txin.2))
    mempool.mapNextTx

/-- `CTxMemPool::accept` with `fCheckInputs` off, as `Reorganize` calls it: the inputs are not
looked up, and a conflict with the pool rejects the transaction. -/
def CTxMemPool.accept (P : Params) (mempool : CTxMemPool) (tx : CTransaction) :
    Result CTxMemPool := do
  tx.checkTransaction.mapError fun _ => ⟨0, "CTxMemPool::accept() : CheckTransaction failed"⟩
  ensure (!tx.isCoinBase) ⟨100, "CTxMemPool::accept() : coinbase as individual tx"⟩
  ensure (decide (tx.nLockTime ≤ 2147483647))
    ⟨0, "CTxMemPool::accept() : not accepting nLockTime beyond 2038 yet"⟩
  ensure (P.fTestNet || tx.isStandard P)
    ⟨0, "CTxMemPool::accept() : nonstandard transaction type"⟩
  let hash := tx.getHash P
  ensure (decide (hash ∉ mempool.mapTx)) ⟨0, ""⟩
  ensure (tx.vin.all fun txin => decide (txin.prevout ∉ mempool.mapNextTx)) ⟨0, ""⟩
  pure (mempool.addUnchecked hash tx)

/-- `CTransaction::AcceptToMemoryPool` where the caller ignores the result. -/
def CTxMemPool.tryAccept (P : Params) (mempool : CTxMemPool) (tx : CTransaction) : CTxMemPool :=
  match mempool.accept P tx with
  | .ok mempool' => mempool'
  | .error _ => mempool

/-- `CTxMemPool::remove`. -/
def CTxMemPool.remove (P : Params) (mempool : CTxMemPool) (tx : CTransaction) : CTxMemPool :=
  let hash := tx.getHash P
  if hash ∈ mempool.mapTx then
    { mapTx := mempool.mapTx.erase hash
      mapNextTx := tx.vin.foldl (fun m txin => m.erase txin.prevout) mempool.mapNextTx }
  else mempool

/-- Remove the transactions of a block from the pool. -/
def CTxMemPool.removeAll (P : Params) (mempool : CTxMemPool) (vtx : List CTransaction) :
    CTxMemPool := vtx.foldl (CTxMemPool.remove P) mempool

end FoxCoin
