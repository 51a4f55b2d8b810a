import FoxCoin.PoolIndex
import FoxCoin.Lib.Runs
import Mathlib.Data.Finset.Sort

/-! # Orphan transactions

A transaction that arrives before its inputs is held back in `mapOrphanTransactions`, and listed in
`mapOrphanTransactionsByPrev` under the transactions it waits for. A `tx` message that is accepted
tries everything that waited for it, and what waited for that. -/

namespace FoxCoin

open Checked BackIndex Runs

/-! ## The orphan maps -/

/-- A serialized transaction as it came in: the transaction and the size of the message. -/
structure TxMessage where
  tx : CTransaction
  nSize : ℕ
  size_le : tx.getSerializeSize ≤ nSize

/-- The hashes of the transactions that a message spends. -/
def TxMessage.prevHashes (vMsg : TxMessage) : List Uint256 :=
  vMsg.tx.vin.map fun txin => txin.prevout.hash

/-- `mapOrphanTransactions` and `mapOrphanTransactionsByPrev`. -/
structure OrphanTxs where
  mapOrphanTransactions : StdMap Uint256 TxMessage
  mapOrphanTransactionsByPrev : Buckets Uint256 Uint256 TxMessage

/-- No orphans. -/
def OrphanTxs.empty : OrphanTxs := ⟨∅, ∅⟩

/-- `MAX_ORPHAN_TRANSACTIONS`. -/
def maxOrphanTransactions : ℕ := maxBlockSize / 100

/-- `AddOrphanTx`: whether the message was stored, and the maps. -/
def OrphanTxs.addOrphanTx (P : Params) (o : OrphanTxs) (vMsg : TxMessage) : Bool × OrphanTxs :=
  let hash := vMsg.tx.getHash P
  if hash ∈ o.mapOrphanTransactions then (false, o)
  -- ignore big transactions, to avoid a memory exhaustion attack
  else if 5000 < vMsg.nSize then (false, o)
  else
    (true,
      { mapOrphanTransactions := o.mapOrphanTransactions.insert hash vMsg
        mapOrphanTransactionsByPrev := vMsg.prevHashes.foldl
          (fun byPrev hashPrev => addEntry byPrev hashPrev hash vMsg)
          o.mapOrphanTransactionsByPrev })

/-- `EraseOrphanTx`. -/
def OrphanTxs.eraseOrphanTx (o : OrphanTxs) (hash : Uint256) : OrphanTxs :=
  match o.mapOrphanTransactions.lookup hash with
  | none => o
  | some vMsg =>
    { mapOrphanTransactionsByPrev := vMsg.prevHashes.foldl
        (fun byPrev hashPrev => dropEntry byPrev hashPrev hash) o.mapOrphanTransactionsByPrev
      mapOrphanTransactions := o.mapOrphanTransactions.erase hash }

/-- The orphan that `LimitOrphanTxSize` evicts: the first at or after a random hash, or else the
first of all. -/
def OrphanTxs.evictee (o : OrphanTxs) (randomhash : Uint256) : Option Uint256 :=
  let hashes := o.mapOrphanTransactions.keys.sort (· ≤ ·)
  ((hashes.filter fun hash => decide (randomhash ≤ hash)) ++ hashes).head?

/-- The loop of `LimitOrphanTxSize`. Every round evicts one orphan. -/
def OrphanTxs.limitLoop (nMaxOrphans : ℕ) (randomhash : ℕ → Uint256) : ℕ → OrphanTxs → OrphanTxs
  | 0, o => o
  | n + 1, o =>
    if nMaxOrphans < o.mapOrphanTransactions.keys.card then
      match o.evictee (randomhash n) with
      | none => o
      | some hash => limitLoop nMaxOrphans randomhash n (o.eraseOrphanTx hash)
    else o

/-- `LimitOrphanTxSize`. -/
def OrphanTxs.limitOrphanTxSize (nMaxOrphans : ℕ) (randomhash : ℕ → Uint256) (o : OrphanTxs) :
    OrphanTxs := o.limitLoop nMaxOrphans randomhash o.mapOrphanTransactions.keys.card

/-! ## The work loop -/

/-- The variables of the loop that processes the orphans of an accepted transaction; `nCalls` counts
the calls of `AcceptToMemoryPool`. -/
structure WorkState where
  mempool : CTxMemPool
  vWorkQueue : List Uint256
  vEraseQueue : List Uint256
  nCalls : ℕ

/-- One `tx` message: the view of the node, whether the limiter of free transactions is over its
rate at each call of `AcceptToMemoryPool`, and the random hashes of the evictions. -/
structure TxEvent where
  vMsg : TxMessage
  v : PoolView
  fLimited : ℕ → Bool
  randomhash : ℕ → Uint256

/-- One round of the inner loop: try an orphan. -/
def tryOrphan (P : Params) (env : ScriptEnv) (e : TxEvent) (st : WorkState) (vMsg : TxMessage) :
    WorkState :=
  let hash := vMsg.tx.getHash P
  match vMsg.tx.acceptToMemoryPool P env e.v st.mempool (e.fLimited st.nCalls) true with
  | .ok mempool => ⟨mempool, st.vWorkQueue ++ [hash], st.vEraseQueue ++ [hash], st.nCalls + 1⟩
  | .error (_, fMissingInputs2) =>
    -- an orphan that still misses inputs is kept, an invalid one is not
    { st with
      vEraseQueue := if fMissingInputs2 then st.vEraseQueue else st.vEraseQueue ++ [hash]
      nCalls := st.nCalls + 1 }

/-- The values of a map in the order of its keys. -/
def valuesInOrder {V : Type} (m : StdMap Uint256 V) : List V :=
  (m.keys.sort (· ≤ ·)).filterMap m.lookup

/-- The outer loop, from place `i` of the queue on: `mapOrphanTransactionsByPrev[hashPrev]` is
accessed for every hash of the queue. -/
def workLoop (P : Params) (env : ScriptEnv) (e : TxEvent) :
    ℕ → ℕ → WorkState × Buckets Uint256 Uint256 TxMessage →
      WorkState × Buckets Uint256 Uint256 TxMessage
  | 0, _, st => st
  | nFuel + 1, i, (st, byPrev) =>
    match st.vWorkQueue[i]? with
    | none => (st, byPrev)
    | some hashPrev =>
      workLoop P env e nFuel (i + 1)
        ((valuesInOrder (bucket byPrev hashPrev)).foldl (tryOrphan P env e) st,
          touch byPrev hashPrev)

/-! ## Messages -/

/-- The memory pool and the orphans. -/
structure RelayState where
  mempool : CTxMemPool
  orphans : OrphanTxs

/-- The work loop for a transaction that was accepted to the pool. An orphan is accepted once, so
one round more than there are orphans is enough. -/
def RelayState.work (P : Params) (env : ScriptEnv) (s : RelayState) (e : TxEvent)
    (mempool : CTxMemPool) : WorkState × Buckets Uint256 Uint256 TxMessage :=
  let hash := e.vMsg.tx.getHash P
  workLoop P env e (s.orphans.mapOrphanTransactions.keys.card + 1) 0
    (⟨mempool, [hash], [hash], 1⟩, s.orphans.mapOrphanTransactionsByPrev)

/-- `ProcessMessage` for a `tx` message: the state it leaves, and the score of the peer. -/
def RelayState.processTx (P : Params) (env : ScriptEnv) (s : RelayState) (e : TxEvent) :
    RelayState × ℕ :=
  match e.vMsg.tx.acceptToMemoryPool P env e.v s.mempool (e.fLimited 0) true with
  | .ok mempool =>
    let (st, byPrev) := s.work P env e mempool
    (⟨st.mempool, st.vEraseQueue.foldl OrphanTxs.eraseOrphanTx
      { s.orphans with mapOrphanTransactionsByPrev := byPrev }⟩, 0)
  | .error (r, true) =>
    ({ s with
      orphans := (s.orphans.addOrphanTx P e.vMsg).2.limitOrphanTxSize maxOrphanTransactions
        e.randomhash }, r.nDoS)
  | .error (r, false) => (s, r.nDoS)

/-- What happens to the pool and the orphans: a `tx` message, or an operation on the pool by a
block. -/
inductive RelayEvent where
  | tx (e : TxEvent)
  | pool (op : PoolOp)

/-- The pool and the orphans as a system: it starts without orphans. -/
def relaySystem (P : Params) (env : ScriptEnv) : System RelayState RelayEvent where
  start s := s.orphans = .empty
  legal _ _ := True
  next s
    | .tx e => (s.processTx P env e).1
    | .pool op => { s with mempool := op.next P env s.mempool }

end FoxCoin
