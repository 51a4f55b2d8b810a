import FoxCoin.PoolAccept
import FoxCoin.Lib.BackIndex

/-! # The index of the memory pool

`mapNextTx` leads from an outpoint to the pool transaction that claims it. Accepting a transaction
and removing one keep it exact, in any order and whatever the chain is when they happen. -/

namespace FoxCoin

open Checked BackIndex

/-! ## Operations -/

/-- The operations of the node on the memory pool: `accept`, with the inputs checked for a
transaction that arrives and not checked for one that `Reorganize` resurrects, and `remove`. -/
inductive PoolOp where
  | accept (v : PoolView) (fLimited fCheckInputs : Bool) (tx : CTransaction)
  | remove (tx : CTransaction)

/-- The transaction that an operation is about. -/
def PoolOp.tx : PoolOp → CTransaction
  | accept _ _ _ tx => tx
  | remove tx => tx

/-- The pool after an operation. -/
def PoolOp.next (P : Params) (env : ScriptEnv) (mempool : CTxMemPool) : PoolOp → CTxMemPool
  | accept v fLimited fCheckInputs tx =>
    match tx.acceptToMemoryPool P env v mempool fLimited fCheckInputs with
    | .ok mempool' => mempool'
    | .error _ => mempool
  | remove tx => mempool.remove P tx

/-- The pool after a sequence of operations. -/
def CTxMemPool.run (P : Params) (env : ScriptEnv) (mempool : CTxMemPool) (ops : List PoolOp) :
    CTxMemPool := ops.foldl (PoolOp.next P env) mempool

/-- No two of the transactions that the operations are about have the same hash. -/
def CollisionFree (P : Params) (ops : List PoolOp) : Prop :=
  ∀ op ∈ ops, ∀ op' ∈ ops, op.tx.getHash P = op'.tx.getHash P → op.tx = op'.tx

/-- **The index is exact**: its entries are the inputs of the transactions in the pool, no two of
which claim the same outpoint. -/
structure CTxMemPool.Exact (P : Params) (mempool : CTxMemPool) : Prop where
  hash_eq : ∀ hash tx, mempool.mapTx.lookup hash = some tx → tx.getHash P = hash
  placed : Placed CTransaction.prevouts mempool.mapTx mempool.mapNextTx

variable {P : Params} {env : ScriptEnv} {v : PoolView} {mempool mempool' : CTxMemPool}
  {tx : CTransaction} {ops : List PoolOp}

/-! ## Steps -/

theorem exact_empty : CTxMemPool.empty.Exact P := by
  refine ⟨fun hash tx h => ?_, placed_empty⟩
  cases h

/-- The loop of `addUnchecked` places the inputs. -/
theorem foldl_insert_zipIdx (hash : Uint256) (vin : List CTxIn) (n : ℕ)
    (m : StdMap COutPoint (Uint256 × ℕ)) :
    (vin.zipIdx n).foldl (fun m txin => m.insert txin.1.prevout (hash, txin.2)) m =
      placeAll hash n (vin.map CTxIn.prevout) m := by
  induction vin generalizing n m with
  | nil => rfl
  | cons txin vin ih =>
    rw [List.zipIdx_cons, List.foldl_cons, ih]
    rfl

/-- The loop of `remove` erases the places. -/
theorem foldl_erase_prevout (vin : List CTxIn) (m : StdMap COutPoint (Uint256 × ℕ)) :
    vin.foldl (fun m txin => m.erase txin.prevout) m =
      (vin.map CTxIn.prevout).foldl (fun m o => m.erase o) m := by
  rw [List.foldl_map]

/-- **Adding a transaction keeps the index exact** when the pool admits it. -/
theorem CTxMemPool.Exact.addUnchecked (h : mempool.Exact P) (hloose : tx.Loose P)
    (hadmits : mempool.Admits P tx) : (mempool.addUnchecked (tx.getHash P) tx).Exact P := by
  constructor
  · intro hash tx' hlookup
    rw [CTxMemPool.addUnchecked, Overlay.lookup_insert_eq_ite] at hlookup
    by_cases heq : hash = tx.getHash P
    · rw [if_pos heq] at hlookup
      cases hlookup
      exact heq.symm
    · rw [if_neg heq] at hlookup
      exact h.hash_eq hash tx' hlookup
  · rw [CTxMemPool.addUnchecked, foldl_insert_zipIdx]
    refine h.placed.insert hadmits.hash_notMem ?_ fun o ho => ?_
    · exact (CTransaction.checked_of_checkTransaction hloose.checkTransaction).prevouts_nodup
    · obtain ⟨txin, htxin, rfl⟩ := List.mem_map.mp ho
      exact hadmits.prevout_notMem txin htxin

/-- **Removing a transaction keeps the index exact** when no other one in the pool has its hash. -/
theorem CTxMemPool.Exact.remove (h : mempool.Exact P)
    (hsame : ∀ tx', mempool.mapTx.lookup (tx.getHash P) = some tx' → tx' = tx) :
    (mempool.remove P tx).Exact P := by
  rw [CTxMemPool.remove]
  by_cases hmem : tx.getHash P ∈ mempool.mapTx
  · obtain ⟨tx', hlookup⟩ := Finmap.mem_iff.mp hmem
    obtain rfl := hsame tx' hlookup
    simp only [if_pos hmem, foldl_erase_prevout]
    refine ⟨fun hash tx'' hlookup' => ?_, h.placed.erase hlookup⟩
    rw [Overlay.lookup_erase_eq_ite] at hlookup'
    by_cases heq : hash = tx'.getHash P
    · rw [if_pos heq] at hlookup'
      cases hlookup'
    · rw [if_neg heq] at hlookup'
      exact h.hash_eq hash tx'' hlookup'
  · simpa only [if_neg hmem] using h

/-- What comes into the pool with an operation is the transaction that the operation is about; it is
loose, and filed under its hash. -/
theorem PoolOp.mem_or_eq (op : PoolOp) {hash : Uint256}
    (h : (op.next P env mempool).mapTx.lookup hash = some tx) :
    mempool.mapTx.lookup hash = some tx ∨ tx = op.tx ∧ tx.Loose P ∧ tx.getHash P = hash := by
  cases op with
  | accept v fLimited fCheckInputs tx' =>
    rw [PoolOp.next] at h
    cases haccept : tx'.acceptToMemoryPool P env v mempool fLimited fCheckInputs with
    | error e =>
      rw [haccept] at h
      exact .inl h
    | ok mempool' =>
      rw [haccept] at h
      obtain ⟨hloose, -, -, rfl⟩ := acceptToMemoryPool_eq_ok.mp haccept
      rw [CTxMemPool.addUnchecked, Overlay.lookup_insert_eq_ite] at h
      by_cases heq : hash = tx'.getHash P
      · rw [if_pos heq] at h
        obtain rfl := Option.some.inj h
        exact .inr ⟨rfl, hloose, heq.symm⟩
      · rw [if_neg heq] at h
        exact .inl h
  | remove tx' =>
    rw [PoolOp.next, CTxMemPool.remove] at h
    by_cases hmem : tx'.getHash P ∈ mempool.mapTx
    · simp only [if_pos hmem, Overlay.lookup_erase_eq_ite] at h
      by_cases heq : hash = tx'.getHash P
      · rw [if_pos heq] at h
        cases h
      · rw [if_neg heq] at h
        exact .inl h
    · simp only [if_neg hmem] at h
      exact .inl h

/-- An operation keeps the index exact. -/
theorem PoolOp.exact_next (op : PoolOp) (h : mempool.Exact P)
    (hsame : ∀ tx', mempool.mapTx.lookup (op.tx.getHash P) = some tx' → tx' = op.tx) :
    (op.next P env mempool).Exact P := by
  cases op with
  | accept v fLimited fCheckInputs tx =>
    rw [PoolOp.next]
    cases haccept : tx.acceptToMemoryPool P env v mempool fLimited fCheckInputs with
    | error e => exact h
    | ok mempool' =>
      obtain ⟨hloose, hadmits, -, rfl⟩ := acceptToMemoryPool_eq_ok.mp haccept
      exact h.addUnchecked hloose hadmits
  | remove tx => exact h.remove hsame

/-! ## Runs -/

/-- A pool whose transactions come from a list that is free of collisions with the operations stays
exact. -/
theorem CTxMemPool.Exact.run (h : mempool.Exact P) {txs : List CTransaction}
    (hsource : ∀ hash tx, mempool.mapTx.lookup hash = some tx → tx ∈ txs)
    (hops : ∀ op ∈ ops, op.tx ∈ txs)
    (hfree : ∀ tx ∈ txs, ∀ tx' ∈ txs, tx.getHash P = tx'.getHash P → tx = tx') :
    (mempool.run P env ops).Exact P := by
  induction ops generalizing mempool with
  | nil => exact h
  | cons op ops ih =>
    have hop : op.tx ∈ txs := hops op List.mem_cons_self
    refine ih (op.exact_next h fun tx' hlookup => ?_) (fun hash tx hlookup => ?_)
      fun op' hop' => hops op' (List.mem_cons_of_mem op hop')
    · exact hfree tx' (hsource _ tx' hlookup) op.tx hop (h.hash_eq _ tx' hlookup)
    · rcases op.mem_or_eq hlookup with hold | ⟨rfl, -⟩
      · exact hsource hash tx hold
      · exact hop

/-- **The index of the memory pool is exact after any operations**: `mapNextTx` leads from an
outpoint to input `i` of a transaction exactly when the transaction is in the pool and that is its
input. So no two transactions of the pool claim the same outpoint, no entry is about a transaction
that is not in the pool, and no input is missing. -/
theorem mapNextTx_exact (P : Params) (env : ScriptEnv) (ops : List PoolOp)
    (hfree : CollisionFree P ops) :
    let mempool := CTxMemPool.empty.run P env ops
    (∀ o hash i, mempool.mapNextTx.lookup o = some (hash, i) ↔
      ∃ tx, mempool.mapTx.lookup hash = some tx ∧ tx.getHash P = hash ∧
        tx.prevouts[i]? = some o) ∧
    (∀ hash tx hash' tx' o, mempool.mapTx.lookup hash = some tx →
      mempool.mapTx.lookup hash' = some tx' → o ∈ tx.prevouts → o ∈ tx'.prevouts → hash = hash') ∧
    (∀ o hash i, mempool.mapNextTx.lookup o = some (hash, i) → hash ∈ mempool.mapTx) ∧
    (∀ hash tx, mempool.mapTx.lookup hash = some tx → ∀ o ∈ tx.prevouts,
      ∃ i, mempool.mapNextTx.lookup o = some (hash, i)) := by
  intro mempool
  have hexact : mempool.Exact P := by
    refine exact_empty.run (fun hash tx h => ?_)
      (fun op hop => List.mem_map_of_mem hop) ?_
    · cases h
    · intro tx htx tx' htx' heq
      obtain ⟨op, hop, rfl⟩ := List.mem_map.mp htx
      obtain ⟨op', hop', rfl⟩ := List.mem_map.mp htx'
      exact hfree op hop op' hop' heq
  refine ⟨fun o hash i => ?_, fun hash tx hash' tx' o h h' ho ho' => ?_, fun o hash i h => ?_,
    fun hash tx h o ho => ?_⟩
  · rw [hexact.placed o hash i]
    constructor
    · rintro ⟨tx, hlookup, hi⟩
      exact ⟨tx, hlookup, hexact.hash_eq hash tx hlookup, hi⟩
    · rintro ⟨tx, hlookup, -, hi⟩
      exact ⟨tx, hlookup, hi⟩
  · exact hexact.placed.eq_of_mem h h' ho ho'
  · obtain ⟨tx, hlookup, -⟩ := (hexact.placed o hash i).mp h
    exact Finmap.mem_of_lookup_eq_some hlookup
  · exact ⟨_, (hexact.placed o hash _).mpr ⟨tx, h, List.getElem?_idxOf ho⟩⟩

/-- A view of a node with an empty chain. -/
def examplePoolView : PoolView := ⟨∅, ⟨[]⟩, 0, 0, []⟩

/-- A transaction and one that spends it are resurrected, and the first is removed again. -/
def examplePoolOps : List PoolOp :=
  [.accept examplePoolView false false (exampleTx 1 [⟨5, 0⟩] [7]),
    .accept examplePoolView false false (exampleTx 2 [⟨exampleHash 1, 0⟩] [6]),
    .remove (exampleTx 1 [⟨5, 0⟩] [7])]

/-- The hypothesis holds of these operations. -/
theorem mapNextTx_exact_examplePoolOps :
    let mempool := CTxMemPool.empty.run exampleParams exampleScriptEnv examplePoolOps
    ∀ o hash i, mempool.mapNextTx.lookup o = some (hash, i) ↔
      ∃ tx, mempool.mapTx.lookup hash = some tx ∧ tx.getHash exampleParams = hash ∧
        tx.prevouts[i]? = some o := by
  have hfree : CollisionFree exampleParams examplePoolOps := by
    unfold CollisionFree
    decide
  exact (mapNextTx_exact exampleParams exampleScriptEnv examplePoolOps hfree).1

/-! ## The operations of the node -/

theorem CTxMemPool.run_append (P : Params) (env : ScriptEnv) (mempool : CTxMemPool)
    (ops ops' : List PoolOp) :
    mempool.run P env (ops ++ ops') = (mempool.run P env ops).run P env ops' :=
  List.foldl_append

/-- Removing the transactions of a block is a sequence of operations. -/
theorem CTxMemPool.removeAll_eq_run (P : Params) (env : ScriptEnv) (mempool : CTxMemPool)
    (vtx : List CTransaction) : mempool.removeAll P vtx = mempool.run P env (vtx.map .remove) := by
  rw [CTxMemPool.removeAll, CTxMemPool.run, List.foldl_map]
  rfl

/-- Resurrecting a transaction is an operation. -/
theorem CTxMemPool.tryAccept_eq_next (env : ScriptEnv) (v : PoolView) (fLimited : Bool)
    (mempool : CTxMemPool) (tx : CTransaction) :
    mempool.tryAccept P tx = (PoolOp.accept v fLimited false tx).next P env mempool := by
  rw [CTxMemPool.tryAccept, PoolOp.next]
  cases haccept : tx.acceptToMemoryPool P env v mempool fLimited false with
  | ok mempool' => rw [accept_eq_ok.mpr haccept]
  | error e =>
    cases hold : mempool.accept P tx with
    | error r => rfl
    | ok mempool' =>
      rw [accept_eq_ok.mp hold] at haccept
      cases haccept

/-- Resurrecting transactions is a sequence of operations. -/
theorem CTxMemPool.foldl_tryAccept_eq_run (P : Params) (env : ScriptEnv) (v : PoolView)
    (mempool : CTxMemPool) (vResurrect : List CTransaction) :
    vResurrect.foldl (CTxMemPool.tryAccept P) mempool =
      mempool.run P env (vResurrect.map (.accept v false false)) := by
  rw [CTxMemPool.run, List.foldl_map]
  congr 1
  funext mempool tx
  exact CTxMemPool.tryAccept_eq_next env v false mempool tx

/-- What `Reorganize` does to the pool is a sequence of operations: the transactions of the
disconnected blocks are accepted unchecked, and those of the connected blocks are removed. -/
theorem CTxMemPool.reorganize_eq_run (P : Params) (env : ScriptEnv) (v : PoolView)
    (mempool : CTxMemPool) (vResurrect vDelete : List CTransaction) :
    (vResurrect.foldl (CTxMemPool.tryAccept P) mempool).removeAll P vDelete =
      mempool.run P env (vResurrect.map (.accept v false false) ++ vDelete.map .remove) := by
  rw [CTxMemPool.run_append, ← CTxMemPool.foldl_tryAccept_eq_run,
    CTxMemPool.removeAll_eq_run P env]

end FoxCoin
