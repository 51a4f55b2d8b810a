import FoxCoin.MainChain
import FoxCoin.PoolIndex

/-! # The memory pool and the main chain

A transaction is accepted when nothing spends its inputs yet. A block that is connected takes its
own transactions out of the pool, by their hashes; a transaction that conflicts with one of them
stays there. -/

namespace FoxCoin

open Checked Overlay Runs

variable {P : Params} {env : ScriptEnv} {v : PoolView} {mempool mempool' : CTxMemPool}
  {tx tx' : CTransaction} {ops : List PoolOp} {hash : Uint256} {o : COutPoint} {s s' : NodeState}
  {root p q r r' : CBlockIndex} {m : TxIndexMap}

/-! ## What is in the pool -/

theorem CTxMemPool.lookup_remove (mempool : CTxMemPool) (tx : CTransaction) (hash : Uint256) :
    (mempool.remove P tx).mapTx.lookup hash =
      if hash = tx.getHash P then none else mempool.mapTx.lookup hash := by
  rw [CTxMemPool.remove]
  by_cases hmem : tx.getHash P ∈ mempool.mapTx
  · simp only [if_pos hmem]
    exact lookup_erase_eq_ite _ _ _
  · simp only [if_neg hmem]
    by_cases heq : hash = tx.getHash P
    · rw [if_pos heq, heq, Finmap.lookup_eq_none.mpr hmem]
    · rw [if_neg heq]

/-- The transactions of a block are no longer in the pool. -/
theorem CTxMemPool.lookup_removeAll (mempool : CTxMemPool) (vtx : List CTransaction)
    (hash : Uint256) : (mempool.removeAll P vtx).mapTx.lookup hash =
      if hash ∈ vtx.map (CTransaction.getHash P) then none else mempool.mapTx.lookup hash := by
  induction vtx generalizing mempool with
  | nil => rfl
  | cons tx vtx ih =>
    rw [CTxMemPool.removeAll, List.foldl_cons]
    refine (ih (mempool.remove P tx)).trans ?_
    rw [lookup_remove]
    by_cases heq : hash = tx.getHash P
    · simp [heq]
    · simp [heq]

/-- What is in the pool after operations was there before, or is loose and one of them accepted
it. -/
theorem CTxMemPool.lookup_run (h : (mempool.run P env ops).mapTx.lookup hash = some tx) :
    mempool.mapTx.lookup hash = some tx ∨
      (∃ op ∈ ops, op.tx = tx) ∧ tx.Loose P ∧ tx.getHash P = hash := by
  induction ops generalizing mempool with
  | nil => exact .inl h
  | cons op ops ih =>
    rcases ih h with hfirst | ⟨⟨op', hop', heq⟩, hloose, hhash⟩
    · rcases op.mem_or_eq hfirst with hold | ⟨rfl, hloose, hhash⟩
      · exact .inl hold
      · exact .inr ⟨⟨op, List.mem_cons_self, rfl⟩, hloose, hhash⟩
    · exact .inr ⟨⟨op', List.mem_cons_of_mem op hop', heq⟩, hloose, hhash⟩

/-- What is in the pool after a switch: it was there before or has been resurrected, and it is not
deleted. -/
theorem CTxMemPool.lookup_reorganized (env : ScriptEnv) (v : PoolView)
    {vResurrect vDelete : List CTransaction}
    (h : ((vResurrect.foldl (CTxMemPool.tryAccept P) mempool).removeAll P vDelete).mapTx.lookup
      hash = some tx) :
    (mempool.mapTx.lookup hash = some tx ∨
      tx ∈ vResurrect ∧ tx.Loose P ∧ tx.getHash P = hash) ∧
      ∀ tx' ∈ vDelete, tx'.getHash P ≠ hash := by
  rw [lookup_removeAll] at h
  by_cases hdeleted : hash ∈ vDelete.map (CTransaction.getHash P)
  · rw [if_pos hdeleted] at h
    cases h
  · rw [if_neg hdeleted, CTxMemPool.foldl_tryAccept_eq_run P env v] at h
    refine ⟨?_, fun tx' htx' heq => hdeleted (heq ▸ List.mem_map_of_mem htx')⟩
    rcases lookup_run h with hold | ⟨⟨op, hop, heq⟩, hloose, hhash⟩
    · exact .inl hold
    · obtain ⟨tx', htx', rfl⟩ := List.mem_map.mp hop
      subst heq
      exact .inr ⟨htx', hloose, hhash⟩

/-! ## What is accepted with its inputs checked -/

/-- Whatever the fetched inputs have for the hash of an outpoint has a mark for it. -/
def MarksInput (inputs : MapPrevTx) (o : COutPoint) : Prop :=
  ∀ txindex txPrev, inputs.lookup o.hash = some (txindex, txPrev) →
    ∃ pos, txindex.vSpent[o.n]? = some pos ∧ pos.isNull = false

/-- `FetchInputs` takes the marks from the database. -/
theorem marksInput_fetchInput {cv : ChainView} {m q : TxIndexMap} {inputs inputs' : MapPrevTx}
    {txin : CTxIn} (hmarked : Marked m o) (h : MarksInput inputs o)
    (hfetch : fetchInput cv m q false false inputs txin = .ok inputs') : MarksInput inputs' o := by
  obtain ⟨e, he, hspent⟩ := hmarked
  rw [fetchInput] at hfetch
  by_cases hmem : txin.prevout.hash ∈ inputs
  · rw [if_pos hmem] at hfetch
    cases hfetch
    exact h
  · -- an entry that is fetched is the one of the index where the hashes agree
    have hnew : ∀ e' txPrev, (o.hash = txin.prevout.hash → e' = e) →
        MarksInput (inputs.insert txin.prevout.hash (e', txPrev)) o := by
      intro e' txPrev heq txindex txPrev' hlookup
      rw [lookup_insert_eq_ite] at hlookup
      by_cases hhash : o.hash = txin.prevout.hash
      · rw [if_pos hhash] at hlookup
        cases hlookup
        rw [heq hhash]
        exact hspent
      · rw [if_neg hhash] at hlookup
        exact h txindex txPrev' hlookup
    simp only [if_neg hmem, Bool.or_self, Bool.false_and, Bool.false_eq_true, if_false] at hfetch
    cases hlookup : m.lookup txin.prevout.hash with
    | none =>
      simp only [hlookup, bind_eq_ok, pure_eq_ok] at hfetch
      obtain ⟨txPrev, -, rfl⟩ := hfetch
      refine hnew _ _ fun hhash => ?_
      rw [hhash, hlookup] at he
      cases he
    | some e' =>
      have heq : o.hash = txin.prevout.hash → e' = e := by
        intro hhash
        rw [hhash, hlookup] at he
        exact Option.some.inj he
      simp only [hlookup] at hfetch
      by_cases hpool : e'.pos = CDiskTxPos.inMemory
      · simp only [if_pos hpool, bind_eq_ok, pure_eq_ok] at hfetch
        obtain ⟨txPrev, -, rfl⟩ := hfetch
        exact hnew _ _ heq
      · simp only [if_neg hpool] at hfetch
        cases hread : cv.files.readTx e'.pos.nFile e'.pos.nTxPos with
        | none =>
          rw [hread] at hfetch
          cases hfetch
        | some txPrev =>
          rw [hread] at hfetch
          cases hfetch
          exact hnew _ _ heq

/-- What a round of the second loop of `ConnectInputs` does to the fetched inputs. -/
theorem spendInput_ok {cv : ChainView} {pos : CDiskTxPos} {fBlock fMiner fStrict : Bool}
    {st st' : MapPrevTx × TxIndexMap} {txin : CTxIn × ℕ}
    (h : spendInput P cv tx pos fBlock fMiner fStrict st txin = .ok st') :
    ∃ txindex txPrev, st.1.lookup txin.1.prevout.hash = some (txindex, txPrev) ∧
      (txindex.vSpent.getD txin.1.prevout.n CDiskTxPos.setNull).isNull = true ∧
      st'.1 = st.1.insert txin.1.prevout.hash (txindex.mark txin.1.prevout.n pos, txPrev) := by
  rw [spendInput] at h
  cases hlookup : st.1.lookup txin.1.prevout.hash with
  | none =>
    rw [hlookup] at h
    cases h
  | some p =>
    obtain ⟨txindex, txPrev⟩ := p
    simp only [hlookup, ensure_bind_eq_ok] at h
    obtain ⟨hnull, h⟩ := h
    refine ⟨txindex, txPrev, rfl, hnull, ?_⟩
    by_cases hverify : (!(fBlock &&
        decide (cv.nBestHeight < Checkpoints.getTotalBlocksEstimate P))) = true
    · simp only [if_pos hverify, bind_eq_ok, pure_eq_ok] at h
      obtain ⟨-, -, rfl⟩ := h
      rfl
    · simp only [if_neg hverify, pure_eq_ok] at h
      rw [← h]

/-- A marked outpoint is not spent: the second loop of `ConnectInputs` fails at it, and keeps the
mark until then. -/
theorem notMem_of_spendInput {cv : ChainView} {pos : CDiskTxPos} {fBlock fMiner fStrict : Bool}
    {l : List (CTxIn × ℕ)} {st st' : MapPrevTx × TxIndexMap}
    (hmarked : MarksInput st.1 o)
    (hspend : l.foldlM (spendInput P cv tx pos fBlock fMiner fStrict) st = .ok st') :
    o ∉ l.map fun txin => txin.1.prevout := by
  induction l generalizing st with
  | nil => exact List.not_mem_nil
  | cons txin l ih =>
    obtain ⟨st₁, hfirst, hrest⟩ := foldlM_cons_eq_ok.mp hspend
    obtain ⟨txindex, txPrev, hlookup, hnull, hst₁⟩ := spendInput_ok hfirst
    have hne : o ≠ txin.1.prevout := by
      rintro rfl
      obtain ⟨pos', hpos', hspent⟩ := hmarked txindex txPrev hlookup
      rw [List.getD_eq_getElem?_getD, hpos', Option.getD_some, hspent] at hnull
      cases hnull
    rw [List.map_cons, List.mem_cons, not_or]
    refine ⟨hne, ih (fun txindex' txPrev' hlookup' => ?_) hrest⟩
    rw [hst₁, lookup_insert_eq_ite] at hlookup'
    by_cases hhash : o.hash = txin.1.prevout.hash
    · rw [if_pos hhash] at hlookup'
      cases hlookup'
      obtain ⟨pos', hpos', hspent⟩ := hmarked txindex txPrev (hhash ▸ hlookup)
      have hn : txin.1.prevout.n ≠ o.n := by
        intro hn
        refine hne ?_
        show (⟨o.hash, o.n⟩ : COutPoint) = ⟨txin.1.prevout.hash, txin.1.prevout.n⟩
        rw [hhash, hn]
      exact ⟨pos', by simpa [CTxIndex.mark, hn] using hpos', hspent⟩
    · rw [if_neg hhash] at hlookup'
      exact hmarked txindex' txPrev' hlookup'

/-- **What is accepted with its inputs checked spends nothing that is marked.** -/
theorem not_marked_of_checkPoolInputs {fLimited : Bool} (hcoin : tx.isCoinBase = false)
    (h : tx.checkPoolInputs P env v mempool fLimited = .ok ()) (ho : o ∈ tx.prevouts) :
    ¬Marked v.mapTxIndex o := by
  intro hmarked
  simp only [CTransaction.checkPoolInputs, bind_eq_ok, mapError_eq_ok] at h
  obtain ⟨inputs, hfetch, _, -, _, -, _, -, _, -, _, -, _, -, _, hconnect, -⟩ := h
  have hinputs : MarksInput inputs o := by
    rw [CTransaction.fetchInputs, hcoin] at hfetch
    simp only [Bool.false_eq_true, if_false, bind_eq_ok, pure_eq_ok] at hfetch
    obtain ⟨inputs', hfetch, -, -, rfl⟩ := hfetch
    refine foldlM_invariant (I := fun inputs => MarksInput inputs o) (fun inputs txin inputs' _ h =>
      marksInput_fetchInput hmarked h) (fun e txPrev h => ?_) hfetch
    cases h
  simp only [CTransaction.connectInputs, hcoin, Bool.false_eq_true, if_false, bind_eq_ok] at hconnect
  obtain ⟨-, -, st, hspend, -⟩ := hconnect
  refine notMem_of_spendInput hinputs hspend ?_
  rw [zipIdx_map_prevout]
  exact ho

/-! ## The transactions of a branch -/

/-- The branch of an index, from the block after the genesis block on. -/
theorem IsTree.exists_branch (ht : IsTree s.mapBlockIndex root) (hp : p.In s.mapBlockIndex) :
    ∃ l, s.walkFrom p = l ++ [root] ∧ root ∉ l ∧
      s.branchTxs P p = l.reverse.flatMap (s.files.vtx P) := by
  obtain ⟨l, hl⟩ := List.getLast?_eq_some_iff.mp (ht.getLast?_walkOf hp)
  rw [← NodeState.walkFrom_eq] at hl
  refine ⟨l, hl, fun hmem => ?_, ?_⟩
  · have hdist := ht.hashes hp
    rw [← NodeState.walkFrom_eq, hl, List.pairwise_append] at hdist
    exact hdist.2.2 root hmem root List.mem_cons_self rfl
  · rw [NodeState.branchTxs, hl, BlockFiles.walkTxs_append]
    rfl

theorem IsTree.mem_branchTxs (ht : IsTree s.mapBlockIndex root) (hp : p.In s.mapBlockIndex) :
    tx ∈ s.branchTxs P p ↔ ∃ r ∈ s.walkFrom p, r ≠ root ∧ tx ∈ s.files.vtx P r := by
  obtain ⟨l, hl, hroot, htxs⟩ := ht.exists_branch (P := P) hp
  rw [htxs, hl, List.mem_flatMap]
  simp only [List.mem_reverse, List.mem_append, List.mem_singleton]
  constructor
  · rintro ⟨r, hr, htx⟩
    exact ⟨r, .inl hr, fun heq => hroot (heq ▸ hr), htx⟩
  · rintro ⟨r, hr | heq, hne, htx⟩
    · exact ⟨r, hr, htx⟩
    · exact absurd heq hne

/-- Two blocks of a marked branch spend nothing in common. -/
theorem NodeState.BranchMarked.disjoint (h : s.BranchMarked P p)
    (ht : IsTree s.mapBlockIndex root) (hp : p.In s.mapBlockIndex)
    (hr : r ∈ s.walkFrom p) (hr' : r' ∈ s.walkFrom p) (hroot : r ≠ root) (hroot' : r' ≠ root)
    (hne : r ≠ r') (htx : tx ∈ s.files.vtx P r) (htx' : tx' ∈ s.files.vtx P r') (ho : o ∈ tx.spent) :
    o ∉ tx'.spent := by
  obtain ⟨l, hl, -, htxs⟩ := ht.exists_branch (P := P) hp
  have honce := h.once
  rw [htxs, List.flatMap_assoc, List.nodup_flatMap] at honce
  have hmem : ∀ t ∈ s.walkFrom p, t ≠ root → t ∈ l.reverse := by
    intro t ht hne
    rw [hl, List.mem_append, List.mem_singleton] at ht
    exact List.mem_reverse.mpr (ht.resolve_right hne)
  have : Std.Symm (Function.onFun List.Disjoint
      fun r => (s.files.vtx P r).flatMap CTransaction.spent) := ⟨fun _ _ hdisj => hdisj.symm⟩
  have hdisj := honce.2.forall (hmem r hr hroot) (hmem r' hr' hroot') hne
  exact fun ho' => hdisj (List.mem_flatMap.mpr ⟨tx, htx, ho⟩) (List.mem_flatMap.mpr ⟨tx', htx', ho'⟩)

/-! ## The pool apart from the main chain -/

/-- A transaction claims an outpoint that another one spends. -/
def CTransaction.Conflicts (tx tx' : CTransaction) : Prop := ∃ o ∈ tx.prevouts, o ∈ tx'.spent

instance (tx tx' : CTransaction) : Decidable (tx.Conflicts tx') :=
  inferInstanceAs (Decidable (∃ o ∈ tx.prevouts, o ∈ tx'.spent))

/-- The transactions of the main chain after the genesis block, in chain order. -/
def NodeState.mainTxs (P : Params) (s : NodeState) : List CTransaction :=
  s.files.walkTxs P s.bestWalk

/-- The transactions of the blocks that a switch connects. -/
def NodeState.connectedTxs (P : Params) (s : NodeState) (pindexNew : CBlockIndex) :
    List CTransaction := (offWalk (s.walkFrom pindexNew) s.bestWalk).flatMap (s.files.vtx P)

/-- The transactions of the blocks that a switch disconnects. -/
def NodeState.disconnectedTxs (P : Params) (s : NodeState) (pindexNew : CBlockIndex) :
    List CTransaction := (offWalk s.bestWalk (s.walkFrom pindexNew)).flatMap (s.files.vtx P)

/-- **The pool is apart from the main chain**: its transactions are loose and filed under their
hashes, and none conflicts with the main chain. -/
structure NodeState.PoolApart (P : Params) (s : NodeState) : Prop where
  loose : ∀ hash tx, s.mempool.mapTx.lookup hash = some tx → tx.Loose P ∧ tx.getHash P = hash
  apart : ∀ hash tx, s.mempool.mapTx.lookup hash = some tx → ∀ tx' ∈ s.mainTxs P, ¬tx.Conflicts tx'

/-- What is loose spends what it claims. -/
theorem CTransaction.Loose.spent_eq (h : tx.Loose P) : tx.spent = tx.prevouts := by
  rw [CTransaction.spent, if_neg (by simp [h.not_coinBase])]

/-- What is loose claims something, so it conflicts with itself. -/
theorem CTransaction.Loose.conflicts_self (h : tx.Loose P) : tx.Conflicts tx := by
  have hchk := CTransaction.checked_of_checkTransaction h.checkTransaction
  obtain ⟨txin, vin, hvin⟩ := List.exists_cons_of_ne_nil hchk.vin_ne_nil
  have hmem : txin.prevout ∈ tx.prevouts := by
    rw [CTransaction.prevouts, hvin]
    exact List.mem_cons_self
  exact ⟨txin.prevout, hmem, by rw [h.spent_eq]; exact hmem⟩

/-- So nothing in the pool is in the main chain. -/
theorem NodeState.PoolApart.notMem_mainTxs (h : s.PoolApart P)
    (htx : s.mempool.mapTx.lookup hash = some tx) : tx ∉ s.mainTxs P :=
  fun hmem => h.apart hash tx htx tx hmem (h.loose hash tx htx).1.conflicts_self

/-- Whatever of the pool and of the disconnected blocks conflicts with a connected block is in a
connected block itself. -/
def NodeState.Yields (P : Params) (s : NodeState) (pindexNew : CBlockIndex) : Prop :=
  ∀ tx, (s.mempool.mapTx.lookup (tx.getHash P) = some tx ∨
      tx ∈ s.disconnectedTxs P pindexNew ∧ tx.Loose P) →
    ∀ tx' ∈ s.connectedTxs P pindexNew, tx.Conflicts tx' →
      ∃ tx'' ∈ s.connectedTxs P pindexNew, tx''.getHash P = tx.getHash P

/-- **A switch that yields keeps the pool apart.** -/
theorem NodeState.PoolApart.moved (h : s.PoolApart P) (ht : IsTree s.mapBlockIndex root)
    (hq : q.In s.mapBlockIndex) (hp : p.In s.mapBlockIndex) (hbest : s.bestWalk = s.walkFrom q)
    (hmarked : s.BranchMarked P q) (hyields : s.Yields P p) (env : ScriptEnv) (v : PoolView)
    (hmoved : s.Moved P p s') :
    (∀ hash tx, s'.mempool.mapTx.lookup hash = some tx → tx.Loose P ∧ tx.getHash P = hash) ∧
      ∀ hash tx, s'.mempool.mapTx.lookup hash = some tx → ∀ tx' ∈ s.branchTxs P p,
        ¬tx.Conflicts tx' := by
  obtain ⟨vResurrect, vDelete, hresurrect, hdelete, hpool⟩ := hmoved.pool
  have hspec : ∀ hash tx, s'.mempool.mapTx.lookup hash = some tx →
      (s.mempool.mapTx.lookup hash = some tx ∨
        tx ∈ vResurrect ∧ tx.Loose P ∧ tx.getHash P = hash) ∧
        ∀ tx' ∈ vDelete, tx'.getHash P ≠ hash := by
    intro hash tx hlookup
    rw [hpool] at hlookup
    exact CTxMemPool.lookup_reorganized env v hlookup
  have hloose : ∀ hash tx, s'.mempool.mapTx.lookup hash = some tx →
      tx.Loose P ∧ tx.getHash P = hash := by
    intro hash tx hlookup
    rcases (hspec hash tx hlookup).1 with hold | ⟨-, hloose, hhash⟩
    · exact h.loose hash tx hold
    · exact ⟨hloose, hhash⟩
  have hroot : root ∈ s.walkFrom p := by
    obtain ⟨l, hl, -⟩ := ht.exists_branch (P := P) hp
    rw [hl]
    exact List.mem_append_right l List.mem_cons_self
  refine ⟨hloose, fun hash tx hlookup tx' htx' hconflict => ?_⟩
  obtain ⟨hsource, hkept⟩ := hspec hash tx hlookup
  obtain ⟨r, hr, hrroot, htx'⟩ := (ht.mem_branchTxs hp).mp htx'
  by_cases hrbest : r ∈ s.bestWalk
  · -- the block was in the main chain before
    rcases hsource with hold | ⟨hback, hloose, -⟩
    · refine h.apart hash tx hold tx' ?_ hconflict
      rw [mainTxs, hbest]
      exact (ht.mem_branchTxs hq).mpr ⟨r, hbest ▸ hrbest, hrroot, htx'⟩
    · obtain ⟨-, r', hr', htx⟩ := hresurrect tx hback
      obtain ⟨hr'best, hr'off⟩ := mem_offWalk.mp hr'
      have hr'root : r' ≠ root := fun heq => hr'off (heq ▸ hroot)
      have hne : r' ≠ r := fun heq => hr'off (heq ▸ hr)
      obtain ⟨o, ho, ho'⟩ := hconflict
      rw [← hloose.spent_eq] at ho
      exact hmarked.disjoint ht hq (hbest ▸ hr'best) (hbest ▸ hrbest) hr'root hrroot hne htx htx' ho
        ho'
  · -- the block is new: what conflicts with it is deleted
    have hconnected : tx' ∈ s.connectedTxs P p :=
      List.mem_flatMap.mpr ⟨r, mem_offWalk.mpr ⟨hr, hrbest⟩, htx'⟩
    have hhash := (hloose hash tx hlookup).2
    have hcandidate : s.mempool.mapTx.lookup (tx.getHash P) = some tx ∨
        tx ∈ s.disconnectedTxs P p ∧ tx.Loose P := by
      rcases hsource with hold | ⟨hback, hloose, -⟩
      · exact .inl (hhash ▸ hold)
      · obtain ⟨-, r', hr', htx⟩ := hresurrect tx hback
        exact .inr ⟨List.mem_flatMap.mpr ⟨r', hr', htx⟩, hloose⟩
    obtain ⟨tx'', htx'', heq⟩ := hyields tx hcandidate tx' hconnected hconflict
    refine hkept tx'' ((hdelete tx'').mpr ?_) (heq.trans hhash)
    exact List.mem_flatMap.mp htx''

/-! ## Runs -/

/-- What `CTxMemPool::accept` reads of a node. -/
def NodeState.poolView (s : NodeState) (nAdjustedTime : ℤ) : PoolView :=
  ⟨s.txdb.mapTxIndex, s.files, s.nBestHeight, nAdjustedTime, s.bestWalk⟩

/-- What happens to a node and its pool: an event of the node, or a call of `AcceptToMemoryPool`. -/
inductive PoolEvent where
  | node (e : NodeEvent)
  | accept (nAdjustedTime : ℤ) (fLimited fCheckInputs : Bool) (tx : CTransaction)

/-- The effect of an event. -/
def NodeState.nextPool (P : Params) (env : ScriptEnv) (s : NodeState) : PoolEvent → NodeState
  | .node e => s.next P e
  | .accept nAdjustedTime fLimited fCheckInputs tx =>
    { s with
      mempool := (PoolOp.accept (s.poolView nAdjustedTime) fLimited fCheckInputs tx).next P env
        s.mempool }

/-- An event of the node is legal, and leaves the pool alone unless it switches the chain. -/
def NodeState.LegalPool (P : Params) (s : NodeState) : PoolEvent → Prop
  | .node e => s.Legal P e ∧ e.LeavesPool s
  | .accept .. => True

/-- The node with its pool as a system. -/
def poolSystem (P : Params) (env : ScriptEnv) : System NodeState PoolEvent where
  start := NodeState.Loaded P
  legal := NodeState.LegalPool P
  next := NodeState.nextPool P env

/-- The event does not succeed in switching to a branch that leaves a conflict in the pool. -/
def NodeEvent.Yields (P : Params) (s : NodeState) : NodeEvent → Prop
  | .switch env block pindexNew =>
    (s.setBestChain P env block pindexNew).1.isOk = true → s.Yields P pindexNew
  | _ => True

/-- The event keeps the chain and leaves no conflict in the pool, and what is accepted unchecked
does not conflict with the main chain. -/
def PoolEvent.KeepsApart (P : Params) (s : NodeState) : PoolEvent → Prop
  | .node e => e.KeepsChain P s ∧ e.Yields P s
  | .accept _ _ fCheckInputs tx =>
    fCheckInputs = false → ∀ tx' ∈ s.mainTxs P, ¬tx.Conflicts tx'

/-- A state that is in order, with its index marked and its pool apart. -/
structure NodeState.Clean (P : Params) (s : NodeState) : Prop where
  marked : s.ChainMarked P
  apart : s.PoolApart P

/-- The pool stays apart when neither it nor the main chain changes. -/
theorem NodeState.PoolApart.of_eq (h : s.PoolApart P) (hpool : s'.mempool = s.mempool)
    (htxs : s'.mainTxs P = s.mainTxs P) : s'.PoolApart P := by
  constructor
  · rw [hpool]
    exact h.loose
  · rw [hpool, htxs]
    exact h.apart

/-- In a state with a tip, the main chain is the branch of the tip. -/
theorem NodeState.mainTxs_eq (hbest : s.pindexBest = some q) : s.mainTxs P = s.branchTxs P q := by
  rw [mainTxs, branchTxs, bestWalk, hbest]
  rfl

/-- Storing a block keeps the pool apart. -/
theorem NodeState.PoolApart.store (h : s.PoolApart P) (hsound : s.Sound P root)
    (htip : s.TipConsistent q) (env : Env) (block : CBlock) :
    (s.storeBlock P env block).PoolApart P := by
  rcases s.acceptBlock_cases P env block with ⟨hstore, -⟩ | ⟨S, hstore, -⟩
  · rw [hstore]
    exact h
  · rw [hstore]
    refine h.of_eq S.addsIndex.mempool ?_
    rw [mainTxs_eq htip.pindexBest, mainTxs_eq (S.addsIndex.pindexBest.trans htip.pindexBest)]
    exact S.branchTxs_eq hsound htip.indexed

/-- **A switch keeps the pool apart** when it keeps the chain and yields, or when it fails. -/
theorem NodeState.PoolApart.switch {block : CBlock} (h : s.PoolApart P) (hsound : s.Sound P root)
    (htip : s.TipConsistent q) (hmarked : s.BranchMarked P q) (env : ScriptEnv) (e : Env)
    (hp : p.In s.mapBlockIndex) (hread : s.files.readBlock P p.nFile p.nBlockPos = some block)
    (hkeeps : NodeEvent.KeepsChain P s (.switch e block p))
    (hyields : NodeEvent.Yields P s (.switch e block p)) :
    (s.setBestChain P e block p).2.PoolApart P := by
  rcases s.setBestChain_moved hsound htip hmarked e hp hread hkeeps with
    ⟨s', hok, hframe, hmoved, htip'⟩ | hsame
  · have hbest : s.bestWalk = s.walkFrom q := by rw [bestWalk, htip.pindexBest]; rfl
    obtain ⟨hloose, hapart⟩ := h.moved hsound.tree htip.indexed hp hbest hmarked
      (hyields (by rw [hok]; rfl)) env (s.poolView 0) hmoved
    rw [hok]
    refine ⟨hloose, ?_⟩
    have hbranch : (s'.withTip P block p).branchTxs P p = s.branchTxs P p :=
      branchTxs_congr hframe.mapBlockIndex hframe.files
    rw [mainTxs_eq htip'.pindexBest, hbranch]
    exact hapart
  · refine h.of_eq hsame.mempool ?_
    rw [mainTxs_eq htip.pindexBest, mainTxs_eq (hsame.pindexBest.trans htip.pindexBest)]
    exact branchTxs_congr hsame.mapBlockIndex hsame.files

/-- **Accepting a transaction keeps the pool apart**, when its inputs are checked or when it
conflicts with nothing in the main chain. -/
theorem NodeState.PoolApart.accept (h : s.PoolApart P) (htip : s.TipConsistent q)
    (hmarked : s.BranchMarked P q) (env : ScriptEnv) (nAdjustedTime : ℤ)
    (fLimited fCheckInputs : Bool) (tx : CTransaction)
    (hunchecked : fCheckInputs = false → ∀ tx' ∈ s.mainTxs P, ¬tx.Conflicts tx') :
    (s.nextPool P env (.accept nAdjustedTime fLimited fCheckInputs tx)).PoolApart P := by
  rw [nextPool, PoolOp.next]
  cases haccept : tx.acceptToMemoryPool P env (s.poolView nAdjustedTime) s.mempool fLimited
      fCheckInputs with
  | error e => exact h
  | ok mempool' =>
    obtain ⟨hloose, -, hchecks, rfl⟩ := acceptToMemoryPool_eq_ok.mp haccept
    have hnew : ∀ tx' ∈ s.mainTxs P, ¬tx.Conflicts tx' := by
      cases fCheckInputs with
      | false => exact hunchecked rfl
      | true =>
        rintro tx' htx' ⟨o, ho, ho'⟩
        rw [mainTxs_eq htip.pindexBest] at htx'
        exact not_marked_of_checkPoolInputs hloose.not_coinBase (hchecks rfl).2 ho
          (hmarked.marked tx' htx' o ho')
    have hlookup : ∀ hash tx', (s.mempool.addUnchecked (tx.getHash P) tx).mapTx.lookup hash =
        some tx' → (hash = tx.getHash P ∧ tx' = tx) ∨ s.mempool.mapTx.lookup hash = some tx' := by
      intro hash tx' hin
      rw [CTxMemPool.addUnchecked, lookup_insert_eq_ite] at hin
      by_cases heq : hash = tx.getHash P
      · rw [if_pos heq] at hin
        exact .inl ⟨heq, (Option.some.inj hin).symm⟩
      · rw [if_neg heq] at hin
        exact .inr hin
    refine ⟨fun hash tx' hin => ?_, fun hash tx' hin => ?_⟩
    · rcases hlookup hash tx' hin with ⟨rfl, rfl⟩ | hold
      · exact ⟨hloose, rfl⟩
      · exact h.loose hash tx' hold
    · rcases hlookup hash tx' hin with ⟨rfl, rfl⟩ | hold
      · exact hnew
      · exact h.apart hash tx' hold

/-- An event keeps the state clean. -/
theorem NodeState.Clean.next {e : PoolEvent} (h : s.Clean P) (hlegal : s.LegalPool P e)
    (hkeeps : e.KeepsApart P s) : (s.nextPool P env e).Clean P := by
  obtain ⟨root, q, hsound, htip, hmarked⟩ := h.marked
  cases e with
  | node e =>
    obtain ⟨hchain, hyields⟩ := hkeeps
    cases e with
    | store e block =>
      exact ⟨h.marked.next (e := .store e block) hlegal.1 hchain,
        h.apart.store hsound htip e block⟩
    | switch e block p =>
      exact ⟨h.marked.next (e := .switch e block p) hlegal.1 hchain,
        h.apart.switch hsound htip hmarked env e hlegal.1.1 hlegal.1.2 hchain hyields⟩
    | relay mempool wallets mapOrphanBlocks mapOrphanBlocksByPrev =>
      exact ⟨h.marked.next (e := .relay mempool wallets mapOrphanBlocks mapOrphanBlocksByPrev)
        trivial hchain, h.apart.of_eq hlegal.2 rfl⟩
  | accept nAdjustedTime fLimited fCheckInputs tx =>
    refine ⟨?_, h.apart.accept htip hmarked env nAdjustedTime fLimited fCheckInputs tx hkeeps⟩
    exact h.marked.next (e := .relay _ s.setpwalletRegistered s.mapOrphanBlocks
      s.mapOrphanBlocksByPrev) trivial ⟨not_false, trivial⟩

/-- A node that has loaded the genesis block has an empty pool. -/
theorem NodeState.Loaded.clean (h : s.Loaded P) : s.Clean P := by
  have hnone : ∀ hash tx, s.mempool.mapTx.lookup hash ≠ some tx := by
    intro hash tx hlookup
    rw [h.mempool_eq] at hlookup
    cases hlookup
  exact ⟨h.chainMarked, fun hash tx hin => absurd hin (hnone hash tx),
    fun hash tx hin => absurd hin (hnone hash tx)⟩

/-- **Nothing in the pool conflicts with the main chain or is in it**, in every state of a run that
keeps the chain, connects no block that leaves a conflict in the pool, and accepts nothing unchecked
that conflicts with the main chain. -/
theorem pool_apart_of_reaches
    (h : Reaches (poolSystem P env) (fun s e => e.KeepsApart P s) s)
    (htx : s.mempool.mapTx.lookup hash = some tx) :
    (∀ tx' ∈ s.mainTxs P, ∀ o ∈ tx'.spent, o ∉ tx.prevouts) ∧ tx ∉ s.mainTxs P := by
  have hclean : s.Clean P := h.invariant (fun s hs => NodeState.Loaded.clean hs)
    fun s e hs hlegal hkeeps => hs.next hlegal hkeeps
  refine ⟨fun tx' htx' o ho' ho => ?_, hclean.apart.notMem_mainTxs htx⟩
  exact hclean.apart.apart hash tx htx tx' htx' ⟨o, ho, ho'⟩

/-! ## Worked runs -/

/-- Legal events of the node that leave the pool alone are events of the system. -/
theorem keptByEvents_poolSystem : KeptByEvents P (Reachable (poolSystem P env)) :=
  fun _ e h hlegal hleaves => h.next (.node e) ⟨hlegal, hleaves⟩ trivial

/-- Accepting a transaction leaves the orphan blocks alone. -/
theorem NodeState.OrphansChecked.accept (h : s.OrphansChecked P) (env : ScriptEnv)
    (nAdjustedTime : ℤ) (fLimited fCheckInputs : Bool) (tx : CTransaction) :
    (s.nextPool P env (.accept nAdjustedTime fLimited fCheckInputs tx)).OrphansChecked P := h

/-- A transaction that spends the coinbase with the tag 2. -/
def exampleSpend (tag : UInt8) : CTransaction := exampleTx tag [⟨exampleHash 2, 0⟩] [coin / 2]

/-- A branch whose first block has that coinbase, and whose seventeenth block spends it. -/
def conflictingBlock (n : ℕ) : CBlock :=
  exampleBlock (100 + n) (if n = 1 then exampleParams.hashGenesisBlock else 99 + n)
    (1400000000 + 300 * n)
    (exampleCoinbase (n.toUInt8 + 1) [coin] :: if n = 17 then [exampleSpend 31] else [])

/-- The node that has processed sixteen blocks of the branch. -/
def matureNode : NodeState :=
  (genesisNode []).processBlocks
    ((List.range 16).map fun n => (exampleEnv, conflictingBlock (n + 1)))

/-- The node that has accepted another transaction that spends the coinbase. -/
def acceptedNode : NodeState :=
  matureNode.nextPool exampleParams exampleScriptEnv
    (.accept 1400009000 false true (exampleSpend 30))

/-- **A conflict stays in the pool.** The transaction is accepted with its inputs checked. The next
block spends the same coinbase, and only takes its own transactions out of the pool. -/
theorem not_forall_pool_apart : ¬∀ s, Reachable (poolSystem exampleParams exampleScriptEnv) s →
    ∀ hash tx, s.mempool.mapTx.lookup hash = some tx →
      (∀ tx' ∈ s.mainTxs exampleParams, ∀ o ∈ tx'.spent, o ∉ tx.prevouts) ∧
        tx ∉ s.mainTxs exampleParams := by
  intro hall
  have hgenesis : (genesisNode []).Loaded exampleParams := loaded_genesisNode (by decide +kernel)
  have hkept : KeptByEvents exampleParams
      (Reachable (poolSystem exampleParams exampleScriptEnv)) := keptByEvents_poolSystem
  have hmature : Reachable (poolSystem exampleParams exampleScriptEnv) matureNode ∧
      matureNode.OrphansChecked exampleParams :=
    hkept.processBlocks (Reaches.start hgenesis) orphansChecked_genesisNode
  have haccepted : Reachable (poolSystem exampleParams exampleScriptEnv) acceptedNode :=
    hmature.1.next (.accept 1400009000 false true (exampleSpend 30)) trivial trivial
  have horphans : acceptedNode.OrphansChecked exampleParams :=
    hmature.2.accept exampleScriptEnv 1400009000 false true (exampleSpend 30)
  have hconflict := (hkept.processBlock exampleEnv (conflictingBlock 17) haccepted horphans).1
  have hpool : (acceptedNode.processBlock exampleParams exampleEnv
      (conflictingBlock 17)).2.mempool.mapTx.lookup (exampleHash 30) = some (exampleSpend 30) := by
    decide +kernel
  exact (hall _ hconflict _ _ hpool).1 (exampleSpend 31) (by decide +kernel) ⟨exampleHash 2, 0⟩
    (by decide) (by decide)

/-- A node that has accepted a transaction unchecked and stored a block. -/
def pooledNode : NodeState :=
  ((genesisNode []).nextPool exampleParams exampleScriptEnv
    (.accept 1400009000 false false (exampleSpend 30))).storeBlock exampleParams exampleEnv blockA1

/-- The node that has switched to the block. -/
def pooledA1 : NodeState :=
  pooledNode.next exampleParams (.switch exampleEnv blockA1 (pooledNode.indexOf 11))

/-- A block that spends nothing leaves no conflict. -/
theorem pool_apart_pooledA1 :
    (∀ tx' ∈ pooledA1.mainTxs exampleParams, ∀ o ∈ tx'.spent, o ∉ (exampleSpend 30).prevouts) ∧
      exampleSpend 30 ∉ pooledA1.mainTxs exampleParams := by
  have hgenesis : (genesisNode []).Loaded exampleParams := loaded_genesisNode (by decide +kernel)
  have hapart : ∀ tx' ∈ (genesisNode []).mainTxs exampleParams, ¬(exampleSpend 30).Conflicts tx' := by
    decide +kernel
  have hstart : Reaches (poolSystem exampleParams exampleScriptEnv)
      (fun s e => e.KeepsApart exampleParams s) (genesisNode []) := .start hgenesis
  have haccepted : Reaches (poolSystem exampleParams exampleScriptEnv)
      (fun s e => e.KeepsApart exampleParams s) ((genesisNode []).nextPool exampleParams
        exampleScriptEnv (.accept 1400009000 false false (exampleSpend 30))) :=
    hstart.next (.accept 1400009000 false false (exampleSpend 30))
      trivial fun _ => hapart
  obtain ⟨u, hu⟩ := exists_of_isOk
    (show (blockA1.checkBlock exampleParams 1400009000).isOk = true by decide +kernel)
  have hstored : Reaches (poolSystem exampleParams exampleScriptEnv)
      (fun s e => e.KeepsApart exampleParams s) pooledNode :=
    haccepted.next (.node (.store exampleEnv blockA1)) ⟨⟨_, u, hu⟩, trivial⟩
      ⟨⟨not_false, trivial⟩, trivial⟩
  have hnone : ∀ tx' ∈ pooledNode.connectedTxs exampleParams (pooledNode.indexOf 11),
      tx'.spent = [] := by decide +kernel
  have hnot : NotRecreated exampleParams
      (pooledNode.branchTxs exampleParams (pooledNode.indexOf 11)) := by decide +kernel
  have hyields : pooledNode.Yields exampleParams (pooledNode.indexOf 11) := by
    rintro tx - tx' htx' ⟨o, -, ho⟩
    rw [hnone tx' htx'] at ho
    cases ho
  have hswitched : Reaches (poolSystem exampleParams exampleScriptEnv)
      (fun s e => e.KeepsApart exampleParams s) pooledA1 :=
    hstored.next (.node (.switch exampleEnv blockA1 (pooledNode.indexOf 11)))
      ⟨⟨by decide +kernel, by decide +kernel⟩, trivial⟩
      ⟨⟨Bool.eq_false_iff.mp (by decide +kernel), fun _ => hnot⟩, fun _ => hyields⟩
  have hpool : pooledA1.mempool.mapTx.lookup (exampleHash 30) = some (exampleSpend 30) := by
    decide +kernel
  exact pool_apart_of_reaches hswitched hpool

end FoxCoin
