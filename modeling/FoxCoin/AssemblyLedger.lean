import FoxCoin.BlockAssembly
import FoxCoin.GetWork
import FoxCoin.ValueIn

/-! # The block that a miner is given

The selection marks outputs as spent by transactions in memory; `ConnectBlock` later marks them with
places on disk, on top of the coinbase and one block higher. Both read a ledger of coins. Every
round of the selection is a step that the ledger admits, so that the block connects. -/

namespace FoxCoin

open Checked Ledger

variable {D : Type} [LinearOrder D] {O : DoubleOps D} {P : Params} {s : NodeState} {env : Env}
  {tx cb : CTransaction} {La Lb L : CoinLedger} {k : LedgerContext}

/-! ## Ledgers that agree off a coinbase -/

/-- Two ledgers with the same coins, but for those under a hash that only the second one has. -/
structure AgreeOff (hash : Uint256) (La Lb : CoinLedger) : Prop where
  none_left : ∀ n, La (hash, n) = none
  eq : ∀ o : Uint256 × ℕ, o.1 ≠ hash → Lb o = La o

theorem AgreeOff.coin {hash : Uint256} (h : AgreeOff hash La Lb) {o : Uint256 × ℕ} {c : Coin}
    (hc : La o = some c) : Lb o = some c := by
  rw [h.eq o, hc]
  rintro rfl
  exact absurd (hc.symm.trans (h.none_left o.2)) (by simp)

/-- A transfer under another hash keeps the agreement. -/
theorem AgreeOff.post {hash : Uint256} (h : AgreeOff hash La Lb) {t : Transfer Uint256 Coin}
    (ht : t.key ≠ hash) : AgreeOff hash (post La t) (post Lb t) := by
  constructor
  · intro n
    rw [Ledger.post, create, if_neg (fun heq => ht heq.symm), spend, h.none_left, ite_self]
  · intro o ho
    simp only [Ledger.post, create, spend, h.eq o ho]

/-- A coinbase with a hash of its own only adds coins. -/
theorem agreeOff_coinbase (hcb : cb.isCoinBase = true) (hnew : ∀ n, L (cb.getHash P, n) = none)
    (nHeight : ℕ) : AgreeOff (cb.getHash P) L (post L (cb.transfer P nHeight)) := by
  refine ⟨hnew, fun o ho => ?_⟩
  rw [post, create, if_neg (by exact ho), spend, if_neg]
  simp [CTransaction.transfer, CTransaction.spent, hcb]

/-- The coins that a transaction claims give the same value on both ledgers. -/
theorem valueFrom_eq_of_coin (hcoin : ∀ o c, La o = some c → Lb o = some c)
    (hclaim : ∀ txin ∈ tx.vin, ∃ c, La txin.prevout.coin = some c) :
    tx.valueFrom Lb = tx.valueFrom La := by
  refine congrArg List.sum (List.map_congr_left fun txin htxin => ?_)
  obtain ⟨c, hc⟩ := hclaim txin htxin
  rw [hc, hcoin _ c hc]

theorem p2shSigOpsFrom_eq_of_coin (hcoin : ∀ o c, La o = some c → Lb o = some c)
    (hclaim : ∀ txin ∈ tx.vin, ∃ c, La txin.prevout.coin = some c) :
    tx.p2shSigOpsFrom Lb = tx.p2shSigOpsFrom La := by
  refine congrArg List.sum (List.map_congr_left fun txin htxin => ?_)
  obtain ⟨c, hc⟩ := hclaim txin htxin
  rw [hc, hcoin _ c hc]

/-- **What a ledger admits with every check is admitted with more coins, at a larger height, and
also when signatures are not verified.** -/
theorem CTransaction.Admitted.mono {nHeight nHeight' : ℕ} {fStrict : Bool}
    (h : tx.Admitted P La nHeight true fStrict) (hcoin : ∀ o c, La o = some c → Lb o = some c)
    (hle : nHeight ≤ nHeight') (fVerify : Bool) : tx.Admitted P Lb nHeight' fVerify fStrict := by
  have hvalue := valueFrom_eq_of_coin hcoin fun txin htxin =>
    (h.payable txin htxin).imp fun _ hc => hc.1
  refine ⟨fun txin htxin => ?_, fun _ txin htxin => ?_, hvalue ▸ h.valueIn_le,
    hvalue ▸ h.valueOut_le⟩
  · obtain ⟨c, hc, hpay⟩ := h.payable txin htxin
    exact ⟨c, hcoin _ c hc, fun hcb => (hpay.mature hcb).trans hle, hpay.nonneg, hpay.le_maxMoney⟩
  · obtain ⟨c, hc, hsig⟩ := h.signed rfl txin htxin
    exact ⟨c, hcoin _ c hc, hsig⟩

/-! ## The selection on a ledger -/

/-- Where the selection finds transactions: in the blocks of the walk, or in the new block, which has
no other coinbase than its first transaction. -/
def PlacedForMiner (walk : List CBlockIndex) (nHeight : ℕ) : Placement := fun pos h tx =>
  PlacedIn walk pos h tx ∨ h = nHeight ∧ tx.isCoinBase = false

/-- What a miner builds on: the node is at the tip of a chain, and its pool is sound and has nothing
of the chain. -/
structure NodeState.MinesOn (P : Params) (s : NodeState) (env : Env) (t : ChainBlock P)
    (rest : List (ChainBlock P)) : Prop where
  onChain : (s.view env).OnChain P (t :: rest) s.txdb.mapTxIndex
  best_eq : s.pindexBest = some t.pindex
  walk_eq : s.bestWalk = walk (t :: rest)
  pool : s.PoolSound P
  pool_new : ∀ hash ∈ s.mempool.mapTx, hash ∉ s.txdb.mapTxIndex

/-- A coinbase that is new to the chain and to the pool, with few signature operations. -/
structure CTransaction.NewCoinbase (P : Params) (s : NodeState) (cb : CTransaction) : Prop where
  isCoinBase : cb.isCoinBase = true
  new : cb.getHash P ∉ s.txdb.mapTxIndex ∧ cb.getHash P ∉ s.mempool.mapTx
  sigOps_le : cb.getLegacySigOpCount ≤ 100

/-- The rules of the block on top of a chain that switch on strict pay-to-script-hash. -/
structure LedgerContext.Follows (k : LedgerContext) (tip : CBlockIndex) : Prop where
  height_eq : k.nHeight = tip.nHeight + 1
  strict : k.fStrictPayToScriptHash = true

/-- The state of the ledger after the coinbase and the transactions of the block. -/
def Assembly.ledgerState (P : Params) (k : LedgerContext) (L : CoinLedger) (cb : CTransaction)
    (st : Assembly D) : LedgerState :=
  st.vtx.foldl (LedgerState.next P k) (LedgerState.next P k ⟨L, 0, 0⟩ cb)

/-- The invariant that connects the selection to the ledger. The coins that the selection reads are
those of the chain and of the transactions it has added, without the coinbase. -/
structure Assembly.Mirrors (P : Params) (s : NodeState) (env : Env) (Placed : Placement)
    (k : LedgerContext) (L : CoinLedger) (cb : CTransaction) (st : Assembly D) : Prop where
  refines : ∃ La, Refines P (s.view env) Placed (st.index s) La ∧
    AgreeOff (cb.getHash P) La (st.ledgerState P k L cb).coins
  admits : (LedgerState.next P k ⟨L, 0, 0⟩ cb).AdmitsAll P k L st.vtx
  nFees_eq : (st.ledgerState P k L cb).nFees = st.nFees
  nSigOps_eq : (st.ledgerState P k L cb).nSigOps + 100 = st.nBlockSigOps + cb.getLegacySigOpCount

section Mines

variable {t : ChainBlock P} {rest : List (ChainBlock P)} {st st' : Assembly D} {dPriority : D}

/-- The walk from the tip tells which coinbases are too young at the height of the tip. -/
theorem NodeState.MinesOn.matures (h : s.MinesOn P env t rest) (nHeight : ℕ) :
    (PlacedForMiner (walk (t :: rest)) nHeight).Matures s.bestWalk t.pindex.nHeight := by
  have hdistinct := distinctPlaces_of_stored h.onChain.connected.hashes h.onChain.stored
  have hwalk := matures_of_walk h.onChain.connected.heights hdistinct
  rintro pos h' tx (hplaced | ⟨-, hcb⟩) hcoinbase
  · rw [h.walk_eq]
    exact hwalk pos h' tx hplaced hcoinbase
  · rw [hcb] at hcoinbase
    cases hcoinbase

/-- A candidate can be read from the pool. -/
theorem NodeState.MinesOn.holds (h : s.MinesOn P env t rest) (htx : tx ∈ s.candidateTxs env)
    (nHeight : ℕ) : CDiskTxPos.inMemory.Holds P (s.view env)
      (PlacedForMiner (walk (t :: rest)) nHeight) nHeight tx := by
  obtain ⟨⟨hash, hlook⟩, hcb, -⟩ := NodeState.mem_candidateTxs.mp htx
  obtain ⟨hhash, -⟩ := h.pool hash tx hlook
  refine ⟨rfl, ?_, .inr ⟨rfl, hcb⟩⟩
  rw [ChainView.readPrev, CTxIndex.ofOutputs_pos, if_pos rfl, hhash]
  exact hlook

/-- A transaction that the block accepts is one that the ledger admits. -/
theorem Assembly.Mirrors.admits_of_accepts (h : s.MinesOn P env t rest) (hcoinbase : cb.NewCoinbase P s)
    (hk : k.Follows t.pindex)
    (hmirror : st.Mirrors P s env (PlacedForMiner (walk (t :: rest)) k.nHeight) k
      (chainLedger P (t :: rest)) cb) (htx : tx ∈ s.candidateTxs env)
    (hacc : st.Accepts O P s env dPriority tx) :
    (st.ledgerState P k (chainLedger P (t :: rest)) cb).Admits P k (chainLedger P (t :: rest)) tx ∧
      tx.sigOpsFrom k (st.ledgerState P k (chainLedger P (t :: rest)) cb).coins =
        tx.getLegacySigOpCount + (s.view env).p2shSigOps (st.index s) tx ∧
      tx.valueFrom (st.ledgerState P k (chainLedger P (t :: rest)) cb).coins =
        (s.view env).valueIn (st.index s) tx := by
  obtain ⟨⟨La, hR, hagree⟩, -, -, hops⟩ := hmirror
  obtain ⟨⟨hash, hlook⟩, hcb, -⟩ := NodeState.mem_candidateTxs.mp htx
  have hadm : tx.Admitted P La t.pindex.nHeight true true :=
    (hR.connects_iff (h.matures k.nHeight)).mp hacc.connects
  have hclaim : ∀ txin ∈ tx.vin, ∃ c, La txin.prevout.coin = some c :=
    fun txin htxin => (hadm.payable txin htxin).imp fun _ hc => hc.1
  have hsig : tx.sigOpsFrom k (st.ledgerState P k (chainLedger P (t :: rest)) cb).coins =
      tx.getLegacySigOpCount + (s.view env).p2shSigOps (st.index s) tx := by
    rw [CTransaction.sigOpsFrom, hcb, hk.strict, hR.p2shSigOps_eq hclaim,
      p2shSigOpsFrom_eq_of_coin (fun _ _ => hagree.coin) hclaim]
    rfl
  refine ⟨⟨fun _ n => ?_, ?_, fun _ => ?_⟩, hsig, ?_⟩
  · -- the pool has nothing of the chain
    have hnot : tx.getHash P ∉ s.txdb.mapTxIndex := by
      rw [(h.pool hash tx hlook).1]
      exact h.pool_new hash (Finmap.mem_of_lookup_eq_some hlook)
    exact (h.onChain.connected.refines h.onChain.stored).noEntry _
      (Finmap.lookup_eq_none.mpr hnot) n
  · have hlt := hacc.sigOps_lt
    have hfew := hcoinbase.sigOps_le
    rw [hsig]
    omega
  · rw [hk.strict]
    exact hadm.mono (fun _ _ => hagree.coin) (by rw [hk.height_eq]; omega) k.fVerify
  · rw [valueFrom_eq_of_coin (fun _ _ => hagree.coin) hclaim, hR.valueIn_eq hclaim]

/-- A round that adds its transaction keeps the invariant. -/
theorem Assembly.Mirrors.added (h : s.MinesOn P env t rest) (hcoinbase : cb.NewCoinbase P s)
    (hk : k.Follows t.pindex)
    (hmirror : st.Mirrors P s env (PlacedForMiner (walk (t :: rest)) k.nHeight) k
      (chainLedger P (t :: rest)) cb) (htx : tx ∈ s.candidateTxs env)
    (hacc : st.Accepts O P s env dPriority tx) (hadded : st.Added P s env tx st') :
    st'.Mirrors P s env (PlacedForMiner (walk (t :: rest)) k.nHeight) k
      (chainLedger P (t :: rest)) cb := by
  obtain ⟨hadm, hsig, hvalue⟩ := hmirror.admits_of_accepts h hcoinbase hk htx hacc
  obtain ⟨⟨La, hR, hagree⟩, hadmits, hfees, hops⟩ := hmirror
  obtain ⟨⟨hash, hlook⟩, hcb, -⟩ := NodeState.mem_candidateTxs.mp htx
  have hholds := h.holds htx k.nHeight
  have hstate : st'.ledgerState P k (chainLedger P (t :: rest)) cb =
      (st.ledgerState P k (chainLedger P (t :: rest)) cb).next P k tx := by
    rw [Assembly.ledgerState, hadded.vtx_eq, List.foldl_append]
    rfl
  have hne : tx.getHash P ≠ cb.getHash P := by
    intro heq
    refine hcoinbase.new.2 ?_
    rw [← heq, (h.pool hash tx hlook).1]
    exact Finmap.mem_of_lookup_eq_some hlook
  refine ⟨⟨post La (tx.transfer P k.nHeight), ?_, ?_⟩, ?_, ?_, ?_⟩
  · rw [hadded.index_eq]
    exact hR.applyTx hholds.notNull hholds.read hholds.placed
  · rw [hstate]
    exact hagree.post hne
  · rw [hadded.vtx_eq, LedgerState.admitsAll_append]
    exact ⟨hadmits, hadm, trivial⟩
  · rw [hstate, hadded.nFees_eq, LedgerState.next, hcb, hvalue, hfees]
    rfl
  · rw [hstate, hadded.nBlockSigOps_eq, LedgerState.next, hsig]
    simp only
    omega

omit [LinearOrder D] in
/-- The invariant holds before the second loop. -/
theorem NodeState.MinesOn.mirrors_start (h : s.MinesOn P env t rest)
    (hcoinbase : cb.NewCoinbase P s) (c : Candidates D) :
    (Assembly.start c).Mirrors P s env (PlacedForMiner (walk (t :: rest)) k.nHeight) k
      (chainLedger P (t :: rest)) cb := by
  have hrefines := h.onChain.connected.refines h.onChain.stored
  have hindex : (Assembly.start c).index s = s.txdb.mapTxIndex := Finmap.empty_union
  refine ⟨⟨chainLedger P (t :: rest), ?_, ?_⟩, trivial, ?_, ?_⟩
  · rw [hindex]
    exact hrefines.mono fun _ _ _ hplaced => .inl hplaced
  · exact agreeOff_coinbase hcoinbase.isCoinBase
      (hrefines.noEntry _ (Finmap.lookup_eq_none.mpr hcoinbase.new.1)) k.nHeight
  · simp [Assembly.ledgerState, Assembly.start, LedgerState.next, hcoinbase.isCoinBase]
  · simp [Assembly.ledgerState, Assembly.start, LedgerState.next, CTransaction.sigOpsFrom,
      hcoinbase.isCoinBase, add_comm]

/-- **The ledger of the chain admits the selection** after any new coinbase, with the fees that the
selection has counted. -/
theorem NodeState.MinesOn.mirrors (h : s.MinesOn P env t rest) (hcoinbase : cb.NewCoinbase P s)
    (hk : k.Follows t.pindex) (hst : s.assemble O P env = .ok st) :
    st.Mirrors P s env (PlacedForMiner (walk (t :: rest)) k.nHeight) k
      (chainLedger P (t :: rest)) cb := by
  obtain ⟨st₁, log, hst₁, hrounds⟩ := h.pool.exists_rounds O env
  obtain rfl := Except.ok.inj (hst.symm.trans hst₁)
  refine hrounds.preserves h.pool.checked (Assembly.invariant_start O P s env) (fun st c hm => ?_)
    (fun st dPriority tx st' htx hm hacc hadded => ?_) (h.mirrors_start hcoinbase _)
  · exact ⟨hm.refines, hm.admits, hm.nFees_eq, hm.nSigOps_eq⟩
  · exact hm.added h hcoinbase hk (Multiset.mem_coe.mp htx) hacc hadded

/-! ## Limits -/

/-- The sizes and the signature operations that the selection has counted, with the room that it
keeps for the header and the coinbase. -/
structure Assembly.Within (st : Assembly D) : Prop where
  size_eq : st.nBlockSize = 1000 + (st.vtx.map CTransaction.getSerializeSize).sum
  sigOps_le : 100 + (st.vtx.map CTransaction.getLegacySigOpCount).sum ≤ st.nBlockSigOps
  size_lt : st.nBlockSize < maxBlockSizeGen
  sigOps_lt : st.nBlockSigOps < maxBlockSigops

theorem NodeState.PoolSound.within (hpool : s.PoolSound P) (hst : s.assemble O P env = .ok st) :
    st.Within := by
  obtain ⟨st₁, log, hst₁, hrounds⟩ := hpool.exists_rounds O env
  obtain rfl := Except.ok.inj (hst.symm.trans hst₁)
  refine hrounds.preserves hpool.checked (Assembly.invariant_start O P s env) (fun st c hm => ?_)
    (fun st dPriority tx st' _ hm hacc hadded => ?_) ?_
  · exact ⟨hm.size_eq, hm.sigOps_le, hm.size_lt, hm.sigOps_lt⟩
  · obtain ⟨hsize, hops, -, -⟩ := hm
    refine ⟨?_, ?_, ?_, ?_⟩
    · rw [hadded.nBlockSize_eq, hadded.vtx_eq, hsize]
      simp [add_assoc]
    · rw [hadded.nBlockSigOps_eq, hadded.vtx_eq]
      simp only [List.map_append, List.sum_append, List.map_cons, List.map_nil, List.sum_cons,
        List.sum_nil]
      omega
    · rw [hadded.nBlockSize_eq]
      exact hacc.size_lt
    · rw [hadded.nBlockSigOps_eq]
      exact hacc.sigOps_lt
  · exact ⟨rfl, le_rfl, show 1000 < maxBlockSizeGen by decide, show 100 < maxBlockSigops by decide⟩

/-! ## The new block -/

/-- The first transaction of a new block. -/
def newCoinbase (scriptSig : CScript) (nValue : ℤ) (scriptPubKey : CScript) : CTransaction :=
  ⟨1, [⟨COutPoint.setNull, scriptSig, uintMax⟩], [⟨nValue, scriptPubKey⟩], 0⟩

/-- `CreateNewBlock`, with the script that pays to the reserved key, and the adjusted time when the
header is filled in. -/
def NodeState.createNewBlock (O : DoubleOps D) (M : MiningParams) (s : NodeState) (env : Env)
    (scriptPubKey : CScript) (nAdjustedTime : ℤ) : Result CBlock :=
  match s.pindexBest with
  | none => .error ⟨0, "pindexBest is null"⟩
  | some pindexPrev => do
    let st ← s.assemble O M.P env
    let txout : CTxOut := ⟨getBlockValue (pindexPrev.nHeight + 1) st.nFees, scriptPubKey⟩
    pure (FoxCoin.createNewBlock M pindexPrev.phashBlock nAdjustedTime txout st.vtx)

theorem vtx_createNewBlock (M : MiningParams) (pindexPrev : Uint256) (nAdjustedTime : ℤ)
    (txout : CTxOut) (vtx : List CTransaction) (scriptSig : CScript) :
    ((FoxCoin.createNewBlock M pindexPrev nAdjustedTime txout vtx).setScriptSig scriptSig).vtx =
      newCoinbase scriptSig txout.nValue txout.scriptPubKey :: vtx := by
  unfold FoxCoin.createNewBlock CBlock.updateTime
  simp only
  split <;> rfl

/-- The block that is created has the selection, below a coinbase that claims the reward. -/
theorem NodeState.MinesOn.createNewBlock_eq {M : MiningParams} {t : ChainBlock M.P}
    {rest : List (ChainBlock M.P)} (h : s.MinesOn M.P env t rest) (O : DoubleOps D)
    (scriptPubKey : CScript) (nAdjustedTime : ℤ) :
    ∃ block st, s.createNewBlock O M env scriptPubKey nAdjustedTime = .ok block ∧
      s.assemble O M.P env = .ok st ∧ ∀ scriptSig, (block.setScriptSig scriptSig).vtx =
        newCoinbase scriptSig (getBlockValue (t.pindex.nHeight + 1) st.nFees) scriptPubKey ::
          st.vtx := by
  obtain ⟨st, log, hst, -⟩ := h.pool.exists_rounds O env
  refine ⟨_, st, ?_, hst, fun scriptSig => vtx_createNewBlock M t.pindex.phashBlock nAdjustedTime
    ⟨getBlockValue (t.pindex.nHeight + 1) st.nFees, scriptPubKey⟩ st.vtx scriptSig⟩
  rw [NodeState.createNewBlock, h.best_eq]
  simp only [hst, ok_bind]
  rfl

end Mines

/-! ## A mined block -/

/-- The blocks of a walk that can be read, with their indexes. -/
def readChain (P : Params) (files : BlockFiles) (walk : List CBlockIndex) : List (ChainBlock P) :=
  walk.filterMap fun p => (files.readBlock P p.nFile p.nBlockPos).bind fun block =>
    if h : p.phashBlock = block.getHash P ∧ p.nTime = block.nTime then some ⟨p, block, h.1, h.2⟩
    else none

/-- The chain of the miner's node. -/
def minerChain : List (ChainBlock exampleParams) :=
  readChain exampleParams minerNode.files minerNode.bestWalk

/-- What the miner reads besides the node. -/
def minerParams : MiningParams := ⟨exampleParams, fun _ => [], id, []⟩

theorem minesOn_minerNode {t : ChainBlock exampleParams} {rest : List (ChainBlock exampleParams)}
    (h : minerChain = t :: rest) : minerNode.MinesOn exampleParams exampleEnv t rest := by
  have hwalk : minerNode.bestWalk = walk (t :: rest) := by
    rw [← h]
    decide +kernel
  have hreplay : replay (minerNode.view exampleEnv) Io.reliable minerChain =
      some minerNode.txdb.mapTxIndex := by decide +kernel
  have hnew : ∀ hash ∈ minerNode.mempool.mapTx.keys, hash ∉ minerNode.txdb.mapTxIndex := by
    decide +kernel
  refine ⟨⟨h ▸ connectedChain_of_replay hreplay, h ▸ ?_, fun hash tx hlook =>
    CTransaction.checked_of_checkTransaction (poolSound_minerNode hash tx hlook).2⟩, ?_, hwalk,
    poolSound_minerNode, fun hash hmem => hnew hash (Finmap.mem_keys.mpr hmem)⟩
  · decide +kernel
  · cases hbest : minerNode.pindexBest with
    | none => simp [NodeState.bestWalk, hbest, walk] at hwalk
    | some p =>
      rw [NodeState.bestWalk, hbest, Option.elim_some, NodeState.walkFrom, walk, List.map_cons,
        List.cons.injEq] at hwalk
      rw [hwalk.1]

/-- A block that the miner makes of the new block. -/
def minedBlock : CBlock :=
  exampleBlock 117 116 1400005100
    [newCoinbase [32, 32] (getBlockValue 17 (3 * coin / 4)) [0x51], exampleSpend 30, childSpend]

/-- The block in its file. -/
def minedChainBlock : ChainBlock exampleParams where
  pindex := { CBlockIndex.ofBlock 117 1 (blockFileSize (minerNode.files.vFiles.headD []) + 8)
    minedBlock with nHeight := 17 }
  block := minedBlock
  hash_eq := rfl
  nTime_eq := rfl

/-- The node when the block has been written. -/
def minedView : ChainView :=
  ⟨∅, 16, 1400009000, ⟨(appendBlock minedBlock minerNode.files.vFiles).2.2⟩⟩

theorem newCoinbase_minedBlock : ∀ cb ∈ minedBlock.vtx.head?,
    cb.NewCoinbase exampleParams minerNode := by
  intro cb hcb
  obtain rfl : newCoinbase [32, 32] (getBlockValue 17 (3 * coin / 4)) [0x51] = cb := by
    simpa [minedBlock, exampleBlock] using hcb
  have hnew : exampleHash 32 ∉ minerNode.txdb.mapTxIndex ∧
      exampleHash 32 ∉ minerNode.mempool.mapTx := by decide +kernel
  exact ⟨rfl, hnew, by decide⟩

/-- The block that is created for the miner has the transactions of the mined block. -/
theorem vtx_minedBlock {t : ChainBlock exampleParams} {rest : List (ChainBlock exampleParams)}
    (h : minerChain = t :: rest) {block : CBlock}
    (hblock : minerNode.createNewBlock rationalOps minerParams exampleEnv [0x51] 1400009000 =
      .ok block) : minedBlock.vtx = (block.setScriptSig [32, 32]).vtx := by
  have hmines : minerNode.MinesOn minerParams.P exampleEnv t rest := minesOn_minerNode h
  obtain ⟨block', st, hblock', hst, hvtx⟩ :=
    hmines.createNewBlock_eq rationalOps [0x51] 1400009000
  obtain rfl := Except.ok.inj (hblock.symm.trans hblock')
  have hassemble := assemble_minerNode
  rw [show minerNode.assemble rationalOps exampleParams exampleEnv = .ok st from hst] at hassemble
  obtain ⟨htxs, hfees⟩ := Prod.mk.inj (Option.some.inj hassemble)
  have hheight : ∀ c ∈ minerChain.head?, c.pindex.nHeight = 16 := by decide +kernel
  rw [hvtx, htxs, hfees, hheight t (by rw [h]; rfl)]
  rfl

/-- The coinbase passes `CheckTransaction` when it claims an amount of money. -/
theorem checkTransaction_newCoinbase {scriptSig scriptPubKey : CScript} {nValue : ℤ}
    (hsig : 2 ≤ scriptSig.length ∧ scriptSig.length ≤ 100) (hkey : scriptPubKey.length ≤ 67)
    (hvalue : moneyRange nValue = true) :
    (newCoinbase scriptSig nValue scriptPubKey).checkTransaction = .ok () ∧
      (newCoinbase scriptSig nValue scriptPubKey).getSerializeSize ≤ 900 := by
  have hsize : (newCoinbase scriptSig nValue scriptPubKey).getSerializeSize ≤ 900 := by
    have h1 := getSizeOfCompactSize_le scriptSig.length
    have h2 := getSizeOfCompactSize_le scriptPubKey.length
    have h3 := getSizeOfCompactSize_le (0 + 1)
    simp only [newCoinbase, CTransaction.getSerializeSize, CTxIn.getSerializeSize,
      CTxOut.getSerializeSize, List.length_cons, List.length_nil, List.map_cons, List.map_nil,
      List.sum_cons, List.sum_nil]
    omega
  refine ⟨?_, hsize⟩
  obtain ⟨hlow, hhigh⟩ := moneyRange_iff.mp hvalue
  have hmax : 900 ≤ maxBlockSize := by decide
  have hout : [(⟨nValue, scriptPubKey⟩ : CTxOut)].foldlM checkTxOut 0 = .ok nValue := by
    refine foldlM_cons_eq_ok.mpr ⟨nValue, ?_, rfl⟩
    simp [checkTxOut, hlow, hhigh, hvalue, pure, Except.pure]
  rw [CTransaction.checkTransaction]
  have hcb : (newCoinbase scriptSig nValue scriptPubKey).isCoinBase = true := rfl
  simp only [hcb, decide_eq_true (hsize.trans hmax), ensure_true, ok_bind, if_true]
  show ([(⟨nValue, scriptPubKey⟩ : CTxOut)].foldlM checkTxOut 0 >>= _) = _
  rw [hout, ok_bind]
  simp [newCoinbase, CTransaction.prevouts, hsig]

theorem forM_eq_ok {α : Type} {l : List α} {f : α → Result Unit} (h : ∀ a ∈ l, f a = .ok ()) :
    l.forM f = .ok () := by
  induction l with
  | nil => rfl
  | cons a l ih =>
    obtain ⟨ha, hl⟩ := List.forall_mem_cons.mp h
    show (f a >>= fun _ => l.forM f) = .ok ()
    rw [ha, ok_bind, ih hl]

/-- A transaction takes at least one byte. -/
theorem length_le_sum_size (vtx : List CTransaction) :
    vtx.length ≤ (vtx.map CTransaction.getSerializeSize).sum := by
  induction vtx with
  | nil => exact le_rfl
  | cons tx vtx ih =>
    have hpos := tx.getSerializeSize_pos
    simp only [List.length_cons, List.map_cons, List.sum_cons]
    omega

end FoxCoin
