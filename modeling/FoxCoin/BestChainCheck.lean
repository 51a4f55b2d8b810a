import FoxCoin.NodeState
import FoxCoin.SpendOrder
import FoxCoin.SpentMarks

/-! # The start-up check of the best chain

`LoadBlockIndex` reads the last blocks of the best chain again, from the tip down, and checks them
against the transaction index. When a check fails it remembers the block below, and the chain is
moved back to it. A transaction index that has been built by connecting and disconnecting blocks
holds, for every transaction of the chain, its place, and for every output that is spent the place
of a later transaction that spends it; so every check but the one of the block times passes. -/

namespace FoxCoin

open Checked Overlay

/-! ## The checks -/

/-- What the check reads: the block files and whether they can be read, the transaction index, and
the adjusted time. -/
structure CheckView where
  files : BlockFiles
  io : Io
  mapTxIndex : TxIndexMap
  nAdjustedTime : ℤ

namespace CheckView

variable (P : Params) (v : CheckView) (nCheckLevel : ℤ)

/-- Level 2, and level 3 in any case: the transaction that is found at the place in the index is
another one, or none. -/
def mislocated (pindex : CBlockIndex) (hashTx : Uint256) (txindex : CTxIndex) : Bool :=
  (decide (2 < nCheckLevel) || decide (pindex.nFile ≠ txindex.pos.nFile) ||
      decide (pindex.nBlockPos ≠ txindex.pos.nBlockPos)) &&
    match v.files.readTx txindex.pos.nFile txindex.pos.nTxPos with
    | none => true
    | some txFound => decide (txFound.getHash P ≠ hashTx)

/-- Level 6: the transaction at the place of a mark cannot be read, is invalid, or does not spend
the output. -/
def badSpender (hashTx : Uint256) (nOutput : ℕ) (txpos : CDiskTxPos) : Bool :=
  match v.files.readTx txpos.nFile txpos.nTxPos with
  | none => true
  | some txSpend => !txSpend.checkTransaction.isOk ||
      !txSpend.vin.any fun txin =>
        decide (txin.prevout.hash = hashTx) && decide (txin.prevout.n = nOutput)

/-- Level 4: a mark leads to a block that has not been visited. -/
def badSpend (mapBlockPos : Finset (ℕ × ℕ)) (hashTx : Uint256) (txpos : CDiskTxPos)
    (nOutput : ℕ) : Bool :=
  !txpos.isNull && (decide ((txpos.nFile, txpos.nBlockPos) ∉ mapBlockPos) ||
    decide (5 < nCheckLevel) && v.badSpender hashTx nOutput txpos)

/-- Level 5: what an input claims is in the index and not marked. The size of the marks less one is
an unsigned number, the largest one when there are none. -/
def unspentPrevout (txin : CTxIn) : Bool :=
  match v.mapTxIndex.lookup txin.prevout.hash with
  | none => false
  | some txindex =>
    decide (0 < txindex.vSpent.length) && decide (txindex.vSpent.length - 1 < txin.prevout.n) ||
      (txindex.vSpent.getD txin.prevout.n CDiskTxPos.setNull).isNull

/-- The checks of one transaction. -/
def badTx (mapBlockPos : Finset (ℕ × ℕ)) (pindex : CBlockIndex) (tx : CTransaction) : Bool :=
  (match v.mapTxIndex.lookup (tx.getHash P) with
    | none => false
    | some txindex => v.mislocated P nCheckLevel pindex (tx.getHash P) txindex ||
        decide (3 < nCheckLevel) && txindex.vSpent.zipIdx.any fun p =>
          v.badSpend nCheckLevel mapBlockPos (tx.getHash P) p.1 p.2) ||
    decide (4 < nCheckLevel) && tx.vin.any v.unspentPrevout

/-- The checks of one block. Whatever fails, the block below is remembered. -/
def badBlock (mapBlockPos : Finset (ℕ × ℕ)) (pindex : CBlockIndex) (block : CBlock) : Bool :=
  decide (0 < nCheckLevel) && !(block.checkBlock P v.nAdjustedTime).isOk ||
    decide (1 < nCheckLevel) && block.vtx.any (v.badTx P nCheckLevel mapBlockPos pindex)

/-- The loop from an index down, to the genesis block or to a height: `pindexFork` in the end. -/
def checkLoop (nStopHeight : ℤ) : Finset (ℕ × ℕ) → Option CBlockIndex → List CBlockIndex →
    Result (Option CBlockIndex)
  | _, pindexFork, [] => .ok pindexFork
  | _, pindexFork, [_] => .ok pindexFork
  | mapBlockPos, pindexFork, pindex :: pprev :: vPrev =>
    if (pindex.nHeight : ℤ) < nStopHeight then .ok pindexFork
    else
      match v.files.readFromDisk P v.io pindex with
      | none => .error ⟨0, "LoadBlockIndex() : block.ReadFromDisk failed"⟩
      | some block =>
        let mapBlockPos :=
          if 1 < nCheckLevel then insert (pindex.nFile, pindex.nBlockPos) mapBlockPos
          else mapBlockPos
        checkLoop nStopHeight mapBlockPos
          (if v.badBlock P nCheckLevel mapBlockPos pindex block then some pprev else pindexFork)
          (pprev :: vPrev)

/-- The height below which the loop stops, with `-checkblocks` as `nCheckDepth`. -/
def stopHeight (nCheckDepth : ℤ) (bestWalk : List CBlockIndex) : ℤ :=
  let nBestHeight : ℤ := (bestWalk.head?.map CBlockIndex.nHeight).getD 0
  let nCheckDepth := if nCheckDepth = 0 then 1000000000 else nCheckDepth
  let nCheckDepth := if nBestHeight < nCheckDepth then nBestHeight else nCheckDepth
  nBestHeight - nCheckDepth

/-- The verification of `LoadBlockIndex` on the walk from the tip. -/
def checkBestChain (nCheckDepth : ℤ) (bestWalk : List CBlockIndex) : Result (Option CBlockIndex) :=
  v.checkLoop P nCheckLevel (stopHeight nCheckDepth bestWalk) ∅ none bestWalk

end CheckView

variable {P : Params} {m : TxIndexMap} {tx : CTransaction} {chain : List (ChainBlock P)}
  {index : TxIndexMap}

/-! ## What the index says about a list of transactions -/

/-- Transactions with their places on disk. -/
abbrev PlacedTx := CDiskTxPos × CTransaction

/-- **The index of a list of transactions**, in chain order: their entries have their places, the
marks of an output are the places of later transactions that spend it, and every output that is
spent is marked. -/
structure IndexOf (P : Params) (l : List PlacedTx) (m : TxIndexMap) : Prop where
  keys : ∀ h, h ∈ m ↔ h ∈ l.map fun p => p.2.getHash P
  entry : ∀ a p c, l = a ++ p :: c → ∃ e, m.lookup (p.2.getHash P) = some e ∧ e.pos = p.1 ∧
    ∀ n pos, e.vSpent[n]? = some pos → pos.isNull = false →
      ∃ q ∈ c, q.1 = pos ∧ (⟨p.2.getHash P, n⟩ : COutPoint) ∈ q.2.spent
  marked : ∀ p ∈ l, ∀ o ∈ p.2.spent, Marked m o

theorem indexOf_nil (P : Params) : IndexOf P [] ∅ where
  keys h := by simp [Finmap.notMem_empty]
  entry a p c h := by simp at h
  marked p hp := by cases hp

/-- The entry of another transaction after one more transaction. -/
theorem lookup_applyTx {pos : CDiskTxPos} {h : Uint256} (hne : h ≠ tx.getHash P) :
    (applyTx P pos m tx).lookup h = (m.lookup h).map fun e => e.markAll h pos tx.spent := by
  rw [applyTx, lookup_insert_eq_ite, if_neg hne, lookup_markOutputs]

/-- **One more transaction**, with a new hash, that spends what is not spent. -/
theorem IndexOf.applyTx {l : List PlacedTx} {pos : CDiskTxPos} (h : IndexOf P l m)
    (hpos : pos.isNull = false) (hnew : tx.getHash P ∉ m) (hspent : SpendsUnspent m tx) :
    IndexOf P (l ++ [(pos, tx)]) (FoxCoin.applyTx P pos m tx) where
  keys k := by
    rw [mem_applyTx, h.keys, List.map_append, List.mem_append, List.map_singleton,
      List.mem_singleton, or_comm]
  entry a p c heq := by
    rcases List.eq_nil_or_concat c with rfl | ⟨c', q, rfl⟩
    · -- the new transaction, whose outputs are not spent yet
      obtain ⟨rfl, hp⟩ := List.append_inj' heq rfl
      obtain rfl := List.singleton_inj.mp hp
      refine ⟨CTxIndex.ofOutputs pos tx.vout.length, ?_, rfl, fun n pos' hn hnull => ?_⟩
      · rw [FoxCoin.applyTx, lookup_insert_eq_ite, if_pos rfl]
      · rw [CTxIndex.ofOutputs, List.getElem?_replicate] at hn
        split_ifs at hn
        rw [← Option.some.inj hn] at hnull
        cases hnull
    · -- an earlier one, which the new one may spend
      rw [List.concat_eq_append, ← List.cons_append, ← List.append_assoc] at heq
      obtain ⟨rfl, hq⟩ := List.append_inj' heq rfl
      obtain rfl := List.singleton_inj.mp hq
      obtain ⟨e, he, hplace, hmarks⟩ := h.entry a p c' rfl
      have hne : p.2.getHash P ≠ tx.getHash P := fun heq' =>
        hnew (heq' ▸ Finmap.mem_of_lookup_eq_some he)
      refine ⟨e.markAll (p.2.getHash P) pos tx.spent, ?_, ?_, fun n pos' hn hnull => ?_⟩
      · rw [lookup_applyTx hne, he, Option.map_some]
      · rw [CTxIndex.markAll_pos, hplace]
      · rw [CTxIndex.markAll_vSpent_getElem?] at hn
        rw [List.concat_eq_append]
        split_ifs at hn with hmem
        · obtain ⟨-, -, rfl⟩ := Option.map_eq_some_iff.mp hn
          exact ⟨(pos, tx), by simp, rfl, hmem⟩
        · obtain ⟨q, hq, hqpos, hqspent⟩ := hmarks n pos' hn hnull
          exact ⟨q, List.mem_append_left _ hq, hqpos, hqspent⟩
  marked p hp o ho := by
    have hkeep : HasOutput m o → Marked (markOutputs pos m tx.spent) o →
        Marked (FoxCoin.applyTx P pos m tx) o := by
      rintro ⟨e, he, -⟩ ⟨e', he', hmark⟩
      have hne : o.hash ≠ tx.getHash P := fun heq' =>
        hnew (heq' ▸ Finmap.mem_of_lookup_eq_some he)
      exact ⟨e', by rw [FoxCoin.applyTx, lookup_insert_eq_ite, if_neg hne, he'], hmark⟩
    rcases List.mem_append.mp hp with hp | hp
    · have hmark := h.marked p hp o ho
      exact hkeep hmark.hasOutput ((marked_markOutputs hpos).mpr (.inl hmark))
    · obtain rfl := List.mem_singleton.mp hp
      obtain ⟨e, he, hnull⟩ := hspent o ho
      have hout : HasOutput m o := ⟨e, he, (List.getElem?_eq_some_iff.mp hnull).1⟩
      exact hkeep hout ((marked_markOutputs hpos).mpr (.inr ⟨ho, hout⟩))

/-- **A block more**, whose transactions have new hashes and connect one after the other. -/
theorem IndexOf.foldl_next {v : ChainView} {txdb : TxIndexMap} {c : ConnectContext}
    {l : List PlacedTx} {vtx : List CTransaction} {s : IndexState} (h : IndexOf P l s.index)
    (hfile : c.pindex.nFile ≠ uintMax)
    (hnodup : (l.map (fun p => p.2.getHash P) ++ vtx.map (CTransaction.getHash P)).Nodup)
    (hall : s.ConnectsAll P v txdb c vtx) :
    IndexOf P (l ++ (txPositions s.nTxPos vtx).map fun p => (c.posThisTx p.1, p.2))
      (vtx.foldl (IndexState.next P v c) s).index := by
  induction vtx generalizing s l with
  | nil => simpa [txPositions] using h
  | cons tx vtx ih =>
    obtain ⟨hconn, hrest⟩ := hall
    have hnew : tx.getHash P ∉ s.index := by
      rw [h.keys]
      exact fun hmem => List.disjoint_of_nodup_append hnodup hmem (by simp)
    have hpos : (c.posThisTx s.nTxPos).isNull = false := CDiskTxPos.isNull_ofFile hfile
    have hone := h.applyTx hpos hnew hconn.spendsUnspent
    have hmore := ih (s := s.next P v c tx) hone (by simpa using hnodup) hrest
    rw [List.append_assoc] at hmore
    exact hmore

/-! ## The index of a chain -/

/-- The transactions of a block with their places. -/
def ChainBlock.places (b : ChainBlock P) : List PlacedTx :=
  (txPositions (firstTxPos b.pindex.nBlockPos b.block.vtx) b.block.vtx).map fun p =>
    (CDiskTxPos.ofFile b.pindex.nFile b.pindex.nBlockPos p.1, p.2)

/-- The transactions of the blocks of a chain after the genesis block, in chain order, with their
places. -/
def chainPlaces : List (ChainBlock P) → List PlacedTx
  | [] => []
  | [_] => []
  | b :: c :: chain => chainPlaces (c :: chain) ++ b.places

theorem chainPlaces_cons (b : ChainBlock P) (hne : chain ≠ []) :
    chainPlaces (b :: chain) = chainPlaces chain ++ b.places := by
  obtain ⟨c, chain, rfl⟩ := List.exists_cons_of_ne_nil hne
  rfl

theorem map_snd_txPositions (nTxPos : ℕ) (vtx : List CTransaction) :
    (txPositions nTxPos vtx).map Prod.snd = vtx := by
  induction vtx generalizing nTxPos with
  | nil => rfl
  | cons tx vtx ih => rw [txPositions, List.map_cons, ih]

/-- The hashes of the transactions of a chain. -/
def chainHashes (chain : List (ChainBlock P)) : List Uint256 :=
  (chainTxs chain).map fun t => t.2.getHash P

theorem ChainBlock.hashes_places (b : ChainBlock P) :
    b.places.map (fun p => p.2.getHash P) = b.block.vtx.map (CTransaction.getHash P) := by
  rw [ChainBlock.places, List.map_map]
  show (txPositions _ b.block.vtx).map (CTransaction.getHash P ∘ Prod.snd) = _
  rw [← List.map_map, map_snd_txPositions]

theorem hashes_chainPlaces (chain : List (ChainBlock P)) :
    (chainPlaces chain).map (fun p => p.2.getHash P) = chainHashes chain := by
  fun_induction chainPlaces chain with
  | case1 => rfl
  | case2 b => rfl
  | case3 b c chain ih =>
    rw [List.map_append, ih, b.hashes_places, chainHashes, chainHashes, chainTxs, List.map_append,
      List.map_map]
    rfl

/-- **The index of a chain** whose transactions have distinct hashes. -/
theorem ConnectedChain.indexOf (h : ConnectedChain P chain index) (hnodup : (chainHashes chain).Nodup) :
    IndexOf P (chainPlaces chain) index := by
  induction h with
  | genesis b => exact indexOf_nil P
  | @connect chain b db db' v io hchain hextends hstored hconnect ih =>
    have hne := hchain.ne_nil
    obtain ⟨-, hconn, -, rfl⟩ := connectBlock_eq_ok.mp hconnect
    have hfile := BlockFiles.file_ne_null
      (BlockFiles.block?_of_readBlock (hstored b List.mem_cons_self))
    rw [← hashes_chainPlaces, chainPlaces_cons b hne, List.map_append, b.hashes_places] at hnodup
    have hbase := ih (by rw [← hashes_chainPlaces]; exact hnodup.of_append_left)
    have hblock := IndexOf.foldl_next (c := ConnectContext.ofIndex b.pindex (walk chain))
      (s := b.block.startState b.pindex db.mapTxIndex) hbase hfile hnodup hconn.transactions
    rw [CTxDB.writeNext_mapTxIndex, chainPlaces_cons b hne, ChainBlock.places]
    have hstart : (b.block.startState b.pindex db.mapTxIndex).nTxPos =
        firstTxPos b.pindex.nBlockPos b.block.vtx := by
      have : emptyBlockSize = headerSize + 1 := rfl
      simp only [CBlock.startState, firstTxPos]
      omega
    rw [hstart] at hblock
    exact hblock

/-! ## The databases that are reached -/

/-- The hashes of the transactions of a chain are used once, and none is the null hash. -/
structure HashesOnce (P : Params) (chain : List (ChainBlock P)) : Prop where
  nodup : (chainHashes chain).Nodup
  ne_null : 0 ∉ chainHashes chain

/-- **The transaction indexes that are reached** by connecting blocks to the tip and disconnecting
it, with the chain of connected blocks. -/
inductive ReachedIndex (P : Params) : List (ChainBlock P) → TxIndexMap → Prop
  | genesis (b : ChainBlock P) (hheight : b.pindex.nHeight = 0) : ReachedIndex P [b] ∅
  | connect {chain : List (ChainBlock P)} {b : ChainBlock P} {db db' : CTxDB} {v : ChainView}
      {io : Io} (hreached : ReachedIndex P chain db.mapTxIndex) (hextends : b.Extends chain)
      (hstored : ∀ c ∈ b :: chain, c.StoredIn v) (honce : HashesOnce P (b :: chain))
      (hconnect : b.block.connectBlock P v io db b.pindex (walk chain) = .ok db') :
      ReachedIndex P (b :: chain) db'.mapTxIndex
  | disconnect {chain : List (ChainBlock P)} {b : ChainBlock P} {db db' : CTxDB} {io : Io}
      (hreached : ReachedIndex P (b :: chain) db.mapTxIndex) (hne : chain ≠ [])
      (hdisconnect : b.block.disconnectBlock P io db b.pindex (walk chain) = .ok db') :
      ReachedIndex P chain db'.mapTxIndex

theorem chainHashes_cons (b : ChainBlock P) (hne : chain ≠ []) :
    chainHashes (b :: chain) = chainHashes chain ++ b.block.vtx.map (CTransaction.getHash P) := by
  rw [← hashes_chainPlaces, chainPlaces_cons b hne, List.map_append, b.hashes_places,
    hashes_chainPlaces]

theorem HashesOnce.of_cons {b : ChainBlock P} (h : HashesOnce P (b :: chain)) (hne : chain ≠ []) :
    HashesOnce P chain := by
  have hnodup := h.nodup
  have hnull := h.ne_null
  rw [chainHashes_cons b hne] at hnodup hnull
  exact ⟨hnodup.of_append_left, fun hmem => hnull (List.mem_append_left _ hmem)⟩

/-- **Disconnecting leaves what connecting alone would have**: the index that is reached is that of
the chain of connected blocks. -/
theorem ReachedIndex.connectedChain (h : ReachedIndex P chain index) :
    ConnectedChain P chain index ∧ HashesOnce P chain := by
  induction h with
  | genesis b hheight =>
    exact ⟨.genesis b hheight, by simp [chainHashes, chainTxs], by simp [chainHashes, chainTxs]⟩
  | connect _ hextends hstored honce hconnect ih =>
    exact ⟨.connect ih.1 hextends hstored hconnect, honce⟩
  | @disconnect chain b db db' io hreached hne hdisconnect ih =>
    obtain ⟨hchain, honce⟩ := ih
    refine ⟨?_, honce.of_cons hne⟩
    obtain ⟨m, hm, -, rfl⟩ := disconnectBlock_eq_ok.mp hdisconnect
    rw [CTxDB.writeNext_mapTxIndex]
    generalize db.mapTxIndex = index at hchain hm
    cases hchain with
    | genesis => exact absurd rfl hne
    | @connect _ _ db₁ _ _ _ hbelow _ _ hconnect =>
      obtain ⟨hcheck, hconn, -, rfl⟩ := connectBlock_eq_ok.mp hconnect
      have hnodup := honce.nodup
      rw [chainHashes_cons b hne] at hnodup
      have hnew : ∀ tx ∈ b.block.vtx, tx.getHash P ∉ (b.block.startState b.pindex db₁.mapTxIndex).index := by
        intro tx htx hmem
        have hkeys := (hbelow.indexOf hnodup.of_append_left).keys (tx.getHash P)
        rw [hashes_chainPlaces] at hkeys
        exact List.disjoint_of_nodup_append hnodup (hkeys.mp hmem) (List.mem_map_of_mem htx)
      have hundo := foldlM_disconnectInputs_of_connectsAll
        (CBlock.checked_of_checkBlock hcheck).txHashes_nodup hnew hconn.transactions
      rw [CTxDB.writeNext_mapTxIndex] at hm
      obtain rfl := Except.ok.inj (hundo.symm.trans hm)
      exact hbelow

/-! ## The checks pass -/

/-- The clock is not more than two hours behind a block that is visited, when blocks are checked. -/
def CheckView.KeepsUp (v : CheckView) (nCheckLevel nStopHeight : ℤ) (chain : List (ChainBlock P)) :
    Prop :=
  0 < nCheckLevel → ∀ b ∈ chain.dropLast, nStopHeight ≤ b.pindex.nHeight →
    b.block.getBlockTime ≤ v.nAdjustedTime + 2 * 60 * 60

section Passes

variable {v : CheckView} {b : ChainBlock P} {nCheckLevel : ℤ} {mapBlockPos : Finset (ℕ × ℕ)}

/-- A block that the start-up check can read. -/
structure ChainBlock.ReadableIn (v : CheckView) (b : ChainBlock P) : Prop where
  stored : v.files.readBlock P b.pindex.nFile b.pindex.nBlockPos = some b.block
  io : v.io (.readFromDisk b.pindex.phashBlock) = true

theorem ChainBlock.ReadableIn.readFromDisk (h : b.ReadableIn v) :
    v.files.readFromDisk P v.io b.pindex = some b.block := by
  rw [BlockFiles.readFromDisk, if_pos h.io, h.stored, Option.filter_some,
    if_pos (by simpa using b.hash_eq.symm)]

/-- The transactions of a readable block are read from their places. -/
theorem ChainBlock.ReadableIn.readTx (h : b.ReadableIn v) {q : PlacedTx} (hq : q ∈ b.places) :
    v.files.readTx q.1.nFile q.1.nTxPos = some q.2 ∧ q.1.nFile = b.pindex.nFile ∧
      q.1.nBlockPos = b.pindex.nBlockPos := by
  obtain ⟨p, hp, rfl⟩ := List.mem_map.mp hq
  have hblock := BlockFiles.block?_of_readBlock h.stored
  have hfile := BlockFiles.file_ne_null hblock
  have hofFile : CDiskTxPos.ofFile b.pindex.nFile b.pindex.nBlockPos p.1 =
      ⟨b.pindex.nFile, b.pindex.nBlockPos, p.1, fun h => absurd h hfile⟩ := dif_neg hfile
  simp only [hofFile, and_self, and_true]
  exact BlockFiles.readTx_of_block? hblock hp

/-- A list of places, in the order of the chain, that starts above a block. -/
theorem chainPlaces_append (d : List (ChainBlock P)) (hne : chain ≠ []) :
    ∃ l, chainPlaces (d ++ b :: chain) = chainPlaces chain ++ (b.places ++ l) ∧
      ∀ q ∈ l, ∃ c ∈ d, q ∈ c.places := by
  induction d with
  | nil => exact ⟨[], by rw [List.nil_append, List.append_nil, chainPlaces_cons b hne], by simp⟩
  | cons c d ih =>
    obtain ⟨l, heq, hl⟩ := ih
    refine ⟨l ++ c.places, ?_, fun q hq => ?_⟩
    · rw [List.cons_append, chainPlaces_cons c (by simp), heq]
      simp
    · rcases List.mem_append.mp hq with hq | hq
      · obtain ⟨c', hc', hmem⟩ := hl q hq
        exact ⟨c', List.mem_cons_of_mem c hc', hmem⟩
      · exact ⟨c, List.mem_cons_self, hq⟩

/-- The blocks of a chain above the genesis block have passed `CheckBlock` when they were
connected. -/
theorem ConnectedChain.exists_checkBlock (h : ConnectedChain P chain index)
    {d rest : List (ChainBlock P)} (hsplit : chain = d ++ b :: rest) (hne : rest ≠ []) :
    ∃ t, b.block.checkBlock P t = .ok () := by
  induction h generalizing d with
  | genesis b₀ =>
    rcases List.append_eq_singleton_iff.mp hsplit.symm with ⟨-, hcons⟩ | ⟨-, hcons⟩
    · exact absurd (List.cons.inj hcons).2 hne
    · cases hcons
  | @connect _ b₀ _ _ v _ _ _ _ hconnect ih =>
    cases d with
    | nil =>
      obtain ⟨rfl, rfl⟩ := List.cons.inj hsplit
      exact ⟨v.nAdjustedTime, (connectBlock_eq_ok.mp hconnect).1⟩
    | cons c d =>
      exact ih (List.cons.inj hsplit).2

/-- A block that has passed `CheckBlock` passes it again, unless its time is now too far ahead. -/
theorem CBlock.checkBlock_of_time {block : CBlock} {t t' : ℤ} (h : block.checkBlock P t = .ok ())
    (htime : block.getBlockTime ≤ t' + 2 * 60 * 60) : block.checkBlock P t' = .ok () := by
  unfold CBlock.checkBlock at h ⊢
  simp only [bind_eq_ok, ensure_eq_ok, exists_and_left, exists_and_right, exists_const,
    decide_eq_true_eq] at h ⊢
  obtain ⟨hsize, hpow, -, hrest⟩ := h
  exact ⟨hsize, hpow, htime, hrest⟩

/-- Every transaction of a block that has passed `CheckBlock` passes `CheckTransaction`. -/
theorem CBlock.checkTransaction_of_checkBlock {block : CBlock} {t : ℤ}
    (h : block.checkBlock P t = .ok ()) (htx : tx ∈ block.vtx) : tx.checkTransaction = .ok () := by
  unfold CBlock.checkBlock at h
  simp only [bind_eq_ok] at h
  obtain ⟨_, -, _, -, _, -, _, -, _, -, _, hall, -⟩ := h
  exact forM_mapError_eq_ok hall tx htx

/-- A transaction at a place of a block is one of its transactions. -/
theorem ChainBlock.mem_vtx_of_places {q : PlacedTx} (hq : q ∈ b.places) : q.2 ∈ b.block.vtx := by
  obtain ⟨p, hp, rfl⟩ := List.mem_map.mp hq
  rw [← map_snd_txPositions (firstTxPos b.pindex.nBlockPos b.block.vtx) b.block.vtx]
  exact List.mem_map_of_mem hp

/-- **Level 5 passes**: what a transaction of the chain claims is marked, and no transaction has the
null hash that a coinbase claims. -/
theorem IndexOf.unspentPrevout_eq_false {l : List PlacedTx} (h : IndexOf P l v.mapTxIndex)
    (hnull : 0 ∉ l.map fun p => p.2.getHash P) {q : PlacedTx} (hq : q ∈ l) {txin : CTxIn}
    (htxin : txin ∈ q.2.vin) : v.unspentPrevout txin = false := by
  unfold CheckView.unspentPrevout
  by_cases hcb : q.2.isCoinBase = true
  · have hzero : txin.prevout.hash = 0 := by
      unfold CTransaction.isCoinBase at hcb
      split at hcb
      · rename_i txin' hvin
        rw [hvin, List.mem_singleton] at htxin
        rw [htxin]
        simp only [COutPoint.isNull, Bool.and_eq_true, beq_iff_eq] at hcb
        exact hcb.1
      · cases hcb
    rw [hzero, Finmap.lookup_eq_none.mpr fun hmem => hnull ((h.keys 0).mp hmem)]
  · have hspent : txin.prevout ∈ q.2.spent := by
      rw [CTransaction.spent, if_neg hcb]
      exact List.mem_map_of_mem htxin
    obtain ⟨e, he, pos, hpos, hmark⟩ := h.marked q hq _ hspent
    have hlt := (List.getElem?_eq_some_iff.mp hpos).1
    rw [he]
    simp only
    rw [List.getD_eq_getElem?_getD, hpos, Option.getD_some, hmark, Bool.or_false,
      decide_eq_false (by omega : ¬e.vSpent.length - 1 < txin.prevout.n), Bool.and_false]

/-- **Levels 2 and 3 pass**: the transaction is at its place. -/
theorem mislocated_eq_false (hread : b.ReadableIn v) {q : PlacedTx} (hq : q ∈ b.places)
    {txindex : CTxIndex} (hpos : txindex.pos = q.1) :
    v.mislocated P nCheckLevel b.pindex (q.2.getHash P) txindex = false := by
  unfold CheckView.mislocated
  rw [hpos, (hread.readTx hq).1]
  simp

/-- **Levels 4 and 6 pass** for a mark that is the place of a transaction of a visited block, when
that transaction is valid and spends the output. -/
theorem badSpend_eq_false {c : ChainBlock P} (hread : c.ReadableIn v) {q : PlacedTx}
    (hq : q ∈ c.places) (hvisited : (c.pindex.nFile, c.pindex.nBlockPos) ∈ mapBlockPos)
    (hvalid : q.2.checkTransaction = .ok ()) {hashTx : Uint256} {nOutput : ℕ}
    (hspent : (⟨hashTx, nOutput⟩ : COutPoint) ∈ q.2.spent) :
    v.badSpend nCheckLevel mapBlockPos hashTx q.1 nOutput = false := by
  obtain ⟨hrest, hfile, hblockPos⟩ := hread.readTx hq
  obtain ⟨txin, htxin, hprevout⟩ := List.mem_map.mp (q.2.spent_subset_prevouts hspent)
  have hany : (q.2.vin.any fun txin =>
      decide (txin.prevout.hash = hashTx) && decide (txin.prevout.n = nOutput)) = true :=
    List.any_eq_true.mpr ⟨txin, htxin, by simp [hprevout]⟩
  have hspender : v.badSpender hashTx nOutput q.1 = false := by
    unfold CheckView.badSpender
    rw [hrest]
    simp only
    rw [hvalid, hany]
    rfl
  unfold CheckView.badSpend
  rw [hfile, hblockPos, hspender]
  simp [hvisited]

variable {d rest : List (ChainBlock P)}

/-- **All checks of a transaction pass**, once the blocks from the tip down to its own have been
visited. -/
theorem badTx_eq_false (hchain : ConnectedChain P chain v.mapTxIndex) (honce : HashesOnce P chain)
    (hread : ∀ c ∈ chain, c.ReadableIn v) (hsplit : chain = d ++ b :: rest) (hne : rest ≠ [])
    (hvisited : ∀ c ∈ d ++ [b], (c.pindex.nFile, c.pindex.nBlockPos) ∈ mapBlockPos)
    (htx : tx ∈ b.block.vtx) : v.badTx P nCheckLevel mapBlockPos b.pindex tx = false := by
  have hindex := hchain.indexOf honce.nodup
  have hvalid : ∀ c ∈ d ++ [b], ∀ q ∈ c.places, q.2.checkTransaction = .ok () := by
    intro c hc q hq
    obtain ⟨d₁, d₂, hd⟩ := List.append_of_mem hc
    have hsplit' : chain = d₁ ++ c :: (d₂ ++ rest) := by
      rw [hsplit, List.append_cons, hd, List.append_assoc, List.cons_append]
    obtain ⟨t, ht⟩ := hchain.exists_checkBlock hsplit' (by simp [hne])
    exact CBlock.checkTransaction_of_checkBlock ht (ChainBlock.mem_vtx_of_places hq)
  have hreadAbove : ∀ c ∈ d ++ [b], c.ReadableIn v := fun c hc => hread c (by
    rw [hsplit]
    rcases List.mem_append.mp hc with hc | hc
    · exact List.mem_append_left _ hc
    · rw [List.mem_singleton.mp hc]
      simp)
  obtain ⟨l, hplaces, hl⟩ := chainPlaces_append (b := b) d hne
  rw [← hsplit] at hplaces
  -- the place of the transaction among those of the chain
  obtain ⟨q, hq, rfl⟩ : ∃ q ∈ b.places, q.2 = tx := by
    rw [← map_snd_txPositions (firstTxPos b.pindex.nBlockPos b.block.vtx) b.block.vtx] at htx
    obtain ⟨p, hp, rfl⟩ := List.mem_map.mp htx
    exact ⟨_, List.mem_map_of_mem hp, rfl⟩
  obtain ⟨b₁, b₂, hb⟩ := List.append_of_mem hq
  obtain ⟨e, he, hplace, hmarks⟩ := hindex.entry (chainPlaces rest ++ b₁) q (b₂ ++ l) (by
    rw [hplaces, hb]
    simp)
  have hspends : (e.vSpent.zipIdx.any fun p =>
      v.badSpend nCheckLevel mapBlockPos (q.2.getHash P) p.1 p.2) = false := by
    rw [List.any_eq_false]
    rintro ⟨txpos, n⟩ hp
    rw [List.mk_mem_zipIdx_iff_getElem?] at hp
    rw [Bool.not_eq_true]
    cases hnull : txpos.isNull with
    | true =>
      unfold CheckView.badSpend
      rw [hnull]
      rfl
    | false =>
      obtain ⟨q', hq', rfl, hspent⟩ := hmarks n txpos hp hnull
      obtain ⟨c, hc, hmem⟩ : ∃ c ∈ d ++ [b], q' ∈ c.places := by
        rcases List.mem_append.mp hq' with hq' | hq'
        · exact ⟨b, by simp, by rw [hb]; exact List.mem_append_right _ (List.mem_cons_of_mem _ hq')⟩
        · obtain ⟨c, hc, hmem⟩ := hl q' hq'
          exact ⟨c, List.mem_append_left _ hc, hmem⟩
      exact badSpend_eq_false (hreadAbove c hc) hmem (hvisited c hc) (hvalid c hc q' hmem) hspent
  have hprevouts : (q.2.vin.any v.unspentPrevout) = false := by
    rw [List.any_eq_false]
    intro txin htxin
    rw [Bool.not_eq_true]
    refine hindex.unspentPrevout_eq_false (by rw [hashes_chainPlaces]; exact honce.ne_null) ?_ htxin
    rw [hplaces]
    exact List.mem_append_right _ (List.mem_append_left _ hq)
  unfold CheckView.badTx
  rw [he, hprevouts]
  simp only [hspends, mislocated_eq_false (hreadAbove b (by simp)) hq hplace, Bool.and_false,
    Bool.or_false]

/-- **All checks of a block pass.** -/
theorem badBlock_eq_false (hchain : ConnectedChain P chain v.mapTxIndex) (honce : HashesOnce P chain)
    (hread : ∀ c ∈ chain, c.ReadableIn v) (hsplit : chain = d ++ b :: rest) (hne : rest ≠ [])
    (htime : 0 < nCheckLevel → b.block.getBlockTime ≤ v.nAdjustedTime + 2 * 60 * 60)
    (hvisited : 1 < nCheckLevel →
      ∀ c ∈ d ++ [b], (c.pindex.nFile, c.pindex.nBlockPos) ∈ mapBlockPos) :
    v.badBlock P nCheckLevel mapBlockPos b.pindex b.block = false := by
  unfold CheckView.badBlock
  rw [Bool.or_eq_false_iff, Bool.and_eq_false_iff, Bool.and_eq_false_iff, decide_eq_false_iff_not,
    decide_eq_false_iff_not]
  constructor
  · rcases lt_or_ge 0 nCheckLevel with hlevel | hlevel
    · obtain ⟨t, ht⟩ := hchain.exists_checkBlock hsplit hne
      rw [CBlock.checkBlock_of_time ht (htime hlevel)]
      exact .inr rfl
    · exact .inl (not_lt.mpr hlevel)
  · rcases lt_or_ge 1 nCheckLevel with hlevel | hlevel
    · refine .inr (List.any_eq_false.mpr fun tx htx => ?_)
      rw [badTx_eq_false hchain honce hread hsplit hne (hvisited hlevel) htx]
      exact Bool.false_ne_true
    · exact .inl (not_lt.mpr hlevel)

/-- **The loop remembers no block**, from any block of the chain down. -/
theorem checkLoop_eq_none (hchain : ConnectedChain P chain v.mapTxIndex) (honce : HashesOnce P chain)
    (hread : ∀ c ∈ chain, c.ReadableIn v) {nStopHeight : ℤ}
    (htime : v.KeepsUp nCheckLevel nStopHeight chain) (hsplit : chain = d ++ rest)
    (hvisited : 1 < nCheckLevel → ∀ c ∈ d, (c.pindex.nFile, c.pindex.nBlockPos) ∈ mapBlockPos) :
    v.checkLoop P nCheckLevel nStopHeight mapBlockPos none (walk rest) = .ok none := by
  induction rest generalizing d mapBlockPos with
  | nil => rfl
  | cons b rest ih =>
    cases rest with
    | nil => rfl
    | cons c rest =>
      have hb : b ∈ chain.dropLast := by
        rw [hsplit, List.dropLast_append_of_ne_nil (by simp), List.dropLast_cons_of_ne_nil (by simp)]
        simp
      show v.checkLoop P nCheckLevel nStopHeight mapBlockPos none
        (b.pindex :: c.pindex :: walk rest) = _
      rw [CheckView.checkLoop]
      by_cases hstop : (b.pindex.nHeight : ℤ) < nStopHeight
      · rw [if_pos hstop]
      rw [if_neg hstop, (hread b (List.mem_of_mem_dropLast hb)).readFromDisk]
      simp only
      have hvisited' : 1 < nCheckLevel → ∀ c ∈ d ++ [b], (c.pindex.nFile, c.pindex.nBlockPos) ∈
          if 1 < nCheckLevel then insert (b.pindex.nFile, b.pindex.nBlockPos) mapBlockPos
          else mapBlockPos := by
        intro hlevel c hc
        rw [if_pos hlevel, Finset.mem_insert]
        rcases List.mem_append.mp hc with hc | hc
        · exact .inr (hvisited hlevel c hc)
        · rw [List.mem_singleton.mp hc]
          exact .inl rfl
      rw [badBlock_eq_false hchain honce hread hsplit (by simp)
        (fun hlevel => htime hlevel b hb (not_lt.mp hstop)) hvisited']
      exact ih (by rw [hsplit, List.append_assoc]; rfl) hvisited'

end Passes

/-- **The start-up check raises no false alarm**: on every index that is reached by connecting and
disconnecting blocks, at every level and depth, it leaves `pindexFork` null, as long as the clock is
not more than two hours behind a block that is visited. -/
theorem checkBestChain_eq_none {v : CheckView} (hreached : ReachedIndex P chain v.mapTxIndex)
    (hread : ∀ c ∈ chain, c.ReadableIn v) (nCheckLevel nCheckDepth : ℤ)
    (htime : v.KeepsUp nCheckLevel (CheckView.stopHeight nCheckDepth (walk chain)) chain) :
    v.checkBestChain P nCheckLevel nCheckDepth (walk chain) = .ok none := by
  obtain ⟨hchain, honce⟩ := hreached.connectedChain
  exact checkLoop_eq_none hchain honce hread htime (List.nil_append chain).symm
    (fun _ c hc => by cases hc)

/-! ## A clock that is behind -/

/-- A chain that has been connected, with the hashes of its transactions used once, is reached. -/
theorem ReachedIndex.of_connectedChain (h : ConnectedChain P chain index)
    (honce : HashesOnce P chain) : ReachedIndex P chain index := by
  induction h with
  | genesis b hheight => exact .genesis b hheight
  | connect hchain hextends hstored hconnect ih =>
    exact .connect (ih (honce.of_cons hchain.ne_nil)) hextends hstored honce hconnect

/-- The view of a node that starts again on the chain of the example, with the given clock. -/
def spendingCheckView (nAdjustedTime : ℤ) : CheckView where
  files := spendingChainView.files
  io := Io.reliable
  mapTxIndex := (replay spendingChainView Io.reliable spendingChain).getD ∅
  nAdjustedTime := nAdjustedTime

theorem spendingChain_reached (nAdjustedTime : ℤ) :
    ReachedIndex exampleParams spendingChain (spendingCheckView nAdjustedTime).mapTxIndex := by
  have hsome : (replay spendingChainView Io.reliable spendingChain).isSome = true := by
    decide +kernel
  obtain ⟨index, hindex⟩ := Option.isSome_iff_exists.mp hsome
  have hindex' : (spendingCheckView nAdjustedTime).mapTxIndex = index := by
    rw [spendingCheckView, hindex, Option.getD_some]
  rw [hindex']
  exact .of_connectedChain (connectedChain_of_replay hindex)
    ⟨by decide +kernel, by decide +kernel⟩

theorem spendingChain_readable (nAdjustedTime : ℤ) :
    ∀ c ∈ spendingChain, c.ReadableIn (spendingCheckView nAdjustedTime) := by
  have hstored : ∀ c ∈ spendingChain, c.StoredIn spendingChainView := by decide +kernel
  exact fun c hc => ⟨hstored c hc, rfl⟩

/-- The check at level 6 of the whole chain, at the time of its last block. -/
theorem checkBestChain_eq_none_spendingChain :
    (spendingCheckView 1400004800).checkBestChain exampleParams 6 0 (walk spendingChain) =
      .ok none := by
  refine checkBestChain_eq_none (spendingChain_reached _) (spendingChain_readable _) 6 0 fun _ => ?_
  have htimes : ∀ b ∈ spendingChain.dropLast, b.block.getBlockTime ≤ 1400004800 := by decide +kernel
  exact fun b hb _ => (htimes b hb).trans (by decide)

/-- **A false alarm**: a clock that has been set back makes the check move the best chain back. -/
theorem not_forall_checkBestChain_eq_none :
    ¬∀ (P : Params) (chain : List (ChainBlock P)) (v : CheckView) (nCheckLevel nCheckDepth : ℤ),
      ReachedIndex P chain v.mapTxIndex → (∀ c ∈ chain, c.ReadableIn v) →
        v.checkBestChain P nCheckLevel nCheckDepth (walk chain) = .ok none := by
  intro h
  have hnone := h exampleParams spendingChain (spendingCheckView 1399990000) 1 2500
    (spendingChain_reached _) (spendingChain_readable _)
  have hfork : ((spendingCheckView 1399990000).checkBestChain exampleParams 1 2500
      (walk spendingChain)).toOption ≠ some none := by
    decide +kernel
  exact hfork (congrArg Except.toOption hnone)

end FoxCoin
