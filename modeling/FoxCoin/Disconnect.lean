import FoxCoin.ConnectSpec

/-! # Disconnecting takes connecting back

`DisconnectBlock` runs over the transactions in reverse order and writes to the database directly,
while `ConnectBlock` queued its changes. Over the union of queue and database both are sequences of
the same kind of step, and the step of `DisconnectInputs` inverts the step of `ConnectInputs`. -/

namespace FoxCoin

open Checked Overlay

variable {P : Params} {v : ChainView} {m m' txdb : TxIndexMap} {tx : CTransaction}

/-! ## What a transaction undoes -/

/-- The index has an entry with the output. -/
def HasOutput (m : TxIndexMap) (o : COutPoint) : Prop :=
  ∃ e, m.lookup o.hash = some e ∧ o.n < e.vSpent.length

/-- Marking an output does not change which outputs there are. -/
theorem hasOutput_markOutput {pos : CDiskTxPos} {o o' : COutPoint} :
    HasOutput (markOutput pos m o') o ↔ HasOutput m o := by
  unfold HasOutput
  rw [lookup_markOutput]
  cases m.lookup o.hash with
  | none => simp
  | some e => by_cases h : o.hash = o'.hash <;> simp [h]

/-- The loop of `DisconnectInputs` succeeds exactly when every output is in the index, and it clears
the marks. -/
theorem foldlM_unspendInput_eq_ok {vin : List CTxIn} :
    vin.foldlM unspendInput m = .ok m' ↔
      (∀ o ∈ vin.map CTxIn.prevout, HasOutput m o) ∧
        m' = markOutputs CDiskTxPos.setNull m (vin.map CTxIn.prevout) := by
  induction vin generalizing m with
  | nil => simp [pure, Except.pure, eq_comm]
  | cons txin vin ih =>
    have hstep : ∀ m₁, unspendInput m txin = .ok m₁ ↔
        HasOutput m txin.prevout ∧ m₁ = markOutput CDiskTxPos.setNull m txin.prevout := by
      intro m₁
      unfold unspendInput HasOutput markOutput
      cases m.lookup txin.prevout.hash with
      | none => simp
      | some e =>
        simp only [ensure_bind_eq_ok, pure_eq_ok, decide_eq_true_eq, Option.some.injEq,
          exists_eq_left']
        exact and_congr_right fun _ => eq_comm
    simp only [foldlM_cons_eq_ok, hstep, ih, List.map_cons, List.forall_mem_cons, markOutputs_cons]
    constructor
    · rintro ⟨_, ⟨hhd, rfl⟩, hall, rfl⟩
      exact ⟨⟨hhd, fun o ho => hasOutput_markOutput.mp (hall o ho)⟩, rfl⟩
    · rintro ⟨⟨hhd, hall⟩, rfl⟩
      exact ⟨_, ⟨hhd, rfl⟩, fun o ho => hasOutput_markOutput.mpr (hall o ho), rfl⟩

/-- The index after a transaction is undone: its marks are cleared and its own entry is erased. -/
def undoTx (P : Params) (m : TxIndexMap) (tx : CTransaction) : TxIndexMap :=
  (markOutputs CDiskTxPos.setNull m tx.spent).erase (tx.getHash P)

/-- `DisconnectInputs` succeeds exactly when every output it gives back is in the index. -/
theorem disconnectInputs_eq_ok :
    tx.disconnectInputs P m = .ok m' ↔ (∀ o ∈ tx.spent, HasOutput m o) ∧ m' = undoTx P m tx := by
  rw [CTransaction.disconnectInputs, CTransaction.spent, undoTx, CTransaction.spent, bind_eq_ok]
  by_cases hcb : tx.isCoinBase = true
  · simp only [hcb, if_true, pure_eq_ok, exists_eq_left', List.not_mem_nil, false_implies,
      implies_true, markOutputs_nil, true_and]
    exact eq_comm
  · rw [Bool.not_eq_true] at hcb
    simp only [hcb, Bool.false_eq_true, if_false, foldlM_unspendInput_eq_ok, pure_eq_ok]
    constructor
    · rintro ⟨_, ⟨hall, rfl⟩, rfl⟩
      exact ⟨hall, rfl⟩
    · rintro ⟨hall, rfl⟩
      exact ⟨_, ⟨hall, rfl⟩, rfl⟩

/-! ## Undoing a transaction -/

/-- Clearing marks that were set on unspent outputs gives the old entry back. -/
theorem CTxIndex.markAll_setNull_markAll {h : Uint256} {e : CTxIndex} {pos : CDiskTxPos}
    {os : List COutPoint}
    (hnull : ∀ n, (⟨h, n⟩ : COutPoint) ∈ os → e.vSpent[n]? = some CDiskTxPos.setNull) :
    (e.markAll h pos os).markAll h CDiskTxPos.setNull os = e := by
  have hpos : ((e.markAll h pos os).markAll h CDiskTxPos.setNull os).pos = e.pos := by simp
  have hspent : ((e.markAll h pos os).markAll h CDiskTxPos.setNull os).vSpent = e.vSpent := by
    refine List.ext_getElem? fun n => ?_
    simp only [CTxIndex.markAll_vSpent_getElem?]
    by_cases hn : (⟨h, n⟩ : COutPoint) ∈ os
    · rw [if_pos hn, if_pos hn, hnull n hn]
      rfl
    · rw [if_neg hn, if_neg hn]
  cases he : (e.markAll h pos os).markAll h CDiskTxPos.setNull os
  cases e
  simp_all

/-- The outputs a transaction spends are in the index and not spent. -/
def SpendsUnspent (m : TxIndexMap) (tx : CTransaction) : Prop :=
  ∀ o ∈ tx.spent, ∃ e, m.lookup o.hash = some e ∧ e.vSpent[o.n]? = some CDiskTxPos.setNull

/-- The index after a transaction has the entries there were and its own. -/
theorem mem_applyTx {pos : CDiskTxPos} {h : Uint256} :
    h ∈ applyTx P pos m tx ↔ h = tx.getHash P ∨ h ∈ m := by
  rw [applyTx, Finmap.mem_insert, mem_markOutputs]

/-- **Undoing a transaction inverts doing it** when its hash is new to the index. -/
theorem undoTx_applyTx {pos : CDiskTxPos} (hnew : tx.getHash P ∉ m) (hspent : SpendsUnspent m tx) :
    undoTx P (applyTx P pos m tx) tx = m := by
  refine Finmap.ext_lookup fun h => ?_
  rw [undoTx, lookup_erase_eq_ite, lookup_markOutputs, applyTx, lookup_insert_eq_ite,
    lookup_markOutputs]
  by_cases hh : h = tx.getHash P
  · rw [if_pos hh, hh, Finmap.lookup_eq_none.mpr hnew]
  · rw [if_neg hh, if_neg hh, Option.map_map]
    cases he : m.lookup h with
    | none => rfl
    | some e =>
      rw [Option.map_some, Function.comp_apply, CTxIndex.markAll_setNull_markAll]
      intro n hn
      obtain ⟨e', he', hnull⟩ := hspent _ hn
      rw [he, Option.some.injEq] at he'
      rw [he', hnull]

/-- After a transaction, the outputs it spent are still in the index. -/
theorem hasOutput_applyTx {pos : CDiskTxPos} (hnew : tx.getHash P ∉ m)
    (hspent : SpendsUnspent m tx) : ∀ o ∈ tx.spent, HasOutput (applyTx P pos m tx) o := by
  intro o ho
  obtain ⟨e, he, hnull⟩ := hspent o ho
  have hne : o.hash ≠ tx.getHash P := by
    intro heq
    exact hnew (heq ▸ Finmap.mem_of_lookup_eq_some he)
  refine ⟨e.markAll o.hash pos tx.spent, ?_, ?_⟩
  · rw [applyTx, lookup_insert_eq_ite, if_neg hne, lookup_markOutputs, he, Option.map_some]
  · rw [CTxIndex.markAll_vSpent_length]
    exact (List.getElem?_eq_some_iff.mp hnull).1

/-- A transaction that connects spends outputs that are not spent. -/
theorem IndexState.Connects.spendsUnspent {c : ConnectContext} {s : IndexState}
    (h : s.Connects P v txdb c tx) : SpendsUnspent s.index tx := by
  intro o ho
  by_cases hcb : tx.isCoinBase = true
  · rw [CTransaction.spent, if_pos hcb] at ho
    cases ho
  · rw [CTransaction.spent, if_neg hcb, ← zipIdx_map_prevout] at ho
    obtain ⟨txin, htxin, rfl⟩ := List.mem_map.mp ho
    have hconn := h.inputs (by simpa using hcb)
    obtain ⟨e, txPrev, hprev, hnull, -⟩ := hconn.spends txin htxin
    obtain ⟨cl, hcl, -⟩ := hconn.payable txin.1 (List.fst_mem_of_mem_zipIdx htxin)
    obtain ⟨he, -⟩ := ChainView.prevTx?_eq_some.mp hprev
    obtain ⟨he', -, hlen, -⟩ := ChainView.claim?_eq_some.mp hcl
    rw [he, Option.some.injEq] at he'
    rw [← he'] at hlen
    refine ⟨e, he, ?_⟩
    rw [List.getD_eq_getElem?_getD, List.getElem?_eq_getElem hlen, Option.getD_some] at hnull
    rw [List.getElem?_eq_getElem hlen, CDiskTxPos.eq_setNull_of_isNull hnull]

/-! ## Undoing a block -/

/-- The loop of `DisconnectBlock` inverts the loop of `ConnectBlock` when the hashes of the
transactions are distinct and new to the index. -/
theorem foldlM_disconnectInputs_of_connectsAll {c : ConnectContext} {vtx : List CTransaction}
    {s : IndexState} (hnodup : (vtx.map (CTransaction.getHash P)).Nodup)
    (hnew : ∀ tx ∈ vtx, tx.getHash P ∉ s.index) (hall : s.ConnectsAll P v txdb c vtx) :
    vtx.reverse.foldlM (CTransaction.disconnectInputs P)
      (vtx.foldl (IndexState.next P v c) s).index = .ok s.index := by
  induction vtx generalizing s with
  | nil => rfl
  | cons tx vtx ih =>
    obtain ⟨hconn, hrest⟩ := hall
    rw [List.map_cons, List.nodup_cons] at hnodup
    obtain ⟨htx, hvtx⟩ := List.forall_mem_cons.mp hnew
    have hnew' : ∀ t ∈ vtx, t.getHash P ∉ (s.next P v c tx).index := by
      intro t ht hmem
      rcases mem_applyTx.mp hmem with heq | hold
      · exact hnodup.1 (heq ▸ List.mem_map_of_mem ht)
      · exact hvtx t ht hold
    have hspent := hconn.spendsUnspent
    rw [List.foldl_cons, List.reverse_cons, List.foldlM_append, ih hnodup.2 hnew' hrest]
    refine foldlM_cons_eq_ok.mpr ⟨s.index, disconnectInputs_eq_ok.mpr
      ⟨hasOutput_applyTx htx hspent, (undoTx_applyTx htx hspent).symm⟩, rfl⟩

/-- `DisconnectBlock` succeeds exactly when its loop and its database writes do. -/
theorem disconnectBlock_eq_ok {io : Io} {db db' : CTxDB} {block : CBlock} {pindex : CBlockIndex}
    {vPrev : List CBlockIndex} :
    block.disconnectBlock P io db pindex vPrev = .ok db' ↔
      ∃ m, block.vtx.reverse.foldlM (CTransaction.disconnectInputs P) db.mapTxIndex = .ok m ∧
        io.WritesIndex pindex vPrev ∧ db' = { db with mapTxIndex := m }.writeNext P vPrev.head? 0 := by
  have hnil : vPrev.isEmpty = true ↔ vPrev = [] := List.isEmpty_iff
  simp only [CBlock.disconnectBlock, bind_eq_ok, ensure_eq_ok, pure_eq_ok, exists_and_left,
    exists_const, Bool.or_eq_true, hnil, Io.WritesIndex]
  constructor
  · rintro ⟨m, hm, hupd, hwrite, rfl⟩
    exact ⟨m, hm, ⟨hupd, hwrite⟩, rfl⟩
  · rintro ⟨m, hm, ⟨hupd, hwrite⟩, rfl⟩
    exact ⟨m, hm, hupd, hwrite, rfl⟩

@[simp] theorem CTxDB.writeNext_mapTxIndex (db : CTxDB) (pprev : Option CBlockIndex)
    (hashNext : Uint256) : (db.writeNext P pprev hashNext).mapTxIndex = db.mapTxIndex := by
  cases pprev <;> rfl

@[simp] theorem CTxDB.writeNext_hashBestChain (db : CTxDB) (pprev : Option CBlockIndex)
    (hashNext : Uint256) : (db.writeNext P pprev hashNext).hashBestChain = db.hashBestChain := by
  cases pprev <;> rfl

/-- **Connecting a block and disconnecting it again restores the transaction index**, for a block
whose transaction hashes are new to the index: the marks set on older outputs and on outputs of the
block itself are cleared, the added entries are gone, and nothing else has changed. -/
theorem disconnectBlock_connectBlock {io io' : Io} {db db' : CTxDB} {block : CBlock}
    {pindex : CBlockIndex} {vPrev : List CBlockIndex}
    (hnew : ∀ tx ∈ block.vtx, tx.getHash P ∉ db.mapTxIndex)
    (hconnect : block.connectBlock P v io db pindex vPrev = .ok db')
    (hio : io'.WritesIndex pindex vPrev) :
    ∃ db'', block.disconnectBlock P io' db' pindex vPrev = .ok db'' ∧
      db''.mapTxIndex = db.mapTxIndex := by
  obtain ⟨hcheck, hconn, -, rfl⟩ := connectBlock_eq_ok.mp hconnect
  have hundo := foldlM_disconnectInputs_of_connectsAll
    (CBlock.checked_of_checkBlock hcheck).txHashes_nodup hnew hconn.transactions
  refine ⟨_, disconnectBlock_eq_ok.mpr ⟨db.mapTxIndex, ?_, hio, rfl⟩, by simp⟩
  rw [CTxDB.writeNext_mapTxIndex]
  exact hundo

/-! ## A worked example -/

/-- A block with the given hash. -/
def exampleBlock (hash hashPrevBlock : Uint256) (nTime : ℕ) (vtx : List CTransaction) : CBlock :=
  let block : CBlock :=
    { nVersion := 1, hashPrevBlock, hashMerkleRoot := 0, nTime, nBits := nProofOfWorkLimit,
      nNonce := hash, vtx }
  { block with hashMerkleRoot := block.buildMerkleTree exampleParams }

/-- A block whose coinbase is spent later. -/
def fundingBlock : CBlock := exampleBlock 1 0 1400000000 [exampleCoinbase 1 [50, 60]]

/-- A block that spends two older outputs and an output of its own. -/
def spendingBlock : CBlock := exampleBlock 2 1 1400000300
  [exampleCoinbase 2 [10], exampleTx 3 [⟨exampleHash 1, 0⟩] [20, 30],
    exampleTx 4 [⟨exampleHash 3, 0⟩, ⟨exampleHash 1, 1⟩] [75]]

/-- A node that has stored both blocks. -/
def spendingView : ChainView := ⟨∅, 0, 1400000300, ⟨[[fundingBlock, spendingBlock]]⟩⟩

/-- The database after the first block. -/
def fundedDB : CTxDB where
  mapTxIndex := Finmap.singleton (exampleHash 1)
    (CTxIndex.ofOutputs (CDiskTxPos.ofFile 1 8 (firstTxPos 8 fundingBlock.vtx)) 2)
  mapDiskBlockIndex := ∅
  hashBestChain := some 1
  bnBestInvalidWork := 0

/-- The index of the second block, at a height where the first coinbase is mature. -/
def spendingIndex : CBlockIndex :=
  { CBlockIndex.ofBlock 2 1 (recordSize fundingBlock + 8) spendingBlock with nHeight := 20 }

/-- The block of the example connects, and it is disconnected again. -/
theorem disconnectBlock_connectBlock_spendingBlock :
    ∃ db' db'', spendingBlock.connectBlock exampleParams spendingView Io.reliable fundedDB
        spendingIndex [] = .ok db' ∧
      spendingBlock.disconnectBlock exampleParams Io.reliable db' spendingIndex [] = .ok db'' ∧
      db''.mapTxIndex = fundedDB.mapTxIndex := by
  have hok : (spendingBlock.connectBlock exampleParams spendingView Io.reliable fundedDB
      spendingIndex []).isOk = true := by decide +kernel
  obtain ⟨db', hconnect⟩ := exists_of_isOk hok
  obtain ⟨db'', hdisconnect, heq⟩ := disconnectBlock_connectBlock (by decide +kernel) hconnect
    (show Io.reliable.WritesIndex spendingIndex [] from ⟨rfl, .inl rfl⟩)
  exact ⟨db', db'', hconnect, hdisconnect, heq⟩

end FoxCoin
