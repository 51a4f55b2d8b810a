import FoxCoin.Disconnect

/-! # Marks of spent outputs

The transaction index has a mark for every output that the chain spends, as long as no transaction
is created again after one of its outputs was spent. The chain can then be disconnected block by
block, and a transaction that spends an output again is turned away. -/

namespace FoxCoin

open Checked Overlay

variable {P : Params} {v : ChainView} {m m' txdb : TxIndexMap} {tx : CTransaction}
  {txs vtx : List CTransaction} {o : COutPoint}

/-! ## Definitions -/

/-- The index has an entry with the output, and the output is marked as spent. -/
def Marked (m : TxIndexMap) (o : COutPoint) : Prop :=
  ∃ e, m.lookup o.hash = some e ∧ ∃ pos, e.vSpent[o.n]? = some pos ∧ pos.isNull = false

/-- A transaction has the hash of one that another transaction spends from. -/
def Recreates (P : Params) (tx spender : CTransaction) : Prop :=
  tx.getHash P ∈ spender.spent.map COutPoint.hash

instance (P : Params) (tx spender : CTransaction) : Decidable (Recreates P tx spender) :=
  inferInstanceAs (Decidable (_ ∈ _))

/-- **Nothing is created again after it was spent**, in a list of transactions in chain order. -/
structure NotRecreated (P : Params) (txs : List CTransaction) : Prop where
  later : txs.Pairwise fun spender tx => ¬Recreates P tx spender
  self : ∀ tx ∈ txs, ¬Recreates P tx tx

/-- **The index has the marks of a list of transactions**, none of which spends what another one
spends. -/
structure SpentIn (P : Params) (m : TxIndexMap) (txs : List CTransaction) : Prop where
  marked : ∀ tx ∈ txs, ∀ o ∈ tx.spent, Marked m o
  once : (txs.flatMap CTransaction.spent).Nodup
  notRecreated : NotRecreated P txs

/-- What a transaction spends from has another hash than what does not create it again. -/
theorem hash_ne_of_not_recreates {spender : CTransaction} (h : ¬Recreates P tx spender)
    (ho : o ∈ spender.spent) : o.hash ≠ tx.getHash P := by
  intro heq
  refine h ?_
  rw [Recreates, ← heq]
  exact List.mem_map_of_mem ho

theorem notRecreated_append : NotRecreated P (txs ++ vtx) ↔
    NotRecreated P txs ∧ NotRecreated P vtx ∧
      ∀ spender ∈ txs, ∀ tx ∈ vtx, ¬Recreates P tx spender := by
  constructor
  · rintro ⟨hlater, hself⟩
    obtain ⟨h1, h2, h12⟩ := List.pairwise_append.mp hlater
    obtain ⟨hs1, hs2⟩ := List.forall_mem_append.mp hself
    exact ⟨⟨h1, hs1⟩, ⟨h2, hs2⟩, h12⟩
  · rintro ⟨⟨h1, hs1⟩, ⟨h2, hs2⟩, h12⟩
    exact ⟨List.pairwise_append.mpr ⟨h1, h2, h12⟩, List.forall_mem_append.mpr ⟨hs1, hs2⟩⟩

instance (P : Params) (txs : List CTransaction) : Decidable (NotRecreated P txs) :=
  decidable_of_iff ((txs.Pairwise fun spender tx => ¬Recreates P tx spender) ∧
    ∀ tx ∈ txs, ¬Recreates P tx tx) ⟨fun h => ⟨h.1, h.2⟩, fun h => ⟨h.later, h.self⟩⟩

theorem notRecreated_nil : NotRecreated P [] :=
  ⟨List.Pairwise.nil, fun _ h => absurd h List.not_mem_nil⟩

theorem spentIn_nil (P : Params) (m : TxIndexMap) : SpentIn P m [] :=
  ⟨fun _ h => absurd h List.not_mem_nil, List.nodup_nil, notRecreated_nil⟩

theorem CTransaction.spent_subset_prevouts (tx : CTransaction) : tx.spent ⊆ tx.prevouts := by
  rw [spent]
  split_ifs
  · exact List.nil_subset _
  · exact List.Subset.refl _

theorem CTransaction.Checked.spent_nodup (h : tx.Checked) : tx.spent.Nodup := by
  rw [CTransaction.spent]
  split_ifs
  · exact List.nodup_nil
  · exact h.prevouts_nodup

theorem Marked.hasOutput (h : Marked m o) : HasOutput m o := by
  obtain ⟨e, he, pos, hpos, -⟩ := h
  exact ⟨e, he, (List.getElem?_eq_some_iff.mp hpos).1⟩

/-! ## Marks under the steps of the index -/

/-- Marking outputs with a place keeps the marks, and adds its own. -/
theorem marked_markOutputs {pos : CDiskTxPos} (hpos : pos.isNull = false) {os : List COutPoint} :
    Marked (markOutputs pos m os) o ↔ Marked m o ∨ o ∈ os ∧ HasOutput m o := by
  unfold Marked HasOutput
  rw [lookup_markOutputs]
  cases m.lookup o.hash with
  | none => simp
  | some e =>
    simp only [Option.map_some, Option.some.injEq, exists_eq_left', CTxIndex.markAll_vSpent_getElem?]
    by_cases hmem : o ∈ os
    · by_cases hlt : o.n < e.vSpent.length
      · simp [hmem, hlt, hpos]
      · simp [hmem, hlt]
    · simp [hmem]

/-- Clearing marks keeps the marks of other outputs. -/
theorem marked_clear {os : List COutPoint} (hnot : o ∉ os) :
    Marked (markOutputs CDiskTxPos.setNull m os) o ↔ Marked m o := by
  unfold Marked
  rw [lookup_markOutputs]
  cases m.lookup o.hash with
  | none => simp
  | some e =>
    simp only [Option.map_some, Option.some.injEq, exists_eq_left', CTxIndex.markAll_vSpent_getElem?]
    simp [hnot]

/-- What a transaction spends when it connects is not marked yet. -/
theorem SpendsUnspent.not_marked (h : SpendsUnspent m tx) (ho : o ∈ tx.spent) : ¬Marked m o := by
  rintro ⟨e, he, pos, hpos, hnull⟩
  obtain ⟨e', he', hunspent⟩ := h o ho
  rw [he, Option.some.injEq] at he'
  subst he'
  rw [hpos, Option.some.injEq] at hunspent
  subst hunspent
  cases hnull

/-- **A transaction connects**: the index then has its marks as well. -/
theorem SpentIn.applyTx {pos : CDiskTxPos} (h : SpentIn P m txs) (hpos : pos.isNull = false)
    (hchk : tx.Checked) (hspends : SpendsUnspent m tx) (hnot : NotRecreated P (txs ++ [tx])) :
    SpentIn P (applyTx P pos m tx) (txs ++ [tx]) := by
  obtain ⟨-, hself, hlater⟩ := notRecreated_append.mp hnot
  have hkeeps : ∀ o, o.hash ≠ tx.getHash P → Marked (markOutputs pos m tx.spent) o →
      Marked (FoxCoin.applyTx P pos m tx) o := by
    rintro o hne ⟨e, he, hmark⟩
    exact ⟨e, by rw [FoxCoin.applyTx, lookup_insert_eq_ite, if_neg hne, he], hmark⟩
  have hnew : ∀ o ∈ tx.spent, ∀ tx' ∈ txs, o ∉ tx'.spent := fun o ho tx' htx' ho' =>
    hspends.not_marked ho (h.marked tx' htx' o ho')
  refine ⟨fun tx' htx' o ho => ?_, ?_, hnot⟩
  · rcases List.mem_append.mp htx' with hold | hlast
    · have hother := hlater tx' hold tx List.mem_cons_self
      exact hkeeps o (hash_ne_of_not_recreates hother ho)
        ((marked_markOutputs hpos).mpr (.inl (h.marked tx' hold o ho)))
    · obtain rfl := List.mem_singleton.mp hlast
      obtain ⟨e, he, hunspent⟩ := hspends o ho
      have houtput : HasOutput m o := ⟨e, he, (List.getElem?_eq_some_iff.mp hunspent).1⟩
      exact hkeeps o (hash_ne_of_not_recreates (hself.self tx' List.mem_cons_self) ho)
        ((marked_markOutputs hpos).mpr (.inr ⟨ho, houtput⟩))
  · rw [List.flatMap_append, List.flatMap_singleton]
    refine h.once.append hchk.spent_nodup fun o ho ho' => ?_
    obtain ⟨tx', htx', hmem⟩ := List.mem_flatMap.mp ho
    exact hnew o ho' tx' htx' hmem

/-- **A transaction disconnects**: its outputs are in the index, and the index keeps the marks of
the transactions before it. -/
theorem SpentIn.undoTx (h : SpentIn P m (txs ++ [tx])) :
    tx.disconnectInputs P m = .ok (undoTx P m tx) ∧ SpentIn P (undoTx P m tx) txs := by
  obtain ⟨hnot, -, hlater⟩ := notRecreated_append.mp h.notRecreated
  have honce := h.once
  rw [List.flatMap_append, List.flatMap_singleton] at honce
  refine ⟨disconnectInputs_eq_ok.mpr ⟨fun o ho => ?_, rfl⟩, fun tx' htx' o ho => ?_,
    honce.of_append_left, hnot⟩
  · exact (h.marked tx (List.mem_append_right _ List.mem_cons_self) o ho).hasOutput
  · have hmark : Marked (markOutputs CDiskTxPos.setNull m tx.spent) o := by
      refine (marked_clear fun ho' => ?_).mpr (h.marked tx' (List.mem_append_left _ htx') o ho)
      exact List.disjoint_of_nodup_append honce (List.mem_flatMap.mpr ⟨tx', htx', ho⟩) ho'
    have hne := hash_ne_of_not_recreates (hlater tx' htx' tx List.mem_cons_self) ho
    obtain ⟨e, he, hspent⟩ := hmark
    exact ⟨e, by rw [FoxCoin.undoTx, lookup_erase_eq_ite, if_neg hne, he], hspent⟩

/-! ## Blocks -/

/-- The loop of `ConnectBlock` keeps the marks. -/
theorem SpentIn.foldl_next {c : ConnectContext} {s : IndexState} (h : SpentIn P s.index txs)
    (hpos : ∀ nTxPos, (c.posThisTx nTxPos).isNull = false) (hchk : ∀ tx ∈ vtx, tx.Checked)
    (hall : s.ConnectsAll P v txdb c vtx) (hnot : NotRecreated P (txs ++ vtx)) :
    SpentIn P (vtx.foldl (IndexState.next P v c) s).index (txs ++ vtx) := by
  induction vtx generalizing s txs with
  | nil => simpa using h
  | cons tx vtx ih =>
    obtain ⟨htx, hvtx⟩ := List.forall_mem_cons.mp hchk
    obtain ⟨hconn, hrest⟩ := hall
    have hsplit : txs ++ tx :: vtx = (txs ++ [tx]) ++ vtx := List.append_cons txs tx vtx
    rw [hsplit] at hnot ⊢
    have hfirst := h.applyTx (hpos s.nTxPos) htx hconn.spendsUnspent (notRecreated_append.mp hnot).1
    exact ih (s := s.next P v c tx) hfirst hvtx hrest hnot

/-- **Connecting a block keeps the marks.** -/
theorem SpentIn.connectBlock {io : Io} {db db' : CTxDB} {block : CBlock} {pindex : CBlockIndex}
    {vPrev : List CBlockIndex} (h : SpentIn P db.mapTxIndex txs) (hfile : pindex.nFile ≠ uintMax)
    (hnot : NotRecreated P (txs ++ block.vtx))
    (hconnect : block.connectBlock P v io db pindex vPrev = .ok db') :
    SpentIn P db'.mapTxIndex (txs ++ block.vtx) := by
  obtain ⟨hcheck, hconn, -, rfl⟩ := connectBlock_eq_ok.mp hconnect
  rw [CTxDB.writeNext_mapTxIndex]
  exact SpentIn.foldl_next (s := block.startState pindex db.mapTxIndex) h
    (fun _ => CDiskTxPos.isNull_ofFile hfile) (CBlock.checked_of_checkBlock hcheck).tx_checked
    hconn.transactions hnot

/-- The loop of `DisconnectBlock` succeeds. -/
theorem SpentIn.foldlM_disconnectInputs (h : SpentIn P m (txs ++ vtx)) :
    ∃ m', vtx.reverse.foldlM (CTransaction.disconnectInputs P) m = .ok m' ∧ SpentIn P m' txs := by
  induction vtx using List.reverseRecOn generalizing m with
  | nil => exact ⟨m, rfl, by simpa using h⟩
  | append_singleton vtx tx ih =>
    rw [← List.append_assoc] at h
    obtain ⟨hundo, hrest⟩ := h.undoTx
    obtain ⟨m', hm', hspent⟩ := ih hrest
    refine ⟨m', ?_, hspent⟩
    rw [List.reverse_append, List.reverse_singleton, List.singleton_append]
    exact foldlM_cons_eq_ok.mpr ⟨_, hundo, hm'⟩

/-- **A block can be disconnected**, and the index keeps the marks of what is below it. -/
theorem SpentIn.disconnectBlock {io : Io} {db : CTxDB} {block : CBlock} {pindex : CBlockIndex}
    {vPrev : List CBlockIndex} (h : SpentIn P db.mapTxIndex (txs ++ block.vtx))
    (hio : io.WritesIndex pindex vPrev) :
    ∃ db', block.disconnectBlock P io db pindex vPrev = .ok db' ∧
      SpentIn P db'.mapTxIndex txs := by
  obtain ⟨m', hm', hspent⟩ := h.foldlM_disconnectInputs
  refine ⟨_, disconnectBlock_eq_ok.mpr ⟨m', hm', hio, rfl⟩, ?_⟩
  rw [CTxDB.writeNext_mapTxIndex]
  exact hspent

/-- A block that was disconnected leaves the marks of what is below it. -/
theorem SpentIn.of_disconnectBlock {io : Io} {db db' : CTxDB} {block : CBlock}
    {pindex : CBlockIndex} {vPrev : List CBlockIndex}
    (h : SpentIn P db.mapTxIndex (txs ++ block.vtx))
    (hdisconnect : block.disconnectBlock P io db pindex vPrev = .ok db') :
    SpentIn P db'.mapTxIndex txs := by
  obtain ⟨m, -, hio, -⟩ := disconnectBlock_eq_ok.mp hdisconnect
  obtain ⟨db'', hdb'', hspent⟩ := h.disconnectBlock hio
  rw [hdisconnect, Except.ok.injEq] at hdb''
  rwa [hdb'']

end FoxCoin
