import FoxCoin.ListSinceBlock
import FoxCoin.PoolAccept
import FoxCoin.Lib.Tour

/-! # Supporting transactions

`AddSupportingTransactions` copies to a wallet transaction what it needs to be accepted: the
transactions it spends, those which these spend, and so on down to `COPY_DEPTH` blocks. They are
found breadth first and then reversed, and `AcceptWalletTransaction` submits them in that order.
A transaction comes after all those it spends only if it is found before them. -/

namespace FoxCoin

open Checked Overlay Tour

/-! ## The data -/

/-- `CMerkleTx`. -/
structure CMerkleTx where
  tx : CTransaction
  hashBlock : Uint256
  vMerkleBranch : List Uint256
  nIndex : ℤ
  deriving DecidableEq

/-- `CMerkleTx(tx)`. -/
def CMerkleTx.ofTx (tx : CTransaction) : CMerkleTx := ⟨tx, 0, [], -1⟩

/-- `COPY_DEPTH`. -/
def copyDepth : ℤ := 3

/-- The hashes that the inputs of a transaction name. -/
def CTransaction.prevHashes (tx : CTransaction) : List Uint256 :=
  tx.vin.map fun txin => txin.prevout.hash

/-- What the search reads: the node, and the wallet's transactions, each with the transactions that
are stored with it. Transactions are kept under their hashes, and no two different ones that are
stored have the same hash. -/
structure SupportView (P : Params) where
  node : NodeState
  mapWallet : StdMap Uint256 (CMerkleTx × List CMerkleTx)
  wallet_keyed : ∀ hash wtx, mapWallet.lookup hash = some wtx → wtx.1.tx.getHash P = hash
  index_keyed : ∀ hash txindex tx, node.txdb.mapTxIndex.lookup hash = some txindex →
    node.files.readTx txindex.pos.nFile txindex.pos.nTxPos = some tx → tx.getHash P = hash
  stored_inj : ∀ hash wtx hash' wtx', mapWallet.lookup hash = some wtx →
    mapWallet.lookup hash' = some wtx' → ∀ prev ∈ wtx.2, ∀ prev' ∈ wtx'.2,
      prev.tx.getHash P = prev'.tx.getHash P → prev.tx = prev'.tx

namespace SupportView

variable {P : Params} (v : SupportView P)

/-! ## The search -/

/-- `CMerkleTx::SetMerkleBranch()`, and the depth it returns. -/
def setMerkleBranch (merkleTx : CMerkleTx) : CMerkleTx × ℤ :=
  match v.node.txdb.mapTxIndex.lookup (merkleTx.tx.getHash P) with
  | none => (merkleTx, 0)
  | some txindex =>
    match v.node.files.readBlock P txindex.pos.nFile txindex.pos.nBlockPos with
    | none => (merkleTx, 0)
    | some block =>
      match block.txIndex merkleTx.tx with
      | none =>
        ({ merkleTx with hashBlock := block.getHash P, vMerkleBranch := [], nIndex := -1 }, 0)
      | some nIndex =>
        ({ merkleTx with
            hashBlock := block.getHash P
            vMerkleBranch := block.getMerkleBranch P nIndex
            nIndex := nIndex },
          match v.node.mapBlockIndex.lookup (block.getHash P), v.node.pindexBest with
          | some pindex, some pindexBest =>
            if v.node.isInMainChain pindex then pindexBest.nHeight - pindex.nHeight + 1 else 0
          | _, _ => 0)

/-- `CTxDB::ReadDiskTx(hash, tx)`. -/
def readDiskTx (hash : Uint256) : Option CTransaction :=
  (v.node.txdb.mapTxIndex.lookup hash).bind fun txindex =>
    v.node.files.readTx txindex.pos.nFile txindex.pos.nTxPos

/-- The variables of the search. -/
structure SupportState where
  mapWalletPrev : StdMap Uint256 CMerkleTx
  setAlreadyDone : Finset Uint256
  vtxPrev : List CMerkleTx

/-- The loop over the transactions that are stored with a wallet transaction. -/
def keepPrev (P : Params) (mapWalletPrev : StdMap Uint256 CMerkleTx) (vtxPrev : List CMerkleTx) :
    StdMap Uint256 CMerkleTx :=
  vtxPrev.foldl (fun mapWalletPrev txWalletPrev =>
    mapWalletPrev.insert (txWalletPrev.tx.getHash P) txWalletPrev) mapWalletPrev

/-- The lookup of a hash: the wallet first, then what was stored with the wallet's transactions that
were found before, and then the disk. With it `mapWalletPrev` after the lookup. -/
def findTx (mapWalletPrev : StdMap Uint256 CMerkleTx) (hash : Uint256) :
    Option (CMerkleTx × StdMap Uint256 CMerkleTx) :=
  match v.mapWallet.lookup hash with
  | some (tx, vtxPrev) => some (tx, keepPrev P mapWalletPrev vtxPrev)
  | none =>
    match mapWalletPrev.lookup hash with
    | some tx => some (tx, mapWalletPrev)
    | none => (v.readDiskTx hash).map fun tx => (CMerkleTx.ofTx tx, mapWalletPrev)

/-- What is still to be found outside the wallet. -/
def unvisited (st : SupportState) : Finset Uint256 :=
  (v.node.txdb.mapTxIndex.keys ∪ st.mapWalletPrev.keys) \ st.setAlreadyDone

theorem findTx_cases {mapWalletPrev mapWalletPrev' : StdMap Uint256 CMerkleTx} {hash : Uint256}
    {tx : CMerkleTx} (h : v.findTx mapWalletPrev hash = some (tx, mapWalletPrev')) :
    (∃ vtxPrev, v.mapWallet.lookup hash = some (tx, vtxPrev) ∧
      mapWalletPrev' = keepPrev P mapWalletPrev vtxPrev) ∨
    v.mapWallet.lookup hash = none ∧ mapWalletPrev' = mapWalletPrev ∧
      (mapWalletPrev.lookup hash = some tx ∨
        mapWalletPrev.lookup hash = none ∧ (v.readDiskTx hash).map CMerkleTx.ofTx = some tx) := by
  unfold findTx at h
  split at h
  · next tx' vtxPrev hwallet =>
    obtain ⟨rfl, rfl⟩ := Prod.mk.inj (Option.some.inj h)
    exact .inl ⟨vtxPrev, hwallet, rfl⟩
  · next hwallet =>
    right
    split at h
    · next tx' hprev =>
      obtain ⟨rfl, rfl⟩ := Prod.mk.inj (Option.some.inj h)
      exact ⟨hwallet, rfl, .inl hprev⟩
    · next hprev =>
      obtain ⟨diskTx, hdisk, heq⟩ := Option.map_eq_some_iff.mp h
      obtain ⟨rfl, rfl⟩ := Prod.mk.inj heq
      exact ⟨hwallet, rfl, .inr ⟨hprev, by rw [hdisk]; rfl⟩⟩

/-- The wallet's transactions that have not been found. -/
def unvisitedWallet (st : SupportState) : Finset Uint256 := v.mapWallet.keys \ st.setAlreadyDone

theorem card_unvisitedWallet_lt {st st' : SupportState} {hash : Uint256}
    (hnew : hash ∉ st.setAlreadyDone) (hdone : st'.setAlreadyDone = insert hash st.setAlreadyDone)
    (hmem : hash ∈ v.mapWallet) :
    (v.unvisitedWallet st').card < (v.unvisitedWallet st).card := by
  unfold unvisitedWallet
  rw [hdone, Finset.sdiff_insert]
  refine Finset.card_erase_lt_of_mem ?_
  exact Finset.mem_sdiff.mpr ⟨Finmap.mem_keys.mpr hmem, hnew⟩

theorem card_unvisitedWallet_le {st st' : SupportState}
    (hdone : st.setAlreadyDone ⊆ st'.setAlreadyDone) :
    (v.unvisitedWallet st').card ≤ (v.unvisitedWallet st).card :=
  Finset.card_le_card (Finset.sdiff_subset_sdiff (Finset.Subset.refl _) hdone)

theorem card_unvisited_lt {st : SupportState} {vtxPrev : List CMerkleTx} {hash : Uint256}
    (hnew : hash ∉ st.setAlreadyDone)
    (hmem : hash ∈ v.node.txdb.mapTxIndex ∨ hash ∈ st.mapWalletPrev) :
    (v.unvisited ⟨st.mapWalletPrev, insert hash st.setAlreadyDone, vtxPrev⟩).card <
      (v.unvisited st).card := by
  unfold unvisited
  rw [Finset.sdiff_insert]
  refine Finset.card_erase_lt_of_mem (Finset.mem_sdiff.mpr ⟨?_, hnew⟩)
  rw [Finset.mem_union, Finmap.mem_keys, Finmap.mem_keys]
  exact hmem

/-- The search comes to an end: every transaction that is found was not found before. -/
theorem unvisited_decreases {st : SupportState} {hash : Uint256}
    (hnew : hash ∉ st.setAlreadyDone) {tx : CMerkleTx} {mapWalletPrev : StdMap Uint256 CMerkleTx}
    (hfind : v.findTx st.mapWalletPrev hash = some (tx, mapWalletPrev)) (vtxPrev : List CMerkleTx)
    (n n' : ℕ) :
    Prod.Lex Nat.lt (Prod.Lex Nat.lt Nat.lt)
      ((v.unvisitedWallet ⟨mapWalletPrev, insert hash st.setAlreadyDone, vtxPrev⟩).card,
        (v.unvisited ⟨mapWalletPrev, insert hash st.setAlreadyDone, vtxPrev⟩).card, n)
      ((v.unvisitedWallet st).card, (v.unvisited st).card, n') := by
  rcases v.findTx_cases hfind with ⟨vtxPrev, hwallet, -⟩ | ⟨-, rfl, hfound⟩
  · exact .left _ _ (v.card_unvisitedWallet_lt hnew rfl (Finmap.mem_of_lookup_eq_some hwallet))
  · refine .right' _ (v.card_unvisitedWallet_le (Finset.subset_insert _ _)) (.left _ _ ?_)
    refine v.card_unvisited_lt hnew ?_
    rcases hfound with hprev | ⟨-, hdisk⟩
    · exact .inr (Finmap.mem_of_lookup_eq_some hprev)
    · obtain ⟨diskTx, hdiskTx, -⟩ := Option.map_eq_some_iff.mp hdisk
      obtain ⟨txindex, hindex, -⟩ := Option.bind_eq_some_iff.mp hdiskTx
      exact .inl (Finmap.mem_of_lookup_eq_some hindex)

/-- The worklist of `AddSupportingTransactions` from a position on. -/
def supportLoop (vWorkQueue : List Uint256) (st : SupportState) : SupportState :=
  match vWorkQueue with
  | [] => st
  | hash :: vWorkQueue =>
    if hnew : hash ∈ st.setAlreadyDone then supportLoop vWorkQueue st
    else
      match hfind : v.findTx st.mapWalletPrev hash with
      | none =>
        -- an unsupported transaction
        supportLoop vWorkQueue { st with setAlreadyDone := insert hash st.setAlreadyDone }
      | some (tx, mapWalletPrev) =>
        supportLoop
          (if (v.setMerkleBranch tx).2 < copyDepth then
            vWorkQueue ++ (v.setMerkleBranch tx).1.tx.prevHashes else vWorkQueue)
          ⟨mapWalletPrev, insert hash st.setAlreadyDone, st.vtxPrev ++ [(v.setMerkleBranch tx).1]⟩
termination_by ((v.unvisitedWallet st).card, (v.unvisited st).card, vWorkQueue.length)
decreasing_by
  · exact .right _ (.right _ (by simp))
  · refine .right' _ (v.card_unvisitedWallet_le (Finset.subset_insert _ _)) (.right' _ ?_ (by simp))
    exact Finset.card_le_card (Finset.sdiff_subset_sdiff (Finset.Subset.refl _)
      (Finset.subset_insert _ _))
  · exact v.unvisited_decreases hnew hfind _ _ _

/-- `AddSupportingTransactions`: the transaction and `vtxPrev` after it. -/
def addSupportingTransactions (wtx : CMerkleTx) : CMerkleTx × List CMerkleTx :=
  let merkle := v.setMerkleBranch wtx
  (merkle.1,
    (if merkle.2 < copyDepth then (v.supportLoop merkle.1.tx.prevHashes ⟨∅, ∅, []⟩).vtxPrev
      else []).reverse)

/-! ## The loop -/

section Loop

variable {v} {hash : Uint256} {vWorkQueue : List Uint256} {st : SupportState} {tx : CMerkleTx}
  {mapWalletPrev : StdMap Uint256 CMerkleTx}

theorem supportLoop_done (hdone : hash ∈ st.setAlreadyDone) :
    v.supportLoop (hash :: vWorkQueue) st = v.supportLoop vWorkQueue st := by
  rw [supportLoop, dif_pos hdone]

theorem supportLoop_missing (hnew : hash ∉ st.setAlreadyDone)
    (hfind : v.findTx st.mapWalletPrev hash = none) :
    v.supportLoop (hash :: vWorkQueue) st =
      v.supportLoop vWorkQueue { st with setAlreadyDone := insert hash st.setAlreadyDone } := by
  rw [supportLoop, dif_neg hnew]
  split
  · rfl
  · next hfound =>
    rw [hfind] at hfound
    cases hfound

theorem supportLoop_found (hnew : hash ∉ st.setAlreadyDone)
    (hfind : v.findTx st.mapWalletPrev hash = some (tx, mapWalletPrev)) :
    v.supportLoop (hash :: vWorkQueue) st =
      v.supportLoop
        (if (v.setMerkleBranch tx).2 < copyDepth then
          vWorkQueue ++ (v.setMerkleBranch tx).1.tx.prevHashes else vWorkQueue)
        ⟨mapWalletPrev, insert hash st.setAlreadyDone,
          st.vtxPrev ++ [(v.setMerkleBranch tx).1]⟩ := by
  rw [supportLoop, dif_neg hnew]
  split
  · next hnone =>
    rw [hfind] at hnone
    cases hnone
  · next hfound =>
    obtain ⟨rfl, rfl⟩ := Prod.mk.inj (Option.some.inj (hfind.symm.trans hfound))
    rfl

end Loop

/-- The depth of a transaction. -/
def depth (tx : CTransaction) : ℤ := (v.setMerkleBranch (.ofTx tx)).2

/-- The depth that `SetMerkleBranch` returns is that of the transaction, which stays. -/
theorem setMerkleBranch_spec (merkleTx : CMerkleTx) :
    (v.setMerkleBranch merkleTx).1.tx = merkleTx.tx ∧
      (v.setMerkleBranch merkleTx).2 = v.depth merkleTx.tx := by
  unfold depth setMerkleBranch CMerkleTx.ofTx
  dsimp only
  split
  · exact ⟨rfl, rfl⟩
  · split
    · exact ⟨rfl, rfl⟩
    · split <;> exact ⟨rfl, rfl⟩

/-! ## The ancestry -/

/-- Some transaction with a hash is stored with one of the given wallet transactions. -/
def StoredAt (before : Set Uint256) (hash : Uint256) (prev : CMerkleTx) : Prop :=
  ∃ k ∈ before, ∃ wtx, v.mapWallet.lookup k = some wtx ∧ prev ∈ wtx.2 ∧ prev.tx.getHash P = hash

open Classical in
/-- What is found for a hash when some hashes have been looked up before: a transaction of the
wallet, one that is stored with a wallet transaction among those, or one on the disk. -/
noncomputable def lookAfter (before : Set Uint256) (hash : Uint256) : Option CTransaction :=
  match v.mapWallet.lookup hash with
  | some wtx => some wtx.1.tx
  | none =>
    if h : ∃ prev, v.StoredAt before hash prev then some h.choose.tx else v.readDiskTx hash

/-- The ancestry of a transaction: it goes on below those that are not deep in the chain. -/
noncomputable def ancestry (tx : CTransaction) : Search Uint256 CTransaction where
  start := tx.prevHashes
  look := v.lookAfter
  refs tx := if v.depth tx < copyDepth then tx.prevHashes else []

/-- A transaction that is found for a hash has it. -/
theorem getHash_of_lookAfter {before : Set Uint256} {hash : Uint256} {tx : CTransaction}
    (h : v.lookAfter before hash = some tx) : tx.getHash P = hash := by
  unfold lookAfter at h
  split at h
  · next wtx hwallet =>
    rw [← Option.some.inj h]
    exact v.wallet_keyed _ _ hwallet
  · split at h
    · next hstored =>
      obtain ⟨-, -, -, -, -, hhash⟩ := hstored.choose_spec
      rw [← Option.some.inj h]
      exact hhash
    · obtain ⟨txindex, hindex, hread⟩ := Option.bind_eq_some_iff.mp h
      exact v.index_keyed _ _ _ hindex hread

/-- The variables of the search after some stops. -/
structure Tracks (st : SupportState) (stops : List (Stop Uint256 CTransaction)) : Prop where
  done : ∀ hash, hash ∈ st.setAlreadyDone ↔ hash ∈ Search.nodesOf stops
  vtxPrev : st.vtxPrev.map CMerkleTx.tx = stops.filterMap Stop.found
  stored : ∀ hash tx, st.mapWalletPrev.lookup hash = some tx →
    v.StoredAt (Search.nodesOf stops) hash tx
  kept : ∀ hash prev, v.StoredAt (Search.nodesOf stops) hash prev → hash ∈ st.mapWalletPrev

variable {v}

theorem StoredAt.tx_eq {before before' : Set Uint256} {hash : Uint256} {prev prev' : CMerkleTx}
    (h : v.StoredAt before hash prev) (h' : v.StoredAt before' hash prev') :
    prev.tx = prev'.tx := by
  obtain ⟨k, -, wtx, hwtx, hmem, rfl⟩ := h
  obtain ⟨k', -, wtx', hwtx', hmem', heq⟩ := h'
  exact v.stored_inj k wtx k' wtx' hwtx hwtx' prev hmem prev' hmem' heq.symm

/-- **The lookup finds what the ancestry tells.** -/
theorem Tracks.findTx_eq {st : SupportState} {stops : List (Stop Uint256 CTransaction)}
    (h : v.Tracks st stops) (hash : Uint256) :
    (v.findTx st.mapWalletPrev hash).map (fun found => found.1.tx) =
      v.lookAfter (Search.nodesOf stops) hash := by
  unfold findTx lookAfter
  cases hwallet : v.mapWallet.lookup hash with
  | some wtx => rfl
  | none =>
    dsimp only
    cases hprev : st.mapWalletPrev.lookup hash with
    | some tx =>
      have hstored := h.stored hash tx hprev
      have hex : ∃ prev, v.StoredAt (Search.nodesOf stops) hash prev := ⟨tx, hstored⟩
      rw [dif_pos hex, hex.choose_spec.tx_eq hstored]
      rfl
    | none =>
      rw [dif_neg]
      · cases v.readDiskTx hash <;> rfl
      · rintro ⟨prev, hstored⟩
        have hmem := h.kept hash prev hstored
        rw [← Finmap.lookup_isSome, hprev] at hmem
        cases hmem

/-- What is kept after the loop was kept before, or is one of the stored transactions. -/
theorem lookup_keepPrev {vtxPrev : List CMerkleTx} {mapWalletPrev : StdMap Uint256 CMerkleTx}
    {hash : Uint256} {tx : CMerkleTx}
    (h : (keepPrev P mapWalletPrev vtxPrev).lookup hash = some tx) :
    mapWalletPrev.lookup hash = some tx ∨ tx ∈ vtxPrev ∧ tx.tx.getHash P = hash := by
  induction vtxPrev generalizing mapWalletPrev with
  | nil => exact .inl h
  | cons prev vtxPrev ih =>
    rcases ih h with hbefore | ⟨hmem, hhash⟩
    · rw [lookup_insert_eq_ite] at hbefore
      split_ifs at hbefore with heq
      · rw [← Option.some.inj hbefore]
        exact .inr ⟨List.mem_cons_self .., heq.symm⟩
      · exact .inl hbefore
    · exact .inr ⟨List.mem_cons_of_mem _ hmem, hhash⟩

theorem mem_keepPrev {vtxPrev : List CMerkleTx} {mapWalletPrev : StdMap Uint256 CMerkleTx}
    {hash : Uint256} (h : hash ∈ mapWalletPrev ∨ ∃ prev ∈ vtxPrev, prev.tx.getHash P = hash) :
    hash ∈ keepPrev P mapWalletPrev vtxPrev := by
  induction vtxPrev generalizing mapWalletPrev with
  | nil => exact h.resolve_right (by simp)
  | cons prev vtxPrev ih =>
    refine ih ?_
    rw [Finmap.mem_insert]
    rcases h with h | ⟨prev', hmem, rfl⟩
    · exact .inl (.inr h)
    · rcases List.mem_cons.mp hmem with rfl | hmem
      · exact .inl (.inl rfl)
      · exact .inr ⟨prev', hmem, rfl⟩

theorem StoredAt.mono {before before' : Set Uint256} {hash : Uint256} {prev : CMerkleTx}
    (h : v.StoredAt before hash prev) (hsub : before ⊆ before') :
    v.StoredAt before' hash prev := by
  obtain ⟨k, hk, hstored⟩ := h
  exact ⟨k, hsub hk, hstored⟩

section Track

variable {st : SupportState} {stops : List (Stop Uint256 CTransaction)} {hash : Uint256}

/-- What is stored after one more stop. -/
theorem storedAt_snoc {p : List ℕ} {found : Option CTransaction} {k : Uint256} {prev : CMerkleTx}
    (h : v.StoredAt (Search.nodesOf (stops ++ [⟨p, hash, found⟩])) k prev) :
    v.StoredAt (Search.nodesOf stops) k prev ∨
      ∃ wtx, v.mapWallet.lookup hash = some wtx ∧ prev ∈ wtx.2 ∧ prev.tx.getHash P = k := by
  obtain ⟨k', hk', hstored⟩ := h
  rcases Search.mem_nodesOf_snoc.mp hk' with hold | rfl
  · exact .inl ⟨k', hold, hstored⟩
  · exact .inr hstored

theorem Tracks.mem_insert_iff (h : v.Tracks st stops) (p : List ℕ) (found : Option CTransaction)
    (k : Uint256) : k ∈ insert hash st.setAlreadyDone ↔
      k ∈ Search.nodesOf (stops ++ [⟨p, hash, found⟩]) := by
  rw [Finset.mem_insert, Search.mem_nodesOf_snoc, h.done, or_comm]
  exact or_congr_right eq_comm

/-- An unsupported transaction is passed over. -/
theorem Tracks.missing (h : v.Tracks st stops) (hfind : v.findTx st.mapWalletPrev hash = none)
    (p : List ℕ) : v.Tracks { st with setAlreadyDone := insert hash st.setAlreadyDone }
      (stops ++ [⟨p, hash, none⟩]) := by
  have hwallet : v.mapWallet.lookup hash = none := by
    unfold findTx at hfind
    split at hfind
    · cases hfind
    · assumption
  refine ⟨h.mem_insert_iff p none, ?_, fun k tx hk => ?_, fun k prev hk => ?_⟩
  · rw [h.vtxPrev]
    simp
  · exact (h.stored k tx hk).mono Search.nodesOf_subset_snoc
  · rcases storedAt_snoc hk with hold | ⟨wtx, hsome, -⟩
    · exact h.kept k prev hold
    · rw [hwallet] at hsome
      cases hsome

/-- A transaction that is found is copied. -/
theorem Tracks.found (h : v.Tracks st stops) {tx : CMerkleTx}
    {mapWalletPrev : StdMap Uint256 CMerkleTx}
    (hfind : v.findTx st.mapWalletPrev hash = some (tx, mapWalletPrev)) (p : List ℕ) :
    v.Tracks ⟨mapWalletPrev, insert hash st.setAlreadyDone,
        st.vtxPrev ++ [(v.setMerkleBranch tx).1]⟩
      (stops ++ [⟨p, hash, some tx.tx⟩]) := by
  refine ⟨h.mem_insert_iff p _, ?_, fun k prev hk => ?_, fun k prev hk => ?_⟩
  · rw [List.map_append, h.vtxPrev, List.filterMap_append, List.map_singleton,
      (v.setMerkleBranch_spec tx).1]
    rfl
  · rcases v.findTx_cases hfind with ⟨vtxPrev, hwallet, rfl⟩ | ⟨-, rfl, -⟩
    · rcases lookup_keepPrev hk with hold | ⟨hmem, hhash⟩
      · exact (h.stored k prev hold).mono Search.nodesOf_subset_snoc
      · exact ⟨hash, Search.mem_nodesOf_snoc.mpr (.inr rfl), _, hwallet, hmem, hhash⟩
    · exact (h.stored k prev hk).mono Search.nodesOf_subset_snoc
  · rcases v.findTx_cases hfind with ⟨vtxPrev, hwallet, rfl⟩ | ⟨hwallet, rfl, -⟩
    · refine mem_keepPrev ?_
      rcases storedAt_snoc hk with hold | ⟨wtx, hsome, hmem, hhash⟩
      · exact .inl (h.kept k prev hold)
      · obtain rfl := Option.some.inj (hwallet.symm.trans hsome)
        exact .inr ⟨prev, hmem, hhash⟩
    · rcases storedAt_snoc hk with hold | ⟨wtx, hsome, -⟩
      · exact h.kept k prev hold
      · rw [hwallet] at hsome
        cases hsome

/-- **The loop is a tour of the ancestry.** -/
theorem Tracks.run (tx : CTransaction) (vWorkQueue : List Uint256) (st : SupportState)
    (queue : List (List ℕ × Uint256)) (hqueue : queue.map Prod.snd = vWorkQueue)
    (h : v.Tracks st stops) :
    ∃ F, (v.ancestry tx).Run queue stops F ∧ v.Tracks (v.supportLoop vWorkQueue st) F := by
  induction vWorkQueue, st using supportLoop.induct v generalizing queue stops with
  | case1 st =>
    obtain rfl := List.map_eq_nil_iff.mp hqueue
    rw [supportLoop]
    exact ⟨stops, .done stops, h⟩
  | case2 st hash vWorkQueue hdone ih =>
    obtain ⟨⟨p, hash'⟩, queue, rfl, rfl, hrest⟩ := List.map_eq_cons_iff.mp hqueue
    obtain ⟨F, hrun, htracks⟩ := ih queue hrest h
    rw [supportLoop_done hdone]
    exact ⟨F, .skip ((h.done _).mp hdone) hrun, htracks⟩
  | case3 st hash vWorkQueue hnew hfind ih =>
    obtain ⟨⟨p, hash'⟩, queue, rfl, rfl, hrest⟩ := List.map_eq_cons_iff.mp hqueue
    have hlook : v.lookAfter (Search.nodesOf stops) hash' = none := by
      rw [← h.findTx_eq, hfind]
      rfl
    obtain ⟨F, hrun, htracks⟩ := ih queue hrest (h.missing hfind p)
    rw [supportLoop_missing hnew hfind]
    refine ⟨F, .visit_eq (mt (h.done _).mpr hnew) hlook ?_, htracks⟩
    rw [show Search.numbered p ((v.ancestry tx).refsOf none) = [] from rfl, List.append_nil]
    exact hrun
  | case4 st hash vWorkQueue hnew tx' mapWalletPrev hfind ih =>
    obtain ⟨⟨p, hash'⟩, queue, rfl, rfl, hrest⟩ := List.map_eq_cons_iff.mp hqueue
    have hlook : v.lookAfter (Search.nodesOf stops) hash' = some tx'.tx := by
      rw [← h.findTx_eq, hfind]
      rfl
    obtain ⟨htx, hdepth⟩ := v.setMerkleBranch_spec tx'
    have hnext : (queue ++ Search.numbered p ((v.ancestry tx).refsOf (some tx'.tx))).map Prod.snd =
        if (v.setMerkleBranch tx').2 < copyDepth then
          vWorkQueue ++ (v.setMerkleBranch tx').1.tx.prevHashes else vWorkQueue := by
      rw [List.map_append, hrest, Search.map_snd_numbered, htx, hdepth]
      show vWorkQueue ++ (if v.depth tx'.tx < copyDepth then tx'.tx.prevHashes else []) = _
      split_ifs
      · rfl
      · exact List.append_nil _
    obtain ⟨F, hrun, htracks⟩ := ih _ hnext (h.found hfind p)
    rw [supportLoop_found hnew hfind]
    exact ⟨F, .visit_eq (mt (h.done _).mpr hnew) hlook hrun, htracks⟩

end Track

end SupportView

/-! ## AcceptWalletTransaction -/

/-- The loop of `AcceptWalletTransaction` over `vtxPrev`: the pool after it, and the transactions
that were submitted. `fLimited` says which of them the limiter of free transactions would reject. -/
def submitPrev (P : Params) (env : ScriptEnv) (pool : PoolView) (fLimited : CTransaction → Bool)
    (fCheckInputs : Bool) : List CMerkleTx → CTxMemPool → CTxMemPool × List CTransaction
  | [], mempool => (mempool, [])
  | prev :: vtxPrev, mempool =>
    if !prev.tx.isCoinBase && decide (prev.tx.getHash P ∉ mempool.mapTx) &&
        decide (prev.tx.getHash P ∉ pool.mapTxIndex) then
      let rest := submitPrev P env pool fLimited fCheckInputs vtxPrev
        ((prev.tx.acceptToMemoryPool P env pool mempool (fLimited prev.tx) fCheckInputs).toOption.getD
          mempool)
      (rest.1, prev.tx :: rest.2)
    else submitPrev P env pool fLimited fCheckInputs vtxPrev mempool

/-- `CWalletTx::AcceptWalletTransaction`: the result for the transaction itself, and what was
submitted before it. -/
def CMerkleTx.acceptWalletTransaction (P : Params) (env : ScriptEnv) (pool : PoolView)
    (fLimited : CTransaction → Bool) (fCheckInputs : Bool) (wtx : CMerkleTx)
    (vtxPrev : List CMerkleTx) (mempool : CTxMemPool) :
    AcceptResult CTxMemPool × List CTransaction :=
  let prev := submitPrev P env pool fLimited fCheckInputs vtxPrev mempool
  (wtx.tx.acceptToMemoryPool P env pool prev.1 (fLimited wtx.tx) fCheckInputs, prev.2)

/-- What is submitted stands in `vtxPrev`, in this order. -/
theorem submitPrev_sublist (P : Params) (env : ScriptEnv) (pool : PoolView)
    (fLimited : CTransaction → Bool) (fCheckInputs : Bool) (vtxPrev : List CMerkleTx)
    (mempool : CTxMemPool) :
    (submitPrev P env pool fLimited fCheckInputs vtxPrev mempool).2.Sublist
      (vtxPrev.map CMerkleTx.tx) := by
  induction vtxPrev generalizing mempool with
  | nil => exact .slnil
  | cons prev vtxPrev ih =>
    rw [submitPrev]
    split_ifs
    · exact (ih _).cons_cons _
    · exact (ih _).cons _

/-! ## The order -/

/-- Every transaction comes after those it spends. -/
def InOrder (P : Params) (txs : List CTransaction) : Prop :=
  txs.Pairwise fun first later => later.getHash P ∉ first.prevHashes

namespace SupportView

variable {P : Params} (v : SupportView P)

/-- `AddSupportingTransactions` lists no transaction twice and each after those it spends, and
`AcceptWalletTransaction` submits none before one that it spends. -/
structure SupportsInOrder (wtx : CMerkleTx) : Prop where
  nodup : ((v.addSupportingTransactions wtx).2.map fun prev => prev.tx.getHash P).Nodup
  sorted : InOrder P ((v.addSupportingTransactions wtx).2.map CMerkleTx.tx)
  submitted : ∀ env pool fLimited fCheckInputs mempool,
    InOrder P (wtx.acceptWalletTransaction P env pool fLimited fCheckInputs
      (v.addSupportingTransactions wtx).2 mempool).2

/-- In the ancestry, the first chain to a transaction comes before the first chain to another one
that it spends. -/
def ParentsLater (tx : CTransaction) (find : Uint256 → Option CTransaction) : Prop :=
  ∀ p q prev hash, (v.ancestry tx).First find p prev → (v.ancestry tx).First find q hash →
    prev ≠ hash → ∀ prevTx childTx, find prev = some prevTx → find hash = some childTx →
      prev ∈ childTx.prevHashes → Before q p

variable {v}

/-- The search of a transaction that is not deep, as a tour of its ancestry. -/
theorem exists_tour {wtx : CMerkleTx} (hdepth : v.depth wtx.tx < copyDepth) :
    ∃ F, (v.ancestry wtx.tx).IsTour F ∧
      (v.addSupportingTransactions wtx).2.map CMerkleTx.tx = (F.filterMap Stop.found).reverse := by
  obtain ⟨htx, hdepth'⟩ := v.setMerkleBranch_spec wtx
  have hstart : v.Tracks ⟨∅, ∅, []⟩ [] := by
    refine ⟨fun hash => ?_, rfl, fun hash tx h => ?_, fun hash prev h => ?_⟩
    · simp [Search.nodesOf]
    · cases h
    · obtain ⟨k, ⟨stop, hstop, -⟩, -⟩ := h
      cases hstop
  obtain ⟨F, hrun, htracks⟩ := hstart.run wtx.tx wtx.tx.prevHashes ⟨∅, ∅, []⟩
    (Search.numbered [] wtx.tx.prevHashes) (Search.map_snd_numbered _ _)
  refine ⟨F, hrun, ?_⟩
  unfold addSupportingTransactions
  dsimp only
  rw [hdepth', if_pos hdepth, htx, List.map_reverse, htracks.vtxPrev]

theorem supportsInOrder_of_sorted {wtx : CMerkleTx}
    (hnodup : ((v.addSupportingTransactions wtx).2.map fun prev => prev.tx.getHash P).Nodup)
    (hsorted : InOrder P ((v.addSupportingTransactions wtx).2.map CMerkleTx.tx)) :
    v.SupportsInOrder wtx :=
  ⟨hnodup, hsorted, fun env pool fLimited fCheckInputs mempool =>
    hsorted.sublist (submitPrev_sublist P env pool fLimited fCheckInputs _ mempool)⟩

/-- A deep transaction gets no supporting transactions. -/
theorem supportsInOrder_of_deep {wtx : CMerkleTx} (hdepth : copyDepth ≤ v.depth wtx.tx) :
    v.SupportsInOrder wtx := by
  have hnil : (v.addSupportingTransactions wtx).2 = [] := by
    unfold addSupportingTransactions
    dsimp only
    rw [(v.setMerkleBranch_spec wtx).2, if_neg (not_lt.mpr hdepth), List.reverse_nil]
  refine supportsInOrder_of_sorted ?_ ?_
  · rw [hnil]
    exact List.nodup_nil
  · rw [hnil]
    exact .nil

section Explored

variable {tx : CTransaction} {find : Uint256 → Option CTransaction}
  {F : List (Stop Uint256 CTransaction)}

/-- What is found at a stop has the hash of the stop. -/
theorem getHash_of_stop (hfind : (v.ancestry tx).Finds find)
    (E : (v.ancestry tx).Explored find [] F) {stop : Stop Uint256 CTransaction} (hstop : stop ∈ F)
    {found : CTransaction} (hfound : stop.found = some found) : found.getHash P = stop.node := by
  rw [E.found stop hstop, hfind _ _ (E.first stop hstop)] at hfound
  exact v.getHash_of_lookAfter hfound

theorem map_getHash_sublist {F : List (Stop Uint256 CTransaction)}
    (h : ∀ stop ∈ F, ∀ found, stop.found = some found → found.getHash P = stop.node) :
    ((F.filterMap Stop.found).map (·.getHash P)).Sublist (F.map Stop.node) := by
  induction F with
  | nil => exact .slnil
  | cons stop F ih =>
    have hrest := ih fun stop' hstop' => h stop' (List.mem_cons_of_mem _ hstop')
    cases hfound : stop.found with
    | none =>
      rw [List.filterMap_cons_none hfound]
      exact hrest.cons _
    | some found =>
      rw [List.filterMap_cons_some hfound, List.map_cons, List.map_cons,
        h stop (List.mem_cons_self ..) found hfound]
      exact hrest.cons_cons _

/-- **No transaction is found twice.** -/
theorem nodup_found (hfind : (v.ancestry tx).Finds find)
    (E : (v.ancestry tx).Explored find [] F) (hnodup : (F.map Stop.node).Nodup) :
    ((F.filterMap Stop.found).map (·.getHash P)).Nodup :=
  hnodup.sublist (map_getHash_sublist fun _ hstop _ hfound => getHash_of_stop hfind E hstop hfound)

/-- **The reversed list of what is found is in order** exactly when the parents are found later. -/
theorem inOrder_reverse_iff (hfind : (v.ancestry tx).Finds find)
    (E : (v.ancestry tx).Explored find [] F) :
    InOrder P (F.filterMap Stop.found).reverse ↔ v.ParentsLater tx find := by
  rw [InOrder, List.pairwise_reverse, List.pairwise_filterMap]
  constructor
  · intro h p q prev hash hp hq hne prevTx childTx hprev hchild hspends
    rcases lt_trichotomy (rank q) (rank p) with hlt | heq | hlt
    · exact hlt
    · rw [rank_injective heq] at hq
      exact absurd (hp.1.unique hq.1) hne
    · have hprevStop := E.mem_iff.mpr hp
      have hnot := E.rel_of_before h hprevStop (E.mem_iff.mpr hq) hlt prevTx hprev childTx hchild
      rw [getHash_of_stop hfind E hprevStop hprev] at hnot
      exact absurd hspends hnot
  · intro h
    have hsorted := E.sorted
    rw [List.map_nil, List.append_nil, List.pairwise_map] at hsorted
    refine hsorted.imp_of_mem fun {stop stop'} hstop hstop' hbefore prevTx hprev childTx hchild => ?_
    intro hspends
    rw [getHash_of_stop hfind E hstop hprev] at hspends
    have hfirst := E.first stop hstop
    have hfirst' := E.first stop' hstop'
    have hne : stop.node ≠ stop'.node := by
      intro heq
      rw [← heq] at hfirst'
      exact hfirst'.2 _ hfirst.1 hbefore
    rw [E.found stop hstop] at hprev
    rw [E.found stop' hstop'] at hchild
    exact lt_asymm hbefore (h _ _ _ _ hfirst hfirst' hne prevTx childTx hprev hchild hspends)

end Explored

/-- **`AddSupportingTransactions` supports a transaction in order** exactly when it is deep, or the
first chain of inputs to each supporting transaction comes before those to the ones it spends. -/
theorem supportsInOrder_iff (v : SupportView P) (wtx : CMerkleTx) :
    v.SupportsInOrder wtx ↔ copyDepth ≤ v.depth wtx.tx ∨
      ∃ find, (v.ancestry wtx.tx).Finds find ∧ v.ParentsLater wtx.tx find := by
  by_cases hdepth : copyDepth ≤ v.depth wtx.tx
  · exact iff_of_true (supportsInOrder_of_deep hdepth) (.inl hdepth)
  · obtain ⟨F, htour, hlisted⟩ := exists_tour (not_le.mp hdepth)
    constructor
    · intro h
      obtain ⟨find, hfind⟩ := htour.exists_finds
      have hsorted := h.sorted
      rw [hlisted] at hsorted
      exact .inr ⟨find, hfind, (inOrder_reverse_iff hfind (htour.explored hfind)).mp hsorted⟩
    · rintro (hdeep | ⟨find, hfind, hlater⟩)
      · exact absurd hdeep hdepth
      · have E := htour.explored hfind
        have hnodup := nodup_found hfind E (Search.Run.nodup htour List.nodup_nil)
        refine supportsInOrder_of_sorted ?_ ?_
        · have hmap : (v.addSupportingTransactions wtx).2.map (fun prev => prev.tx.getHash P) =
              ((v.addSupportingTransactions wtx).2.map CMerkleTx.tx).map (·.getHash P) := by
            rw [List.map_map]
            rfl
          rw [hmap, hlisted, List.map_reverse]
          exact List.nodup_reverse.mpr hnodup
        · rw [hlisted]
          exact (inOrder_reverse_iff hfind E).mpr hlater

/-! ## A child before its parent -/

/-- A transaction, one that spends it, and one that spends both, the first one first. -/
def exampleParent : CTransaction := exampleTx 1 [⟨exampleHash 9, 0⟩] [5, 5]

def exampleChild : CTransaction := exampleTx 2 [⟨exampleHash 1, 0⟩] [5]

def exampleGrandchild : CTransaction := exampleTx 3 [⟨exampleHash 1, 1⟩, ⟨exampleHash 2, 0⟩] [9]

/-- A wallet with the first two, neither of them in a block. -/
def exampleSupport : SupportView exampleParams where
  node := .empty []
  mapWallet := ((∅ : StdMap Uint256 (CMerkleTx × List CMerkleTx)).insert (exampleHash 1)
    (.ofTx exampleParent, [])).insert (exampleHash 2) (.ofTx exampleChild, [])
  wallet_keyed hash wtx h := by
    rw [lookup_insert_eq_ite, lookup_insert_eq_ite] at h
    split_ifs at h with hchild hparent
    · obtain rfl := Option.some.inj h
      exact hchild.symm
    · obtain rfl := Option.some.inj h
      exact hparent.symm
    · cases h
  index_keyed hash txindex tx h := by cases h
  stored_inj hash wtx hash' wtx' h _ prev hprev := by
    rw [lookup_insert_eq_ite, lookup_insert_eq_ite] at h
    split_ifs at h
    · obtain rfl := Option.some.inj h
      cases hprev
    · obtain rfl := Option.some.inj h
      cases hprev
    · cases h

/-- The third transaction gets its parents in the wrong order. -/
theorem exampleSupport_listed :
    (exampleSupport.addSupportingTransactions (.ofTx exampleGrandchild)).2.map CMerkleTx.tx =
      [exampleChild, exampleParent] := by
  have hparent : exampleSupport.findTx ∅ (exampleHash 1) = some (.ofTx exampleParent, ∅) := rfl
  have hchild : exampleSupport.findTx ∅ (exampleHash 2) = some (.ofTx exampleChild, ∅) := rfl
  have hmissing : exampleSupport.findTx ∅ (exampleHash 9) = none := rfl
  have hloop : ((exampleSupport.supportLoop [exampleHash 1, exampleHash 2] ⟨∅, ∅, []⟩).vtxPrev.map
      CMerkleTx.tx) = [exampleParent, exampleChild] := by
    -- the child puts its parent into the worklist again, after the end of the list is fixed
    rw [supportLoop_found (by decide) hparent, if_pos (by decide), List.cons_append,
      supportLoop_found (by decide) hchild, if_pos (by decide)]
    show ((exampleSupport.supportLoop [exampleHash 9, exampleHash 1] _).vtxPrev.map _) = _
    rw [supportLoop_missing (by decide) hmissing, supportLoop_done (by decide), supportLoop]
    rfl
  unfold addSupportingTransactions
  dsimp only
  rw [if_pos (by decide), List.map_reverse]
  exact congrArg List.reverse hloop

/-- Not every transaction is supported in order. -/
theorem not_forall_supportsInOrder :
    ¬ ∀ (v : SupportView exampleParams) (wtx : CMerkleTx), v.SupportsInOrder wtx := by
  intro h
  have hsorted := (h exampleSupport (.ofTx exampleGrandchild)).sorted
  rw [exampleSupport_listed] at hsorted
  exact absurd (List.mem_cons_self ..) ((List.pairwise_cons.mp hsorted).1 _ (List.mem_cons_self ..))

end SupportView

end FoxCoin
