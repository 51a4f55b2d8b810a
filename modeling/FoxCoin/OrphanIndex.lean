import FoxCoin.OrphanTx

/-! # The index of the orphan transactions

`mapOrphanTransactionsByPrev` is the inverse index of `mapOrphanTransactions` after any messages.
But the work loop accesses it with `operator[]`, which leaves an empty bucket for every accepted
transaction that no orphan waits for. -/

namespace FoxCoin

open Checked BackIndex Runs

variable {P : Params} {env : ScriptEnv} {e : TxEvent} {o : OrphanTxs} {s : RelayState}
  {hash : Uint256} {vMsg : TxMessage}

/-! ## Definitions -/

/-- The stored messages stand under their hash, and the buckets hold exactly the stored messages,
each under the transactions it spends. -/
structure OrphanTxs.Sound (P : Params) (o : OrphanTxs) : Prop where
  hash_eq : ∀ hash vMsg, o.mapOrphanTransactions.lookup hash = some vMsg →
    vMsg.tx.getHash P = hash
  inverse : Inverse TxMessage.prevHashes o.mapOrphanTransactions o.mapOrphanTransactionsByPrev

/-- **The index is exact**: it is the inverse of the map of orphans, no bucket is empty, and so
there are at most as many buckets as the orphans have inputs. -/
structure OrphanTxs.Exact (o : OrphanTxs) : Prop where
  inverse : ∀ hashPrev hash vMsg,
    (bucket o.mapOrphanTransactionsByPrev hashPrev).lookup hash = some vMsg ↔
      o.mapOrphanTransactions.lookup hash = some vMsg ∧
        ∃ txin ∈ vMsg.tx.vin, txin.prevout.hash = hashPrev
  noEmpty : NoEmpty o.mapOrphanTransactionsByPrev
  card_le : o.mapOrphanTransactionsByPrev.keys.card ≤
    (o.mapOrphanTransactions.entries.map fun entry => entry.2.tx.vin.length).sum

/-- Every access of the work loop finds a bucket: an orphan waits for each transaction that the
message brings into the pool. -/
def FindsBuckets (P : Params) (env : ScriptEnv) (s : RelayState) : RelayEvent → Prop
  | .pool _ => True
  | .tx e =>
    match e.vMsg.tx.acceptToMemoryPool P env e.v s.mempool (e.fLimited 0) true with
    | .ok mempool => ∀ hashPrev ∈ (s.work P env e mempool).1.vWorkQueue,
        hashPrev ∈ s.orphans.mapOrphanTransactionsByPrev
    | .error _ => True

theorem OrphanTxs.Sound.exact (h : o.Sound P) (hne : NoEmpty o.mapOrphanTransactionsByPrev) :
    o.Exact := by
  refine ⟨fun hashPrev hash vMsg => ?_, hne, ?_⟩
  · rw [h.inverse hashPrev hash vMsg, TxMessage.prevHashes, List.mem_map]
  · refine (keys_card_le h.inverse hne).trans (le_of_eq ?_)
    simp only [TxMessage.prevHashes, List.length_map]

/-! ## Adding and erasing -/

theorem sound_empty : OrphanTxs.empty.Sound P := by
  refine ⟨fun hash vMsg h => ?_, inverse_empty⟩
  cases h

/-- What `AddOrphanTx` does: nothing, or it adds a new entry. -/
theorem OrphanTxs.addOrphanTx_cases (P : Params) (o : OrphanTxs) (vMsg : TxMessage) :
    (o.addOrphanTx P vMsg).2 = o ∨
      vMsg.tx.getHash P ∉ o.mapOrphanTransactions ∧ vMsg.nSize ≤ 5000 ∧
        (o.addOrphanTx P vMsg).2 =
          ⟨o.mapOrphanTransactions.insert (vMsg.tx.getHash P) vMsg, vMsg.prevHashes.foldl
            (fun byPrev hashPrev => addEntry byPrev hashPrev (vMsg.tx.getHash P) vMsg)
            o.mapOrphanTransactionsByPrev⟩ := by
  rw [addOrphanTx]
  by_cases hmem : vMsg.tx.getHash P ∈ o.mapOrphanTransactions
  · exact .inl (by simp only [if_pos hmem])
  by_cases hsize : 5000 < vMsg.nSize
  · exact .inl (by simp only [if_neg hmem, if_pos hsize])
  · exact .inr ⟨hmem, not_lt.mp hsize, by simp only [if_neg hmem, if_neg hsize]⟩

theorem OrphanTxs.Sound.addOrphanTx (h : o.Sound P) (vMsg : TxMessage) :
    (o.addOrphanTx P vMsg).2.Sound P := by
  rcases o.addOrphanTx_cases P vMsg with hsame | ⟨hmem, -, hadd⟩
  · rwa [hsame]
  · rw [hadd]
    refine ⟨fun hash vMsg' hlookup => ?_, h.inverse.insert hmem⟩
    rw [Overlay.lookup_insert_eq_ite] at hlookup
    by_cases heq : hash = vMsg.tx.getHash P
    · rw [if_pos heq] at hlookup
      cases hlookup
      exact heq.symm
    · rw [if_neg heq] at hlookup
      exact h.hash_eq hash vMsg' hlookup

theorem OrphanTxs.Sound.eraseOrphanTx (h : o.Sound P) (hash : Uint256) :
    (o.eraseOrphanTx hash).Sound P := by
  rw [OrphanTxs.eraseOrphanTx]
  cases hlookup : o.mapOrphanTransactions.lookup hash with
  | none => exact h
  | some vMsg =>
    refine ⟨fun hash' vMsg' hlookup' => ?_, h.inverse.erase hlookup⟩
    rw [Overlay.lookup_erase_eq_ite] at hlookup'
    by_cases heq : hash' = hash
    · rw [if_pos heq] at hlookup'
      cases hlookup'
    · rw [if_neg heq] at hlookup'
      exact h.hash_eq hash' vMsg' hlookup'

/-- An induction over entries keeps what each entry keeps. -/
theorem noEmpty_foldl {step : Buckets Uint256 Uint256 TxMessage → Uint256 →
      Buckets Uint256 Uint256 TxMessage} (hstep : ∀ idx x, NoEmpty idx → NoEmpty (step idx x))
    {idx : Buckets Uint256 Uint256 TxMessage} (h : NoEmpty idx) (xs : List Uint256) :
    NoEmpty (xs.foldl step idx) :=
  List.foldlRecOn xs step h fun idx hidx x _ => hstep idx x hidx

theorem OrphanTxs.noEmpty_addOrphanTx (h : NoEmpty o.mapOrphanTransactionsByPrev)
    (vMsg : TxMessage) : NoEmpty (o.addOrphanTx P vMsg).2.mapOrphanTransactionsByPrev := by
  rcases o.addOrphanTx_cases P vMsg with hsame | ⟨-, -, hadd⟩
  · rwa [hsame]
  · rw [hadd]
    exact noEmpty_foldl (fun _ _ hidx => hidx.addEntry) h _

theorem OrphanTxs.noEmpty_eraseOrphanTx (h : NoEmpty o.mapOrphanTransactionsByPrev)
    (hash : Uint256) : NoEmpty (o.eraseOrphanTx hash).mapOrphanTransactionsByPrev := by
  rw [OrphanTxs.eraseOrphanTx]
  cases o.mapOrphanTransactions.lookup hash with
  | none => exact h
  | some vMsg => exact noEmpty_foldl (fun _ _ hidx => hidx.dropEntry) h _

/-- **An empty bucket stays**: no stored orphan waits for its transaction, so no erasure looks at
it. -/
theorem OrphanTxs.lookup_eraseOrphanTx_of_empty (h : o.Sound P) {hashPrev : Uint256}
    (hempty : o.mapOrphanTransactionsByPrev.lookup hashPrev = some ∅) (hash : Uint256) :
    (o.eraseOrphanTx hash).mapOrphanTransactionsByPrev.lookup hashPrev = some ∅ := by
  rw [OrphanTxs.eraseOrphanTx]
  cases hlookup : o.mapOrphanTransactions.lookup hash with
  | none => exact hempty
  | some vMsg =>
    have hnotMem : hashPrev ∉ vMsg.prevHashes := by
      intro hmem
      have hentry := (h.inverse hashPrev hash vMsg).mpr ⟨hlookup, hmem⟩
      rw [bucket_eq_of_lookup hempty] at hentry
      cases hentry
    exact (lookup_dropEntries_of_notMem hnotMem).trans hempty

/-- What erasures keep, the loop of `LimitOrphanTxSize` keeps. -/
theorem OrphanTxs.limitLoop_invariant {I : OrphanTxs → Prop}
    (herase : ∀ o hash, I o → I (o.eraseOrphanTx hash)) {nMaxOrphans : ℕ} {randomhash : ℕ → Uint256}
    (n : ℕ) (h : I o) : I (o.limitLoop nMaxOrphans randomhash n) := by
  induction n generalizing o with
  | zero => exact h
  | succ n ih =>
    rw [limitLoop]
    by_cases hcard : nMaxOrphans < o.mapOrphanTransactions.keys.card
    · rw [if_pos hcard]
      cases o.evictee (randomhash n) with
      | none => exact h
      | some hash => exact ih (herase o hash h)
    · rwa [if_neg hcard]

/-! ## The work loop -/

theorem mem_valuesInOrder {V : Type} {m : StdMap Uint256 V} {a : V} :
    a ∈ valuesInOrder m ↔ ∃ k, m.lookup k = some a := by
  simp only [valuesInOrder, List.mem_filterMap, Finset.mem_sort, Finmap.mem_keys]
  constructor
  · rintro ⟨k, -, hk⟩
    exact ⟨k, hk⟩
  · rintro ⟨k, hk⟩
    exact ⟨k, Finmap.mem_of_lookup_eq_some hk, hk⟩

/-- The number of orphans that are not in the pool. -/
def waiting (mapOrphanTransactions : StdMap Uint256 TxMessage) (mempool : CTxMemPool) : ℕ :=
  (mapOrphanTransactions.keys.filter fun hash => hash ∉ mempool.mapTx).card

/-- An orphan that is accepted is in the pool from then on. -/
theorem waiting_addUnchecked {map : StdMap Uint256 TxMessage} {mempool : CTxMemPool}
    {tx : CTransaction} (hmem : hash ∈ map) (hnew : hash ∉ mempool.mapTx) :
    waiting map (mempool.addUnchecked hash tx) + 1 = waiting map mempool := by
  have hfilter : (map.keys.filter fun h => h ∉ (mempool.addUnchecked hash tx).mapTx) =
      (map.keys.filter fun h => h ∉ mempool.mapTx).erase hash := by
    ext h
    simp only [CTxMemPool.addUnchecked, Finset.mem_filter, Finset.mem_erase, Finmap.mem_insert,
      not_or]
    tauto
  rw [waiting, hfilter, Finset.card_erase_add_one]
  · rfl
  · exact Finset.mem_filter.mpr ⟨Finmap.mem_keys.mpr hmem, hnew⟩

/-- One round of the inner loop: the queue grows by the orphans that come into the pool. -/
theorem tryOrphan_queue {map : StdMap Uint256 TxMessage} (st : WorkState)
    (hmem : vMsg.tx.getHash P ∈ map) :
    st.vWorkQueue <+: (tryOrphan P env e st vMsg).vWorkQueue ∧
      (tryOrphan P env e st vMsg).vWorkQueue.length +
        waiting map (tryOrphan P env e st vMsg).mempool =
          st.vWorkQueue.length + waiting map st.mempool := by
  rw [tryOrphan]
  cases haccept : vMsg.tx.acceptToMemoryPool P env e.v st.mempool (e.fLimited st.nCalls) true with
  | error r => exact ⟨List.prefix_rfl, rfl⟩
  | ok mempool =>
    obtain ⟨-, hadmits, -, rfl⟩ := acceptToMemoryPool_eq_ok.mp haccept
    have := @waiting_addUnchecked _ _ _ vMsg.tx hmem hadmits.hash_notMem
    refine ⟨List.prefix_append _ _, ?_⟩
    simp only [List.length_append, List.length_singleton]
    omega

/-- The inner loop. -/
theorem foldl_tryOrphan_queue {map : StdMap Uint256 TxMessage} (st : WorkState)
    {vMsgs : List TxMessage} (hmem : ∀ vMsg ∈ vMsgs, vMsg.tx.getHash P ∈ map) :
    st.vWorkQueue <+: (vMsgs.foldl (tryOrphan P env e) st).vWorkQueue ∧
      (vMsgs.foldl (tryOrphan P env e) st).vWorkQueue.length +
        waiting map (vMsgs.foldl (tryOrphan P env e) st).mempool =
          st.vWorkQueue.length + waiting map st.mempool := by
  induction vMsgs generalizing st with
  | nil => exact ⟨List.prefix_rfl, rfl⟩
  | cons vMsg vMsgs ih =>
    obtain ⟨hgrows, hlength⟩ := ih (tryOrphan P env e st vMsg) fun m hm =>
      hmem m (List.mem_cons_of_mem vMsg hm)
    obtain ⟨hgrows1, hlength1⟩ := @tryOrphan_queue P env e _ map st (hmem vMsg List.mem_cons_self)
    exact ⟨hgrows1.trans hgrows, hlength.trans hlength1⟩

/-- **The outer loop** accesses the buckets of the places it goes through, and no others. -/
theorem workLoop_spec {map : StdMap Uint256 TxMessage}
    (hkeyed : ∀ hash vMsg, map.lookup hash = some vMsg → vMsg.tx.getHash P = hash) (nFuel i : ℕ)
    (st : WorkState) (byPrev : Buckets Uint256 Uint256 TxMessage)
    (hinverse : Inverse TxMessage.prevHashes map byPrev) :
    let final := workLoop P env e nFuel i (st, byPrev)
    st.vWorkQueue <+: final.1.vWorkQueue ∧
      final.1.vWorkQueue.length + waiting map final.1.mempool =
        st.vWorkQueue.length + waiting map st.mempool ∧
      final.2 = ((final.1.vWorkQueue.drop i).take nFuel).foldl touch byPrev := by
  induction nFuel generalizing i st byPrev with
  | zero => exact ⟨List.prefix_rfl, rfl, rfl⟩
  | succ nFuel ih =>
    intro final
    cases hget : st.vWorkQueue[i]? with
    | none =>
      have hfinal : final = (st, byPrev) := by
        simp only [final, workLoop, hget]
      rw [hfinal]
      refine ⟨List.prefix_rfl, rfl, ?_⟩
      rw [List.drop_eq_nil_of_le (List.getElem?_eq_none_iff.mp hget)]
      rfl
    | some hashPrev =>
      set st1 := (valuesInOrder (bucket byPrev hashPrev)).foldl (tryOrphan P env e) st with hst1
      have hfinal : final = workLoop P env e nFuel (i + 1) (st1, touch byPrev hashPrev) := by
        simp only [final, workLoop, hget, hst1]
      have hinner : st.vWorkQueue <+: st1.vWorkQueue ∧
          st1.vWorkQueue.length + waiting map st1.mempool =
            st.vWorkQueue.length + waiting map st.mempool := by
        refine foldl_tryOrphan_queue st fun vMsg hvMsg => ?_
        obtain ⟨k, hk⟩ := mem_valuesInOrder.mp hvMsg
        have hstored := ((hinverse hashPrev k vMsg).mp hk).1
        rw [hkeyed k vMsg hstored]
        exact Finmap.mem_of_lookup_eq_some hstored
      obtain ⟨hgrows, hlength, htouch⟩ := ih (i + 1) st1 (touch byPrev hashPrev)
        (inverse_touch hinverse)
      rw [← hfinal] at hgrows hlength htouch
      have hgrows' := hinner.1.trans hgrows
      refine ⟨hgrows', hlength.trans hinner.2, ?_⟩
      -- the hash at place `i` is still there at the end
      obtain ⟨hi, hhash⟩ := List.getElem?_eq_some_iff.mp hget
      have hi' : i < final.1.vWorkQueue.length := hi.trans_le hgrows'.length_le
      have hhash' : final.1.vWorkQueue[i] = hashPrev := by
        rw [← hhash]
        exact (hgrows'.getElem hi).symm
      rw [List.drop_eq_getElem_cons hi', hhash', List.take_succ_cons, List.foldl_cons]
      exact htouch

/-- **The whole queue is processed**, and every hash of it is looked up. -/
theorem RelayState.work_spec (h : s.orphans.Sound P) {mempool : CTxMemPool} :
    e.vMsg.tx.getHash P ∈ (s.work P env e mempool).1.vWorkQueue ∧
      (s.work P env e mempool).1.vWorkQueue.length ≤
        s.orphans.mapOrphanTransactions.keys.card + 1 ∧
      (s.work P env e mempool).2 = (s.work P env e mempool).1.vWorkQueue.foldl touch
        s.orphans.mapOrphanTransactionsByPrev := by
  obtain ⟨hgrows, hlength, htouch⟩ := @workLoop_spec P env e _ h.hash_eq
    (s.orphans.mapOrphanTransactions.keys.card + 1) 0
    ⟨mempool, [e.vMsg.tx.getHash P], [e.vMsg.tx.getHash P], 1⟩ _ h.inverse
  have hwaiting : waiting s.orphans.mapOrphanTransactions mempool ≤
      s.orphans.mapOrphanTransactions.keys.card := Finset.card_filter_le _ _
  have hle : (s.work P env e mempool).1.vWorkQueue.length ≤
      s.orphans.mapOrphanTransactions.keys.card + 1 := by
    have hlength' : (s.work P env e mempool).1.vWorkQueue.length + _ =
      1 + waiting s.orphans.mapOrphanTransactions mempool := hlength
    omega
  refine ⟨hgrows.subset (List.mem_singleton_self _), hle, ?_⟩
  rw [List.drop_zero] at htouch
  exact htouch.trans (congrArg _ (List.take_of_length_le hle))

/-! ## Messages -/

/-- Looking up buckets that are there changes nothing. -/
theorem foldl_touch_of_mem {idx : Buckets Uint256 Uint256 TxMessage} {xs : List Uint256}
    (h : ∀ x ∈ xs, x ∈ idx) : xs.foldl touch idx = idx := by
  induction xs with
  | nil => rfl
  | cons x xs ih =>
    rw [List.foldl_cons, touch, if_pos (h x List.mem_cons_self)]
    exact ih fun y hy => h y (List.mem_cons_of_mem x hy)

theorem inverse_foldl_touch {map : StdMap Uint256 TxMessage}
    {idx : Buckets Uint256 Uint256 TxMessage} (h : Inverse TxMessage.prevHashes map idx)
    (xs : List Uint256) : Inverse TxMessage.prevHashes map (xs.foldl touch idx) :=
  List.foldlRecOn xs touch h fun _ hidx _ _ => inverse_touch hidx

/-- A bucket that is accessed and was not there is empty. -/
theorem lookup_foldl_touch_of_notMem {idx : Buckets Uint256 Uint256 TxMessage} {xs : List Uint256}
    {x : Uint256} (hmem : x ∈ xs) (hx : x ∉ idx) : (xs.foldl touch idx).lookup x = some ∅ := by
  have hkeep : ∀ (ys : List Uint256) (idx : Buckets Uint256 Uint256 TxMessage),
      idx.lookup x = some ∅ → (ys.foldl touch idx).lookup x = some ∅ := by
    intro ys
    induction ys with
    | nil => exact fun _ h => h
    | cons y ys ih =>
      intro idx h
      refine ih (touch idx y) ?_
      rw [touch]
      by_cases hy : y ∈ idx
      · rwa [if_pos hy]
      · rw [if_neg hy, Finmap.lookup_insert_of_ne]
        · exact h
        · rintro rfl
          exact hy (Finmap.mem_of_lookup_eq_some h)
  induction xs generalizing idx with
  | nil => cases hmem
  | cons y xs ih =>
    rw [List.foldl_cons]
    by_cases hxy : x = y
    · subst hxy
      refine hkeep xs _ ?_
      rw [touch, if_neg hx, Finmap.lookup_insert]
    · refine ih ((List.mem_cons.mp hmem).resolve_left hxy) ?_
      rw [touch]
      split_ifs
      · exact hx
      · rw [Finmap.mem_insert]
        exact not_or.mpr ⟨hxy, hx⟩

/-- The orphans after the erasures that end a message. -/
theorem OrphanTxs.foldl_eraseOrphanTx_invariant {I : OrphanTxs → Prop}
    (herase : ∀ o hash, I o → I (o.eraseOrphanTx hash)) (h : I o) (hashes : List Uint256) :
    I (hashes.foldl OrphanTxs.eraseOrphanTx o) :=
  List.foldlRecOn hashes OrphanTxs.eraseOrphanTx h fun o ho hash _ => herase o hash ho

/-- **Every message keeps the index an inverse.** -/
theorem RelayState.sound_processTx (h : s.orphans.Sound P) :
    (s.processTx P env e).1.orphans.Sound P := by
  rw [processTx]
  split
  · rename_i mempool haccept
    refine OrphanTxs.foldl_eraseOrphanTx_invariant (fun _ hash ho => ho.eraseOrphanTx hash) ?_ _
    refine ⟨h.hash_eq, ?_⟩
    rw [(work_spec h).2.2]
    exact inverse_foldl_touch h.inverse _
  · exact OrphanTxs.limitLoop_invariant (fun _ hash ho => ho.eraseOrphanTx hash) _
      (h.addOrphanTx e.vMsg)
  · exact h

/-- **A message leaves no empty bucket exactly when its accesses find one.** -/
theorem RelayState.noEmpty_processTx_iff (h : s.orphans.Sound P)
    (hne : NoEmpty s.orphans.mapOrphanTransactionsByPrev) :
    NoEmpty (s.processTx P env e).1.orphans.mapOrphanTransactionsByPrev ↔
      FindsBuckets P env s (.tx e) := by
  rw [processTx, FindsBuckets]
  split
  · rename_i mempool haccept
    simp only [haccept]
    set final := s.work P env e mempool
    have htouch : final.2 = final.1.vWorkQueue.foldl touch s.orphans.mapOrphanTransactionsByPrev :=
      (work_spec h).2.2
    constructor
    · intro hafter hashPrev hmem
      by_contra hnotMem
      have hempty : final.2.lookup hashPrev = some ∅ := by
        rw [htouch]
        exact lookup_foldl_touch_of_notMem hmem hnotMem
      -- the empty bucket survives the erasures
      have hsound : (OrphanTxs.mk s.orphans.mapOrphanTransactions final.2).Sound P :=
        ⟨h.hash_eq, by rw [htouch]; exact inverse_foldl_touch h.inverse _⟩
      have hstays := OrphanTxs.foldl_eraseOrphanTx_invariant
        (I := fun o => o.Sound P ∧ o.mapOrphanTransactionsByPrev.lookup hashPrev = some ∅)
        (fun o hash ho => ⟨ho.1.eraseOrphanTx hash,
          OrphanTxs.lookup_eraseOrphanTx_of_empty ho.1 ho.2 hash⟩) ⟨hsound, hempty⟩
        final.1.vEraseQueue
      exact hafter hashPrev ∅ hstays.2 rfl
    · intro hfinds
      refine OrphanTxs.foldl_eraseOrphanTx_invariant
        (I := fun o => NoEmpty o.mapOrphanTransactionsByPrev)
        (fun _ hash ho => OrphanTxs.noEmpty_eraseOrphanTx ho hash) ?_ _
      rw [htouch, foldl_touch_of_mem hfinds]
      exact hne
  · rename_i r haccept
    simp only [haccept, iff_true]
    exact OrphanTxs.limitLoop_invariant (I := fun o => NoEmpty o.mapOrphanTransactionsByPrev)
      (fun _ hash ho => OrphanTxs.noEmpty_eraseOrphanTx ho hash) _
      (OrphanTxs.noEmpty_addOrphanTx hne e.vMsg)
  · rename_i r haccept
    simp only [haccept, iff_true]
    exact hne

/-! ## Runs -/

/-- **In any run the index is an inverse index.** -/
theorem sound_of_reachable (h : Reachable (relaySystem P env) s) : s.orphans.Sound P := by
  refine h.invariant (I := fun s => s.orphans.Sound P) (fun s hs => ?_) fun s ev hs _ _ => ?_
  · rw [show s.orphans = .empty from hs]
    exact sound_empty
  · cases ev with
    | tx e => exact RelayState.sound_processTx hs
    | pool op => exact hs

/-- **The index of the orphans is exact as long as every access finds a bucket**: in every run whose
messages all meet this it is exact, and the next message leaves it exact only if it meets this as
well. In any run at all it is an inverse index. -/
theorem orphans_exact_of_reaches :
    (∀ s, Reaches (relaySystem P env) (FindsBuckets P env) s →
      s.orphans.Exact ∧
        ∀ ev, ((relaySystem P env).next s ev).orphans.Exact ↔ FindsBuckets P env s ev) ∧
    ∀ s, Reachable (relaySystem P env) s → ∀ hashPrev hash vMsg,
      (bucket s.orphans.mapOrphanTransactionsByPrev hashPrev).lookup hash = some vMsg ↔
        s.orphans.mapOrphanTransactions.lookup hash = some vMsg ∧
          ∃ txin ∈ vMsg.tx.vin, txin.prevout.hash = hashPrev := by
  have hnext : ∀ s ev, s.orphans.Sound P → NoEmpty s.orphans.mapOrphanTransactionsByPrev →
      (NoEmpty ((relaySystem P env).next s ev).orphans.mapOrphanTransactionsByPrev ↔
        FindsBuckets P env s ev) := by
    intro s ev hsound hne
    cases ev with
    | tx e => exact RelayState.noEmpty_processTx_iff hsound hne
    | pool op => exact ⟨fun _ => trivial, fun _ => hne⟩
  refine ⟨fun s hs => ?_, fun s hs hashPrev hash vMsg => ?_⟩
  · have hsound := sound_of_reachable (hs.mono fun _ _ _ => trivial)
    have hne : NoEmpty s.orphans.mapOrphanTransactionsByPrev := by
      have := hs.invariant (I := fun s => s.orphans.Sound P ∧
        NoEmpty s.orphans.mapOrphanTransactionsByPrev) (fun s hs => ?_) fun s ev hs _ hok => ?_
      · exact this.2
      · rw [show s.orphans = .empty from hs]
        exact ⟨sound_empty, noEmpty_empty⟩
      · refine ⟨?_, (hnext s ev hs.1 hs.2).mpr hok⟩
        cases ev with
        | tx e => exact RelayState.sound_processTx hs.1
        | pool op => exact hs.1
    refine ⟨hsound.exact hne, fun ev => ⟨fun h => (hnext s ev hsound hne).mp h.noEmpty,
      fun h => ?_⟩⟩
    have hsound' := sound_of_reachable
      ((hs.mono fun _ _ _ => trivial).step (e := ev) trivial trivial)
    exact hsound'.exact ((hnext s ev hsound hne).mpr h)
  · rw [(sound_of_reachable hs).inverse hashPrev hash vMsg, TxMessage.prevHashes, List.mem_map]

/-! ## Worked messages -/

/-- A transaction that pays itself from the pool, and one that spends it. -/
def examplePoolTx : CTransaction := exampleTx 1 [⟨5, 0⟩] [coin]

def exampleSpendTx : CTransaction := exampleTx 2 [⟨exampleHash 1, 0⟩] [coin / 2]

/-- The message with the spending transaction, on an empty chain. -/
def exampleTxEvent : TxEvent where
  vMsg := ⟨exampleSpendTx, exampleSpendTx.getSerializeSize, le_rfl⟩
  v := examplePoolView
  fLimited _ := false
  randomhash _ := 0

/-- The node without orphans, and with a pool. -/
def exampleRelay (mempool : CTxMemPool) : RelayState := ⟨mempool, .empty⟩

/-- A transaction that no orphan waits for leaves an empty bucket when it is accepted. -/
theorem not_forall_orphans_exact :
    ¬∀ s, Reachable (relaySystem exampleParams exampleScriptEnv) s → s.orphans.Exact := by
  intro hall
  let s := exampleRelay (CTxMemPool.empty.addUnchecked (exampleHash 1) examplePoolTx)
  have hstart : Reachable (relaySystem exampleParams exampleScriptEnv) s := .start rfl
  have hafter := (hall _ (hstart.step (e := .tx exampleTxEvent) trivial trivial)).noEmpty
  have hfinds : FindsBuckets exampleParams exampleScriptEnv s (.tx exampleTxEvent) :=
    (RelayState.noEmpty_processTx_iff sound_empty noEmpty_empty).mp hafter
  obtain ⟨mempool, haccept⟩ : ∃ mempool, exampleSpendTx.acceptToMemoryPool exampleParams
      exampleScriptEnv examplePoolView s.mempool false true = .ok mempool :=
    exists_of_isOk (by decide +kernel)
  rw [FindsBuckets, show exampleTxEvent.vMsg.tx = exampleSpendTx from rfl,
    show exampleTxEvent.v = examplePoolView from rfl,
    show exampleTxEvent.fLimited 0 = false from rfl, haccept] at hfinds
  have hmem := hfinds _ (RelayState.work_spec sound_empty).1
  exact absurd hmem (Finmap.notMem_empty)

/-- The condition holds of a message whose transaction misses its input. -/
theorem orphans_exact_of_reaches_orphan :
    ((relaySystem exampleParams exampleScriptEnv).next (exampleRelay .empty)
      (.tx exampleTxEvent)).orphans.Exact := by
  have hmisses : (exampleSpendTx.acceptToMemoryPool exampleParams exampleScriptEnv examplePoolView
      .empty false true).isOk = false := by
    decide +kernel
  have hfinds : FindsBuckets exampleParams exampleScriptEnv (exampleRelay .empty)
      (.tx exampleTxEvent) := by
    rw [FindsBuckets]
    split
    · rename_i mempool haccept
      have haccept' : exampleSpendTx.acceptToMemoryPool exampleParams exampleScriptEnv
        examplePoolView .empty false true = .ok mempool := haccept
      rw [haccept'] at hmisses
      cases hmisses
    · trivial
  have hreaches : Reaches (relaySystem exampleParams exampleScriptEnv)
      (FindsBuckets exampleParams exampleScriptEnv) (exampleRelay .empty) := .start rfl
  exact ((orphans_exact_of_reaches.1 _ hreaches).2 _).mpr hfinds

end FoxCoin
