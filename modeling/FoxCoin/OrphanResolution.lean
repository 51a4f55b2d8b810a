import FoxCoin.OrphanIndex

/-! # Every order of delivery

Transactions that spend one another may arrive in any order. What arrives before its parents is held
back, and the work loop takes it up again when they are in the pool, however many of them it has to
wait for. -/

namespace FoxCoin

open Checked BackIndex Runs

variable {P : Params} {env : ScriptEnv} {v : PoolView} {mempool mempool' : CTxMemPool}
  {tx : CTransaction} {fLimited : Bool}

/-! ## What acceptance reads of the pool -/

/-- A round of `FetchInputs` reads the pool at the hash of the input. -/
theorem foldlM_fetchInput_congr {vin : List CTxIn} {inputs : MapPrevTx}
    (h : ∀ txin ∈ vin, mempool.mapTx.lookup txin.prevout.hash =
      mempool'.mapTx.lookup txin.prevout.hash) :
    vin.foldlM (fetchInput (v.chainView mempool) v.mapTxIndex ∅ false false) inputs =
      vin.foldlM (fetchInput (v.chainView mempool') v.mapTxIndex ∅ false false) inputs := by
  induction vin generalizing inputs with
  | nil => rfl
  | cons txin vin ih =>
    have hround : fetchInput (v.chainView mempool) v.mapTxIndex ∅ false false inputs txin =
        fetchInput (v.chainView mempool') v.mapTxIndex ∅ false false inputs txin := by
      simp only [fetchInput, fetchFromPool, PoolView.chainView, h txin List.mem_cons_self]
    rw [List.foldlM_cons, List.foldlM_cons, hround]
    congr 1
    funext inputs
    exact ih fun txin' h' => h txin' (List.mem_cons_of_mem txin h')

/-- **The input checks read the pool at the previous transactions only.** -/
theorem checkPoolInputs_congr (h : ∀ txin ∈ tx.vin, mempool.mapTx.lookup txin.prevout.hash =
      mempool'.mapTx.lookup txin.prevout.hash) :
    tx.checkPoolInputs P env v mempool fLimited = tx.checkPoolInputs P env v mempool' fLimited := by
  have hfetch : tx.fetchInputs (v.chainView mempool) v.mapTxIndex ∅ false false =
      tx.fetchInputs (v.chainView mempool') v.mapTxIndex ∅ false false := by
    rw [CTransaction.fetchInputs, CTransaction.fetchInputs, foldlM_fetchInput_congr h]
  rw [CTransaction.checkPoolInputs, CTransaction.checkPoolInputs, hfetch]
  rfl

/-- Outside of a block a failed round of `FetchInputs` means that an input is missing. -/
theorem fetchInput_error {inputs : MapPrevTx} {txin : CTxIn} {r : Reject × Bool} {w : ChainView}
    {txdb : TxIndexMap} (h : fetchInput w txdb ∅ false false inputs txin = .error r) :
    r.2 = false := by
  simp only [fetchInput, Bool.or_self, Bool.false_and, Bool.false_eq_true, if_false] at h
  have hpool : ∀ {r : Reject × Bool}, fetchFromPool w txin.prevout.hash = .error r → r.2 = false := by
    intro r hr
    rw [fetchFromPool] at hr
    split at hr
    · cases hr
      rfl
    · cases hr
  split_ifs at h with hmem
  split at h
  · cases hfrom : fetchFromPool w txin.prevout.hash with
    | error r' =>
      rw [hfrom] at h
      cases h
      exact hpool hfrom
    | ok txPrev =>
      rw [hfrom] at h
      cases h
  · split_ifs at h
    · cases hfrom : fetchFromPool w txin.prevout.hash with
      | error r' =>
        rw [hfrom] at h
        cases h
        exact hpool hfrom
      | ok txPrev =>
        rw [hfrom] at h
        cases h
    · split at h
      · cases h
        rfl
      · cases h

/-- A previous transaction that is nowhere ends `FetchInputs`. -/
theorem foldlM_fetchInput_missing {vin : List CTxIn} {inputs : MapPrevTx} {hash : Uint256}
    (hmem : ∃ txin ∈ vin, txin.prevout.hash = hash) (hinputs : hash ∉ inputs)
    (hindex : hash ∉ v.mapTxIndex) (hpool : hash ∉ mempool.mapTx) :
    ∃ r, vin.foldlM (fetchInput (v.chainView mempool) v.mapTxIndex ∅ false false) inputs =
      .error (r, false) := by
  induction vin generalizing inputs with
  | nil =>
    obtain ⟨txin, h, -⟩ := hmem
    cases h
  | cons txin vin ih =>
    rw [List.foldlM_cons]
    cases hround : fetchInput (v.chainView mempool) v.mapTxIndex ∅ false false inputs txin with
    | error r =>
      obtain ⟨r, fInvalid⟩ := r
      obtain rfl : fInvalid = false := fetchInput_error hround
      exact ⟨r, rfl⟩
    | ok inputs1 =>
      simp only [fetchInput, Bool.or_self, Bool.false_and, Bool.false_eq_true, if_false] at hround
      by_cases hself : txin.prevout.hash = hash
      · -- it is looked for in the index and in the pool
        rw [hself, if_neg hinputs, Finmap.lookup_eq_none.mpr hindex] at hround
        simp only [fetchFromPool, PoolView.chainView, Finmap.lookup_eq_none.mpr hpool] at hround
        cases hround
      · have hinputs1 : hash ∉ inputs1 := by
          have hinsert : ∀ p, inputs.insert txin.prevout.hash p = inputs1 → hash ∉ inputs1 := by
            rintro p rfl
            rw [Finmap.mem_insert]
            exact not_or.mpr ⟨Ne.symm hself, hinputs⟩
          split_ifs at hround
          · cases hround
            exact hinputs
          · split at hround
            · obtain ⟨txPrev, -, hround⟩ := bind_eq_ok.mp hround
              exact hinsert _ (Except.ok.inj hround)
            · split_ifs at hround
              · obtain ⟨txPrev, -, hround⟩ := bind_eq_ok.mp hround
                exact hinsert _ (Except.ok.inj hround)
              · split at hround
                · cases hround
                · exact hinsert _ (Except.ok.inj hround)
        refine ih ?_ hinputs1
        obtain ⟨txin', htxin', heq⟩ := hmem
        rcases List.mem_cons.mp htxin' with rfl | hrest
        · exact absurd heq hself
        · exact ⟨txin', hrest, heq⟩

/-- **A transaction that misses an input is told apart**: it passes every check before the inputs,
and one of its previous transactions is neither in the chain nor in the pool. -/
theorem acceptToMemoryPool_missing (hloose : tx.Loose P) (hadmits : mempool.Admits P tx)
    (hnew : tx.getHash P ∉ v.mapTxIndex) {hash : Uint256}
    (hmem : ∃ txin ∈ tx.vin, txin.prevout.hash = hash) (hindex : hash ∉ v.mapTxIndex)
    (hpool : hash ∉ mempool.mapTx) :
    ∃ r, tx.acceptToMemoryPool P env v mempool fLimited true = .error (r, true) := by
  obtain ⟨r, hfetch⟩ := foldlM_fetchInput_missing hmem (Finmap.notMem_empty) hindex hpool
  have hinputs : tx.checkPoolInputs P env v mempool fLimited = .error (⟨r.nDoS, ""⟩, true) := by
    rw [CTransaction.checkPoolInputs, CTransaction.fetchInputs,
      if_neg (by rw [hloose.not_coinBase]; exact Bool.false_ne_true), hfetch]
    rfl
  refine ⟨⟨r.nDoS, ""⟩, ?_⟩
  have hfree : (tx.vin.all fun txin => decide (txin.prevout ∉ mempool.mapNextTx)) = true :=
    List.all_eq_true.mpr fun txin htxin => decide_eq_true (hadmits.prevout_notMem txin htxin)
  simp only [CTransaction.acceptToMemoryPool, hloose.checkTransaction, hloose.not_coinBase,
    decide_eq_true hloose.nLockTime_le, hloose.standard, decide_eq_true hadmits.hash_notMem, hfree,
    hinputs, decide_eq_false hnew]
  rfl

/-- A transaction that is in the pool is not accepted again, and misses nothing. -/
theorem acceptToMemoryPool_again (hloose : tx.Loose P) (hmem : tx.getHash P ∈ mempool.mapTx) :
    tx.acceptToMemoryPool P env v mempool fLimited true = .error (⟨0, ""⟩, false) := by
  simp only [CTransaction.acceptToMemoryPool, hloose.checkTransaction, hloose.not_coinBase,
    decide_eq_true hloose.nLockTime_le, hloose.standard, decide_eq_false (not_not.mpr hmem)]
  rfl

/-! ## The pool while the transactions arrive -/

/-- The messages of a list that a message spends from. -/
def TxMessage.parents (P : Params) (msgs : List TxMessage) (m : TxMessage) : List TxMessage :=
  msgs.filter fun p => decide (p.tx.getHash P ∈ m.prevHashes)

/-- The pool after transactions are added to it without checks. -/
def CTxMemPool.addAll (P : Params) (mempool : CTxMemPool) (msgs : List TxMessage) : CTxMemPool :=
  msgs.foldl (fun mempool m => mempool.addUnchecked (m.tx.getHash P) m.tx) mempool

/-- Messages that conflict with no message of a list. -/
def TxMessage.Apart (P : Params) (msgs : List TxMessage) (x : TxMessage) : Prop :=
  ∀ m ∈ msgs, m.tx.getHash P ≠ x.tx.getHash P ∧ ∀ o ∈ m.tx.prevouts, o ∉ x.tx.prevouts

/-- **Messages that can be delivered**: their transactions do not conflict with each other or with
an orphan that is there already, they spend one another in no circle, there is room for them among
the orphans, and each is accepted by the pool once its parents are in it. -/
structure Deliverable (P : Params) (env : ScriptEnv) (v : PoolView) (s : RelayState)
    (msgs : List TxMessage) : Prop where
  hash_inj : ∀ m ∈ msgs, ∀ m' ∈ msgs, m.tx.getHash P = m'.tx.getHash P → m = m'
  noConflict : ∀ m ∈ msgs, ∀ m' ∈ msgs, ∀ o ∈ m.tx.prevouts, o ∈ m'.tx.prevouts → m = m'
  apart : ∀ hash x, s.orphans.mapOrphanTransactions.lookup hash = some x → x.Apart P msgs
  acyclic : ∃ rank : TxMessage → ℕ, ∀ m ∈ msgs, ∀ p ∈ m.parents P msgs, rank p < rank m
  nSize_le : ∀ m ∈ msgs, m.nSize ≤ 5000
  room : s.orphans.mapOrphanTransactions.keys.card + msgs.length ≤ maxOrphanTransactions
  accepted : ∀ m ∈ msgs, ∃ mempool, m.tx.acceptToMemoryPool P env v
    (s.mempool.addAll P (m.parents P msgs)) false true = .ok mempool

theorem CTxMemPool.lookup_addUnchecked (mempool : CTxMemPool) (hash h : Uint256)
    (tx : CTransaction) : (mempool.addUnchecked hash tx).mapTx.lookup h =
      if h = hash then some tx else mempool.mapTx.lookup h :=
  Overlay.lookup_insert_eq_ite _ _ _ _

theorem CTxMemPool.mem_mapTx_addUnchecked {hash h : Uint256} :
    h ∈ (mempool.addUnchecked hash tx).mapTx ↔ h = hash ∨ h ∈ mempool.mapTx :=
  Finmap.mem_insert

theorem CTxMemPool.mem_mapNextTx_addUnchecked {hash : Uint256} {o : COutPoint} :
    o ∈ (mempool.addUnchecked hash tx).mapNextTx ↔ o ∈ tx.prevouts ∨ o ∈ mempool.mapNextTx := by
  rw [addUnchecked, foldl_insert_zipIdx]
  exact mem_placeAll

theorem CTxMemPool.lookup_addAll_of_notMem {msgs : List TxMessage} {h : Uint256}
    (hnew : ∀ m ∈ msgs, m.tx.getHash P ≠ h) :
    (mempool.addAll P msgs).mapTx.lookup h = mempool.mapTx.lookup h := by
  induction msgs generalizing mempool with
  | nil => rfl
  | cons m msgs ih =>
    rw [addAll, List.foldl_cons]
    refine (ih fun m' hm' => hnew m' (List.mem_cons_of_mem m hm')).trans ?_
    rw [lookup_addUnchecked, if_neg (Ne.symm (hnew m List.mem_cons_self))]

theorem CTxMemPool.lookup_addAll_of_mem {msgs : List TxMessage} {m : TxMessage} (hm : m ∈ msgs)
    (hinj : ∀ m' ∈ msgs, m'.tx.getHash P = m.tx.getHash P → m' = m) :
    (mempool.addAll P msgs).mapTx.lookup (m.tx.getHash P) = some m.tx := by
  induction msgs generalizing mempool with
  | nil => cases hm
  | cons m' msgs ih =>
    have hinj' : ∀ m'' ∈ msgs, m''.tx.getHash P = m.tx.getHash P → m'' = m := fun m'' h'' =>
      hinj m'' (List.mem_cons_of_mem m' h'')
    rw [addAll, List.foldl_cons]
    by_cases hlater : m ∈ msgs
    · exact ih hlater hinj'
    · obtain rfl := (List.mem_cons.mp hm).resolve_right hlater
      refine (lookup_addAll_of_notMem fun m'' hm'' heq => ?_).trans ?_
      · rw [hinj' m'' hm'' heq] at hm''
        exact hlater hm''
      · rw [lookup_addUnchecked, if_pos rfl]

/-- What is in the pool stays, when others are added. -/
theorem CTxMemPool.mem_mapNextTx_addAll {msgs : List TxMessage} {o : COutPoint}
    (h : o ∈ mempool.mapNextTx) : o ∈ (mempool.addAll P msgs).mapNextTx :=
  List.foldlRecOn (motive := fun mempool : CTxMemPool => o ∈ mempool.mapNextTx) msgs _ h
    fun _ hpool _ _ => mem_mapNextTx_addUnchecked.mpr (.inr hpool)

theorem TxMessage.mem_parents {msgs : List TxMessage} {m p : TxMessage} :
    p ∈ m.parents P msgs ↔ p ∈ msgs ∧ p.tx.getHash P ∈ m.prevHashes := by
  rw [parents, List.mem_filter, decide_eq_true_eq]

/-- **What the pool has become** for the messages, from a pool `M₀`: it holds some of them, the
other transactions that they spend are what they were, and the outpoints that they claim are claimed
by them alone. -/
structure PoolGrown (P : Params) (M₀ : CTxMemPool) (msgs : List TxMessage) (mempool : CTxMemPool) :
    Prop where
  held : ∀ m ∈ msgs, m.tx.getHash P ∈ mempool.mapTx →
    mempool.mapTx.lookup (m.tx.getHash P) = some m.tx
  others : ∀ m ∈ msgs, ∀ h ∈ m.prevHashes, (∀ m' ∈ msgs, m'.tx.getHash P ≠ h) →
    mempool.mapTx.lookup h = M₀.mapTx.lookup h
  claimed : ∀ m ∈ msgs, ∀ o ∈ m.tx.prevouts, o ∈ mempool.mapNextTx →
    o ∈ M₀.mapNextTx ∨ m.tx.getHash P ∈ mempool.mapTx

section Delivery

variable {s : RelayState} {msgs : List TxMessage} {m : TxMessage}

/-- **A message whose parents are in the pool is accepted**, whatever else has come in. -/
theorem Deliverable.accept (h : Deliverable P env v s msgs)
    (hpool : PoolGrown P s.mempool msgs mempool) (hm : m ∈ msgs)
    (hnew : m.tx.getHash P ∉ mempool.mapTx)
    (hparents : ∀ p ∈ m.parents P msgs, p.tx.getHash P ∈ mempool.mapTx) :
    m.tx.acceptToMemoryPool P env v mempool false true =
      .ok (mempool.addUnchecked (m.tx.getHash P) m.tx) := by
  obtain ⟨_, haccept⟩ := h.accepted m hm
  obtain ⟨hloose, hadmits, hchecks, -⟩ := acceptToMemoryPool_eq_ok.mp haccept
  obtain ⟨hchain, hinputs⟩ := hchecks rfl
  refine acceptToMemoryPool_eq_ok.mpr ⟨hloose, ⟨hnew, fun txin htxin hclaim => ?_⟩,
    fun _ => ⟨hchain, ?_⟩, rfl⟩
  · -- the outpoint would have been claimed from the start
    rcases hpool.claimed m hm _ (List.mem_map_of_mem htxin) hclaim with hstart | hin
    · exact hadmits.prevout_notMem txin htxin (CTxMemPool.mem_mapNextTx_addAll hstart)
    · exact hnew hin
  · rw [← hinputs]
    refine checkPoolInputs_congr fun txin htxin => ?_
    have hprev : txin.prevout.hash ∈ m.prevHashes := List.mem_map_of_mem htxin
    by_cases hparent : ∃ p ∈ msgs, p.tx.getHash P = txin.prevout.hash
    · obtain ⟨p, hp, heq⟩ := hparent
      have hmem : p ∈ m.parents P msgs := TxMessage.mem_parents.mpr ⟨hp, heq ▸ hprev⟩
      rw [← heq, hpool.held p hp (hparents p hmem)]
      refine (CTxMemPool.lookup_addAll_of_mem hmem fun p' hp' heq' => ?_).symm
      exact h.hash_inj p' (TxMessage.mem_parents.mp hp').1 p hp heq'
    · have hother : ∀ p ∈ msgs, p.tx.getHash P ≠ txin.prevout.hash := fun p hp heq =>
        hparent ⟨p, hp, heq⟩
      rw [hpool.others m hm _ hprev hother]
      refine (CTxMemPool.lookup_addAll_of_notMem fun p hp => ?_).symm
      exact hother p (TxMessage.mem_parents.mp hp).1

/-- **A message that misses a parent is told to miss an input.** -/
theorem Deliverable.missing (h : Deliverable P env v s msgs)
    (hpool : PoolGrown P s.mempool msgs mempool) (hm : m ∈ msgs)
    (hnew : m.tx.getHash P ∉ mempool.mapTx) {p : TxMessage} (hp : p ∈ m.parents P msgs)
    (hmissing : p.tx.getHash P ∉ mempool.mapTx) :
    ∃ r, m.tx.acceptToMemoryPool P env v mempool false true = .error (r, true) := by
  obtain ⟨_, haccept⟩ := h.accepted m hm
  obtain ⟨hloose, hadmits, hchecks, -⟩ := acceptToMemoryPool_eq_ok.mp haccept
  obtain ⟨hpmem, hprev⟩ := TxMessage.mem_parents.mp hp
  obtain ⟨txin, htxin, heq⟩ := List.mem_map.mp hprev
  -- a parent that can be accepted is not in the chain
  obtain ⟨_, haccept'⟩ := h.accepted p hpmem
  have hchain : p.tx.getHash P ∉ v.mapTxIndex :=
    ((acceptToMemoryPool_eq_ok.mp haccept').2.2.1 rfl).1
  refine acceptToMemoryPool_missing hloose ⟨hnew, fun txin' htxin' hclaim => ?_⟩ (hchecks rfl).1
    ⟨txin, htxin, heq⟩ hchain hmissing
  rcases hpool.claimed m hm _ (List.mem_map_of_mem htxin') hclaim with hstart | hin
  · exact hadmits.prevout_notMem txin' htxin' (CTxMemPool.mem_mapNextTx_addAll hstart)
  · exact hnew hin

theorem Deliverable.notMem_start (h : Deliverable P env v s msgs) (hm : m ∈ msgs) :
    m.tx.getHash P ∉ s.mempool.mapTx := by
  obtain ⟨_, haccept⟩ := h.accepted m hm
  obtain ⟨-, hadmits, -, -⟩ := acceptToMemoryPool_eq_ok.mp haccept
  obtain ⟨rank, hrank⟩ := h.acyclic
  rw [← Finmap.lookup_eq_none, ← CTxMemPool.lookup_addAll_of_notMem, Finmap.lookup_eq_none]
  · exact hadmits.hash_notMem
  · intro p hp heq
    obtain rfl := h.hash_inj p (TxMessage.mem_parents.mp hp).1 m hm heq
    exact lt_irrefl _ (hrank p hm p hp)

theorem Deliverable.poolGrown_start (h : Deliverable P env v s msgs) :
    PoolGrown P s.mempool msgs s.mempool :=
  ⟨fun _ hm hin => absurd hin (h.notMem_start hm), fun _ _ _ _ _ => rfl, fun _ _ _ _ ho => .inl ho⟩

/-- A message that is accepted. -/
theorem Deliverable.poolGrown_add (h : Deliverable P env v s msgs)
    (hpool : PoolGrown P s.mempool msgs mempool) (hm : m ∈ msgs) :
    PoolGrown P s.mempool msgs (mempool.addUnchecked (m.tx.getHash P) m.tx) := by
  refine ⟨fun m' hm' hin => ?_, fun m' hm' hash hprev hother => ?_, fun m' hm' o ho hclaim => ?_⟩
  · rw [CTxMemPool.lookup_addUnchecked]
    by_cases heq : m'.tx.getHash P = m.tx.getHash P
    · rw [if_pos heq, h.hash_inj m' hm' m hm heq]
    · rw [if_neg heq]
      refine hpool.held m' hm' ?_
      exact (Finmap.mem_insert.mp hin).resolve_left heq
  · rw [CTxMemPool.lookup_addUnchecked, if_neg (Ne.symm (hother m hm))]
    exact hpool.others m' hm' hash hprev hother
  · rcases CTxMemPool.mem_mapNextTx_addUnchecked.mp hclaim with hmine | hold
    · obtain rfl := h.noConflict m' hm' m hm o ho hmine
      exact .inr (Finmap.mem_insert.mpr (.inl rfl))
    · exact (hpool.claimed m' hm' o ho hold).imp_right fun hin => Finmap.mem_insert.mpr (.inr hin)

/-- An orphan that has nothing to do with the messages is accepted. -/
theorem Deliverable.poolGrown_other (h : Deliverable P env v s msgs)
    (hpool : PoolGrown P s.mempool msgs mempool) {x : TxMessage} (hx : x.Apart P msgs)
    (hnew : x.tx.getHash P ∉ mempool.mapTx) (hchain : x.tx.getHash P ∉ v.mapTxIndex) :
    PoolGrown P s.mempool msgs (mempool.addUnchecked (x.tx.getHash P) x.tx) := by
  refine ⟨fun m hm hin => ?_, fun m hm hash hprev hother => ?_, fun m hm o ho hclaim => ?_⟩
  · rw [CTxMemPool.lookup_addUnchecked, if_neg (hx m hm).1]
    exact hpool.held m hm ((Finmap.mem_insert.mp hin).resolve_left (hx m hm).1)
  · -- what a message spends is in the chain or was in the pool from the start
    have hne : hash ≠ x.tx.getHash P := by
      rintro rfl
      obtain ⟨_, haccept⟩ := h.accepted m hm
      obtain ⟨hloose, hadmits, hchecks, -⟩ := acceptToMemoryPool_eq_ok.mp haccept
      obtain ⟨txin, htxin, heq⟩ := List.mem_map.mp hprev
      have hstart : x.tx.getHash P ∉ s.mempool.mapTx := by
        rw [← Finmap.lookup_eq_none, ← hpool.others m hm _ hprev hother, Finmap.lookup_eq_none]
        exact hnew
      have hparents : x.tx.getHash P ∉ (s.mempool.addAll P (m.parents P msgs)).mapTx := by
        rw [← Finmap.lookup_eq_none, CTxMemPool.lookup_addAll_of_notMem, Finmap.lookup_eq_none]
        · exact hstart
        · exact fun p hp => hother p (TxMessage.mem_parents.mp hp).1
      obtain ⟨r, herror⟩ := @acceptToMemoryPool_missing P env v _ m.tx false hloose hadmits
        (hchecks rfl).1 _ ⟨txin, htxin, heq⟩ hchain hparents
      rw [herror] at haccept
      cases haccept
    rw [CTxMemPool.lookup_addUnchecked, if_neg hne]
    exact hpool.others m hm hash hprev hother
  · rcases CTxMemPool.mem_mapNextTx_addUnchecked.mp hclaim with hmine | hold
    · exact absurd hmine ((hx m hm).2 o ho)
    · exact (hpool.claimed m hm o ho hold).imp_right fun hin => Finmap.mem_insert.mpr (.inr hin)

/-! ## The work loop -/

/-- The state of the work loop: the pool has grown from the one the loop started with, and the queue
of erasures has just those stored messages that came into the pool. -/
structure Working (P : Params) (M₀ M₁ : CTxMemPool) (msgs : List TxMessage)
    (stored : StdMap Uint256 TxMessage) (st : WorkState) : Prop where
  grown : PoolGrown P M₀ msgs st.mempool
  kept : ∀ h ∈ M₁.mapTx, h ∈ st.mempool.mapTx
  erased : ∀ m ∈ msgs, m.tx.getHash P ∈ stored →
    (m.tx.getHash P ∈ st.vEraseQueue ↔ m.tx.getHash P ∈ st.mempool.mapTx)

/-- A message waits: a parent is not in the pool, or is still to be looked at from place `n` of the
queue on. -/
def WaitsAt (P : Params) (msgs : List TxMessage) (st : WorkState) (n : ℕ) (m : TxMessage) : Prop :=
  ∃ p ∈ m.parents P msgs,
    p.tx.getHash P ∉ st.mempool.mapTx ∨ p.tx.getHash P ∈ st.vWorkQueue.drop n

variable {e : TxEvent} {st : WorkState} {M₁ : CTxMemPool} {stored : StdMap Uint256 TxMessage}
  {n : ℕ}

/-- A message that is not in the pool is accepted or misses an input. -/
theorem Deliverable.accept_or_missing (h : Deliverable P env v s msgs)
    (hpool : PoolGrown P s.mempool msgs mempool) (hm : m ∈ msgs)
    (hnew : m.tx.getHash P ∉ mempool.mapTx) :
    m.tx.acceptToMemoryPool P env v mempool false true =
        .ok (mempool.addUnchecked (m.tx.getHash P) m.tx) ∨
      (∃ p ∈ m.parents P msgs, p.tx.getHash P ∉ mempool.mapTx) ∧
        ∃ r, m.tx.acceptToMemoryPool P env v mempool false true = .error (r, true) := by
  by_cases hparents : ∀ p ∈ m.parents P msgs, p.tx.getHash P ∈ mempool.mapTx
  · exact .inl (h.accept hpool hm hnew hparents)
  · push Not at hparents
    obtain ⟨p, hp, hmissing⟩ := hparents
    exact .inr ⟨⟨p, hp, hmissing⟩, h.missing hpool hm hnew hp hmissing⟩

theorem mem_tryOrphan {hash : Uint256} {x : TxMessage} (hin : hash ∈ st.mempool.mapTx) :
    hash ∈ (tryOrphan P env e st x).mempool.mapTx := by
  rw [tryOrphan]
  split
  · rename_i mempool haccept
    obtain ⟨-, -, -, rfl⟩ := acceptToMemoryPool_eq_ok.mp haccept
    exact Finmap.mem_insert.mpr (.inr hin)
  · exact hin

/-- **One round of the inner loop** keeps the state, and leaves the orphan in the pool or
waiting. -/
theorem Deliverable.tryOrphan (h : Deliverable P env v s msgs) (hv : e.v = v)
    (hfree : ∀ n, e.fLimited n = false) (hst : Working P s.mempool M₁ msgs stored st)
    (hn : n ≤ st.vWorkQueue.length) {x : TxMessage} (hx : x ∈ msgs ∨ x.Apart P msgs) :
    Working P s.mempool M₁ msgs stored (tryOrphan P env e st x) ∧
      n ≤ (FoxCoin.tryOrphan P env e st x).vWorkQueue.length ∧
      (x ∈ msgs → x.tx.getHash P ∉ (FoxCoin.tryOrphan P env e st x).mempool.mapTx →
        WaitsAt P msgs (FoxCoin.tryOrphan P env e st x) n x) ∧
      ∀ m, WaitsAt P msgs st n m → WaitsAt P msgs (FoxCoin.tryOrphan P env e st x) n m := by
  rw [FoxCoin.tryOrphan, hv, hfree]
  cases haccept : x.tx.acceptToMemoryPool P env v st.mempool false true with
  | ok mempool =>
    obtain ⟨-, hadmits, hchecks, rfl⟩ := acceptToMemoryPool_eq_ok.mp haccept
    have hgrown : PoolGrown P s.mempool msgs (st.mempool.addUnchecked (x.tx.getHash P) x.tx) :=
      hx.elim (h.poolGrown_add hst.grown) fun hx =>
        h.poolGrown_other hst.grown hx hadmits.hash_notMem (hchecks rfl).1
    refine ⟨⟨hgrown, fun hash hin => Finmap.mem_insert.mpr (.inr (hst.kept hash hin)),
      fun m hm hstored => ?_⟩, ?_, fun _ hnew => ?_, fun m => ?_⟩
    · rw [List.mem_append, List.mem_singleton, hst.erased m hm hstored, or_comm]
      exact Finmap.mem_insert.symm
    · rw [List.length_append]
      omega
    · exact absurd (Finmap.mem_insert.mpr (.inl rfl)) hnew
    · -- a parent that comes into the pool comes into the queue
      rintro ⟨p, hp, hwaits⟩
      refine ⟨p, hp, ?_⟩
      rw [List.drop_append_of_le_length hn, List.mem_append, List.mem_singleton]
      by_cases heq : p.tx.getHash P = x.tx.getHash P
      · exact .inr (.inr heq)
      · exact hwaits.imp (fun hnew hin => hnew ((Finmap.mem_insert.mp hin).resolve_left heq)) .inl
  | error r =>
    obtain ⟨r, fMissingInputs2⟩ := r
    refine ⟨⟨hst.grown, hst.kept, fun m hm hstored => ?_⟩, hn, fun hmem hnew => ?_, fun m hm => hm⟩
    · cases fMissingInputs2 with
      | true => exact hst.erased m hm hstored
      | false =>
        simp only [Bool.false_eq_true, if_false, List.mem_append, List.mem_singleton,
          hst.erased m hm hstored, or_iff_left_iff_imp]
        intro heq
        -- only a message that is in the pool fails without missing an input
        by_contra hnew
        have hmsg : x ∈ msgs := hx.resolve_right fun hapart => (hapart m hm).1 heq
        rw [heq] at hnew
        rcases h.accept_or_missing hst.grown hmsg hnew with hok | ⟨-, r', hmissing⟩
        · rw [hok] at haccept
          cases haccept
        · rw [hmissing] at haccept
          cases haccept
    · rcases h.accept_or_missing hst.grown hmem hnew with hok | ⟨⟨p, hp, hmissing⟩, -⟩
      · rw [hok] at haccept
        cases haccept
      · exact ⟨p, hp, .inl hmissing⟩

/-- **The inner loop**: what waits, or is to be tried, waits when the loop is over. -/
theorem Deliverable.foldl_tryOrphan (h : Deliverable P env v s msgs) (hv : e.v = v)
    (hfree : ∀ n, e.fLimited n = false) {xs : List TxMessage}
    (hxs : ∀ x ∈ xs, x ∈ msgs ∨ x.Apart P msgs) (hst : Working P s.mempool M₁ msgs stored st)
    (hn : n ≤ st.vWorkQueue.length)
    (hwaits : ∀ m ∈ msgs, m.tx.getHash P ∈ stored → m.tx.getHash P ∉ st.mempool.mapTx →
      WaitsAt P msgs st n m ∨ m ∈ xs) :
    let final := xs.foldl (FoxCoin.tryOrphan P env e) st
    Working P s.mempool M₁ msgs stored final ∧
      ∀ m ∈ msgs, m.tx.getHash P ∈ stored → m.tx.getHash P ∉ final.mempool.mapTx →
        WaitsAt P msgs final n m := by
  induction xs generalizing st with
  | nil =>
    exact ⟨hst, fun m hm hstored hnew => (hwaits m hm hstored hnew).resolve_right List.not_mem_nil⟩
  | cons x xs ih =>
    obtain ⟨hst', hn', hself, hothers⟩ := h.tryOrphan hv hfree hst hn (hxs x List.mem_cons_self)
    refine ih (fun y hy => hxs y (List.mem_cons_of_mem x hy)) hst' hn' fun m hm hstored hnew => ?_
    have hold : m.tx.getHash P ∉ st.mempool.mapTx := fun hin => hnew (mem_tryOrphan hin)
    rcases hwaits m hm hstored hold with hwait | hmem
    · exact .inl (hothers m hwait)
    · rcases List.mem_cons.mp hmem with rfl | hrest
      · exact .inl (hself hm hnew)
      · exact .inr hrest

/-- **The outer loop**: what is stored and not in the pool waits for a parent that is not in the
pool, or that stands in the part of the queue that is left. -/
theorem Deliverable.workLoop (h : Deliverable P env v s msgs) (hv : e.v = v)
    (hfree : ∀ n, e.fLimited n = false)
    (hkeyed : ∀ hash x, stored.lookup hash = some x → x.tx.getHash P = hash)
    (hxs : ∀ hash x, stored.lookup hash = some x → x ∈ msgs ∨ x.Apart P msgs) (nFuel i : ℕ)
    (byPrev : Buckets Uint256 Uint256 TxMessage)
    (hinverse : Inverse TxMessage.prevHashes stored byPrev)
    (hst : Working P s.mempool M₁ msgs stored st)
    (hwaits : ∀ m ∈ msgs, m.tx.getHash P ∈ stored → m.tx.getHash P ∉ st.mempool.mapTx →
      WaitsAt P msgs st i m) :
    let final := (FoxCoin.workLoop P env e nFuel i (st, byPrev)).1
    Working P s.mempool M₁ msgs stored final ∧
      ∀ m ∈ msgs, m.tx.getHash P ∈ stored → m.tx.getHash P ∉ final.mempool.mapTx →
        WaitsAt P msgs final (i + nFuel) m := by
  induction nFuel generalizing i st byPrev with
  | zero => exact ⟨hst, hwaits⟩
  | succ nFuel ih =>
    intro final
    cases hget : st.vWorkQueue[i]? with
    | none =>
      have hfinal : final = st := by
        simp only [final, FoxCoin.workLoop, hget]
      have hlength := List.getElem?_eq_none_iff.mp hget
      rw [hfinal]
      refine ⟨hst, fun m hm hstored hnew => ?_⟩
      obtain ⟨p, hp, hwait⟩ := hwaits m hm hstored hnew
      rw [List.drop_eq_nil_of_le hlength] at hwait
      exact ⟨p, hp, hwait.imp_right fun hin => absurd hin List.not_mem_nil⟩
    | some hashPrev =>
      set st1 := (valuesInOrder (bucket byPrev hashPrev)).foldl (FoxCoin.tryOrphan P env e) st
        with hst1
      have hfinal : final =
          (FoxCoin.workLoop P env e nFuel (i + 1) (st1, touch byPrev hashPrev)).1 := by
        simp only [final, FoxCoin.workLoop, hget, hst1]
      obtain ⟨hi, hhash⟩ := List.getElem?_eq_some_iff.mp hget
      have hbucket : ∀ x ∈ valuesInOrder (bucket byPrev hashPrev), x ∈ msgs ∨ x.Apart P msgs := by
        intro x hx
        obtain ⟨hash, hlookup⟩ := mem_valuesInOrder.mp hx
        exact hxs hash x ((hinverse hashPrev hash x).mp hlookup).1
      have hready : ∀ m ∈ msgs, m.tx.getHash P ∈ stored → m.tx.getHash P ∉ st.mempool.mapTx →
          WaitsAt P msgs st (i + 1) m ∨ m ∈ valuesInOrder (bucket byPrev hashPrev) := by
        intro m hm hstored hnew
        obtain ⟨p, hp, hwait⟩ := hwaits m hm hstored hnew
        rw [List.drop_eq_getElem_cons hi, hhash, List.mem_cons] at hwait
        rcases hwait with hmissing | heq | hlater
        · exact .inl ⟨p, hp, .inl hmissing⟩
        · -- whoever waits for the hash at place `i` is in its bucket
          refine .inr (mem_valuesInOrder.mpr ⟨m.tx.getHash P, ?_⟩)
          rw [hinverse hashPrev (m.tx.getHash P) m]
          obtain ⟨x, hlookup⟩ := Finmap.mem_iff.mp hstored
          have hsame := hkeyed _ x hlookup
          have hmsg : x ∈ msgs := (hxs _ x hlookup).resolve_right fun hapart =>
            (hapart m hm).1 hsame.symm
          obtain rfl := h.hash_inj x hmsg m hm hsame
          exact ⟨hlookup, heq ▸ (TxMessage.mem_parents.mp hp).2⟩
        · exact .inl ⟨p, hp, .inr hlater⟩
      obtain ⟨hst', hwaits'⟩ := h.foldl_tryOrphan hv hfree hbucket hst hi hready
      rw [hfinal, show i + (nFuel + 1) = i + 1 + nFuel by omega]
      exact ih (i + 1) (touch byPrev hashPrev) (inverse_touch hinverse) hst' hwaits'

/-! ## Messages -/

/-- **The state while the messages arrive**: one that has arrived is in the pool or stored, and one
that is stored misses a parent. -/
structure Delivering (P : Params) (s₀ : RelayState) (msgs arrived : List TxMessage) (s : RelayState) :
    Prop where
  grown : PoolGrown P s₀.mempool msgs s.mempool
  sound : s.orphans.Sound P
  stored : ∀ hash x, s.orphans.mapOrphanTransactions.lookup hash = some x →
    x ∈ msgs ∨ x.Apart P msgs
  keys_subset : s.orphans.mapOrphanTransactions.keys ⊆
    s₀.orphans.mapOrphanTransactions.keys ∪ (msgs.map fun m => m.tx.getHash P).toFinset
  waits : ∀ m ∈ msgs, m.tx.getHash P ∈ s.orphans.mapOrphanTransactions →
    m.tx.getHash P ∉ s.mempool.mapTx ∧
      ∃ p ∈ m.parents P msgs, p.tx.getHash P ∉ s.mempool.mapTx
  arrived : ∀ m ∈ arrived, m ∈ msgs ∧ (m.tx.getHash P ∈ s.mempool.mapTx ∨
    m.tx.getHash P ∈ s.orphans.mapOrphanTransactions)

theorem OrphanTxs.lookup_eraseOrphanTx (o : OrphanTxs) (hash h : Uint256) :
    (o.eraseOrphanTx hash).mapOrphanTransactions.lookup h =
      if h = hash then none else o.mapOrphanTransactions.lookup h := by
  rw [eraseOrphanTx]
  cases hlookup : o.mapOrphanTransactions.lookup hash with
  | none =>
    by_cases heq : h = hash
    · rw [if_pos heq, heq, hlookup]
    · rw [if_neg heq]
  | some vMsg => exact Overlay.lookup_erase_eq_ite _ _ _

/-- The orphans that are left after the erasures. -/
theorem OrphanTxs.lookup_foldl_eraseOrphanTx (o : OrphanTxs) (hashes : List Uint256) (h : Uint256) :
    (hashes.foldl eraseOrphanTx o).mapOrphanTransactions.lookup h =
      if h ∈ hashes then none else o.mapOrphanTransactions.lookup h := by
  induction hashes generalizing o with
  | nil => rfl
  | cons hash hashes ih =>
    rw [List.foldl_cons, ih, lookup_eraseOrphanTx]
    by_cases heq : h = hash
    · simp [heq]
    · simp [heq]

variable {s₀ : RelayState} {arrived : List TxMessage}

theorem Delivering.card_le (hs : Delivering P s₀ msgs arrived s) :
    s.orphans.mapOrphanTransactions.keys.card ≤
      s₀.orphans.mapOrphanTransactions.keys.card + msgs.length := by
  refine (Finset.card_le_card hs.keys_subset).trans ((Finset.card_union_le _ _).trans ?_)
  refine Nat.add_le_add_left ((List.toFinset_card_le _).trans ?_) _
  rw [List.length_map]

/-- A message that is accepted, with what the work loop takes up after it. -/
theorem Delivering.accepted (h : Deliverable P env v s₀ msgs) (hv : e.v = v)
    (hfree : ∀ n, e.fLimited n = false) (hs : Delivering P s₀ msgs arrived s)
    (he : e.vMsg ∈ msgs) :
    let mempool := s.mempool.addUnchecked (e.vMsg.tx.getHash P) e.vMsg.tx
    let st := (s.work P env e mempool).1
    Working P s₀.mempool mempool msgs s.orphans.mapOrphanTransactions st ∧
      ∀ m ∈ msgs, m.tx.getHash P ∈ s.orphans.mapOrphanTransactions →
        m.tx.getHash P ∉ st.mempool.mapTx →
          ∃ p ∈ m.parents P msgs, p.tx.getHash P ∉ st.mempool.mapTx := by
  intro mempool st
  have hst : Working P s₀.mempool mempool msgs s.orphans.mapOrphanTransactions
      ⟨mempool, [e.vMsg.tx.getHash P], [e.vMsg.tx.getHash P], 1⟩ := by
    refine ⟨h.poolGrown_add hs.grown he, fun _ hin => hin, fun m hm hstored => ?_⟩
    rw [List.mem_singleton, CTxMemPool.mem_mapTx_addUnchecked]
    exact (or_iff_left (hs.waits m hm hstored).1).symm
  obtain ⟨hst', hwaits⟩ := h.workLoop hv hfree hs.sound.hash_eq hs.stored
    (s.orphans.mapOrphanTransactions.keys.card + 1) 0 s.orphans.mapOrphanTransactionsByPrev
    hs.sound.inverse hst fun m hm hstored _ => by
      obtain ⟨p, hp, hmissing⟩ := (hs.waits m hm hstored).2
      refine ⟨p, hp, ?_⟩
      rw [List.drop_zero, List.mem_singleton, CTxMemPool.mem_mapTx_addUnchecked]
      tauto
  refine ⟨hst', fun m hm hstored hnew => ?_⟩
  -- the queue is processed to its end
  obtain ⟨p, hp, hwait⟩ := hwaits m hm hstored hnew
  have hnil : st.vWorkQueue.drop (s.orphans.mapOrphanTransactions.keys.card + 1) = [] :=
    List.drop_eq_nil_of_le (RelayState.work_spec hs.sound).2.1
  refine ⟨p, hp, hwait.resolve_right fun hin => ?_⟩
  rw [Nat.zero_add] at hin
  exact List.not_mem_nil (hnil ▸ hin)

/-- A message that is accepted leaves the state. -/
theorem Delivering.processTx_ok (h : Deliverable P env v s₀ msgs) (hv : e.v = v)
    (hfree : ∀ n, e.fLimited n = false) (hs : Delivering P s₀ msgs arrived s) (he : e.vMsg ∈ msgs)
    (haccept : e.vMsg.tx.acceptToMemoryPool P env e.v s.mempool (e.fLimited 0) true =
      .ok (s.mempool.addUnchecked (e.vMsg.tx.getHash P) e.vMsg.tx)) :
    Delivering P s₀ msgs (e.vMsg :: arrived) (s.processTx P env e).1 := by
  have hsound : (s.processTx P env e).1.orphans.Sound P := RelayState.sound_processTx hs.sound
  obtain ⟨hst, hwaits⟩ := hs.accepted h hv hfree he
  rw [RelayState.processTx, haccept] at hsound ⊢
  set st := (s.work P env e (s.mempool.addUnchecked (e.vMsg.tx.getHash P) e.vMsg.tx)).1
  have hlookup : ∀ hash, (st.vEraseQueue.foldl OrphanTxs.eraseOrphanTx
      { s.orphans with mapOrphanTransactionsByPrev := (s.work P env e
        (s.mempool.addUnchecked (e.vMsg.tx.getHash P) e.vMsg.tx)).2 }).mapOrphanTransactions.lookup
        hash = if hash ∈ st.vEraseQueue then none else s.orphans.mapOrphanTransactions.lookup hash :=
    fun hash => OrphanTxs.lookup_foldl_eraseOrphanTx _ _ _
  have hmem : ∀ hash, hash ∈ (st.vEraseQueue.foldl OrphanTxs.eraseOrphanTx
      { s.orphans with mapOrphanTransactionsByPrev := (s.work P env e
        (s.mempool.addUnchecked (e.vMsg.tx.getHash P) e.vMsg.tx)).2 }).mapOrphanTransactions ↔
        hash ∉ st.vEraseQueue ∧ hash ∈ s.orphans.mapOrphanTransactions := by
    intro hash
    rw [Finmap.mem_iff, Finmap.mem_iff, hlookup hash]
    by_cases herase : hash ∈ st.vEraseQueue
    · simp [herase]
    · simp [herase]
  refine ⟨hst.grown, hsound, fun hash x hx => ?_, fun hash hin => ?_, fun m hm hin => ?_,
    fun m hm => ?_⟩
  · refine hs.stored hash x ?_
    by_cases herase : hash ∈ st.vEraseQueue
    · rw [hlookup, if_pos herase] at hx
      cases hx
    · rwa [hlookup, if_neg herase] at hx
  · exact hs.keys_subset (Finmap.mem_keys.mpr ((hmem hash).mp (Finmap.mem_keys.mp hin)).2)
  · obtain ⟨herase, hstored⟩ := (hmem _).mp hin
    have hnew := (hst.erased m hm hstored).not.mp herase
    exact ⟨hnew, hwaits m hm hstored hnew⟩
  · rcases List.mem_cons.mp hm with rfl | hold
    · exact ⟨he, .inl (hst.kept _ (CTxMemPool.mem_mapTx_addUnchecked.mpr (.inl rfl)))⟩
    · obtain ⟨hmsg, hpool | hstored⟩ := hs.arrived m hold
      · exact ⟨hmsg, .inl (hst.kept _ (CTxMemPool.mem_mapTx_addUnchecked.mpr (.inr hpool)))⟩
      · refine ⟨hmsg, ?_⟩
        by_cases herase : m.tx.getHash P ∈ st.vEraseQueue
        · exact .inl ((hst.erased m hmsg hstored).mp herase)
        · exact .inr ((hmem _).mpr ⟨herase, hstored⟩)

/-- A message that misses a parent is stored. -/
theorem Delivering.addOrphanTx (h : Deliverable P env v s₀ msgs)
    (hs : Delivering P s₀ msgs arrived s) (hm : m ∈ msgs) (hnew : m.tx.getHash P ∉ s.mempool.mapTx)
    (hmissing : ∃ p ∈ m.parents P msgs, p.tx.getHash P ∉ s.mempool.mapTx) :
    Delivering P s₀ msgs (m :: arrived)
      { s with orphans := (s.orphans.addOrphanTx P m).2 } := by
  have hsound : (s.orphans.addOrphanTx P m).2.Sound P := hs.sound.addOrphanTx m
  by_cases hstored : m.tx.getHash P ∈ s.orphans.mapOrphanTransactions
  · rw [OrphanTxs.addOrphanTx, if_pos hstored]
    refine { hs with arrived := fun m' hm' => ?_ }
    rcases List.mem_cons.mp hm' with rfl | hold
    · exact ⟨hm, .inr hstored⟩
    · exact hs.arrived m' hold
  · rw [OrphanTxs.addOrphanTx, if_neg hstored, if_neg (not_lt.mpr (h.nSize_le m hm))] at hsound ⊢
    refine ⟨hs.grown, hsound, fun hash x hx => ?_, fun hash hin => ?_, fun m' hm' hin => ?_,
      fun m' hm' => ?_⟩
    · rw [Overlay.lookup_insert_eq_ite] at hx
      by_cases heq : hash = m.tx.getHash P
      · rw [if_pos heq] at hx
        cases hx
        exact .inl hm
      · rw [if_neg heq] at hx
        exact hs.stored hash x hx
    · rcases Finmap.mem_insert.mp (Finmap.mem_keys.mp hin) with rfl | hold
      · refine Finset.mem_union_right _ (List.mem_toFinset.mpr ?_)
        exact List.mem_map_of_mem (f := fun m : TxMessage => m.tx.getHash P) hm
      · exact hs.keys_subset (Finmap.mem_keys.mpr hold)
    · rcases Finmap.mem_insert.mp hin with heq | hold
      · obtain rfl := h.hash_inj m' hm' m hm heq
        exact ⟨hnew, hmissing⟩
      · exact hs.waits m' hm' hold
    · rcases List.mem_cons.mp hm' with rfl | hold
      · exact ⟨hm, .inr (Finmap.mem_insert.mpr (.inl rfl))⟩
      · obtain ⟨hmsg, hpool | hin⟩ := hs.arrived m' hold
        · exact ⟨hmsg, .inl hpool⟩
        · exact ⟨hmsg, .inr (Finmap.mem_insert.mpr (.inr hin))⟩

theorem OrphanTxs.limitOrphanTxSize_of_le {o : OrphanTxs} {nMaxOrphans : ℕ}
    (hle : o.mapOrphanTransactions.keys.card ≤ nMaxOrphans) (randomhash : ℕ → Uint256) :
    o.limitOrphanTxSize nMaxOrphans randomhash = o := by
  rw [limitOrphanTxSize]
  cases o.mapOrphanTransactions.keys.card with
  | zero => rfl
  | succ n => rw [limitLoop, if_neg (not_lt.mpr hle)]

/-- **One message**: it is in the pool or stored afterwards. -/
theorem Delivering.processTx (h : Deliverable P env v s₀ msgs) (hv : e.v = v)
    (hfree : ∀ n, e.fLimited n = false) (hs : Delivering P s₀ msgs arrived s)
    (he : e.vMsg ∈ msgs) :
    Delivering P s₀ msgs (e.vMsg :: arrived) (s.processTx P env e).1 := by
  have hresult : e.vMsg.tx.acceptToMemoryPool P env e.v s.mempool (e.fLimited 0) true =
      e.vMsg.tx.acceptToMemoryPool P env v s.mempool false true := by
    rw [hv, hfree]
  by_cases hin : e.vMsg.tx.getHash P ∈ s.mempool.mapTx
  · -- it is in the pool already
    obtain ⟨_, haccept⟩ := h.accepted e.vMsg he
    have hagain := @acceptToMemoryPool_again P env v _ _ false
      (acceptToMemoryPool_eq_ok.mp haccept).1 hin
    rw [RelayState.processTx, hresult, hagain]
    refine { hs with arrived := fun m hm => ?_ }
    rcases List.mem_cons.mp hm with rfl | hold
    · exact ⟨he, .inl hin⟩
    · exact hs.arrived m hold
  · rcases h.accept_or_missing hs.grown he hin with haccept | ⟨hmissing, r, herror⟩
    · exact hs.processTx_ok h hv hfree he (hresult.trans haccept)
    · have hstored := hs.addOrphanTx h he hin hmissing
      rw [RelayState.processTx, hresult, herror]
      rwa [OrphanTxs.limitOrphanTxSize_of_le (hstored.card_le.trans h.room)]

/-- The state before the first message. -/
theorem Deliverable.start (h : Deliverable P env v s msgs) (hsound : s.orphans.Sound P) :
    Delivering P s msgs [] s := by
  have hapart : ∀ m ∈ msgs, m.tx.getHash P ∉ s.orphans.mapOrphanTransactions := by
    intro m hm hin
    obtain ⟨x, hlookup⟩ := Finmap.mem_iff.mp hin
    exact (h.apart _ x hlookup m hm).1 (hsound.hash_eq _ x hlookup).symm
  exact ⟨h.poolGrown_start, hsound, fun hash x hx => .inr (h.apart hash x hx),
    Finset.subset_union_left, fun m hm hin => absurd hin (hapart m hm),
    fun m hm => absurd hm List.not_mem_nil⟩

/-- The state after any messages. -/
theorem Delivering.run (h : Deliverable P env v s₀ msgs) {events : List TxEvent}
    (hevents : ∀ e ∈ events, e.v = v ∧ (∀ n, e.fLimited n = false) ∧ e.vMsg ∈ msgs)
    (hs : Delivering P s₀ msgs arrived s) :
    Delivering P s₀ msgs ((events.map TxEvent.vMsg).reverse ++ arrived)
      ((relaySystem P env).run s (events.map .tx)) := by
  induction events generalizing s arrived with
  | nil => exact hs
  | cons e events ih =>
    obtain ⟨hv, hfree, he⟩ := hevents e List.mem_cons_self
    have hrest := ih (fun e' he' => hevents e' (List.mem_cons_of_mem e he'))
      (hs.processTx h hv hfree he)
    rwa [List.map_cons, List.reverse_cons, List.append_assoc]

/-- **When all have arrived, all are in the pool**: the first one that is stored would wait for one
that is not. -/
theorem Delivering.mem_mempool (h : Deliverable P env v s₀ msgs)
    (hs : Delivering P s₀ msgs arrived s) (hall : ∀ m ∈ msgs, m ∈ arrived) (hm : m ∈ msgs) :
    m.tx.getHash P ∈ s.mempool.mapTx := by
  obtain ⟨rank, hrank⟩ := h.acyclic
  induction hn : rank m using Nat.strong_induction_on generalizing m with
  | _ n ih =>
    subst hn
    rcases (hs.arrived m (hall m hm)).2 with hpool | hstored
    · exact hpool
    · obtain ⟨-, p, hp, hmissing⟩ := hs.waits m hm hstored
      exact absurd (ih (rank p) (hrank m hm p hp) (TxMessage.mem_parents.mp hp).1 rfl) hmissing

/-- **Transactions that can be delivered all end up in the pool, in whatever order and however often
they arrive**, and none of them is left among the orphans. -/
theorem mempool_of_delivered (hreach : Reachable (relaySystem P env) s)
    (h : Deliverable P env v s msgs) (events : List TxEvent)
    (hevents : ∀ e ∈ events, e.v = v ∧ ∀ n, e.fLimited n = false)
    (hdelivered : ∀ m, m ∈ events.map TxEvent.vMsg ↔ m ∈ msgs) :
    let s' := (relaySystem P env).run s (events.map .tx)
    ∀ m ∈ msgs, s'.mempool.mapTx.lookup (m.tx.getHash P) = some m.tx ∧
      m.tx.getHash P ∉ s'.orphans.mapOrphanTransactions := by
  intro s' m hm
  have hs : Delivering P s msgs ((events.map TxEvent.vMsg).reverse ++ []) s' :=
    (h.start (sound_of_reachable hreach)).run h fun e he =>
      ⟨(hevents e he).1, (hevents e he).2, (hdelivered _).mp (List.mem_map_of_mem he)⟩
  have hin : m.tx.getHash P ∈ s'.mempool.mapTx := by
    refine hs.mem_mempool h (fun m' hm' => ?_) hm
    rw [List.append_nil, List.mem_reverse]
    exact (hdelivered m').mpr hm'
  exact ⟨hs.grown.held m hm hin, fun hstored => (hs.waits m hm hstored).1 hin⟩

end Delivery

/-! ## A child before its parent -/

/-- A transaction that spends the one of `exampleTxEvent`. -/
def exampleChildTx : CTransaction := exampleTx 3 [⟨exampleHash 2, 0⟩] [coin / 4]

/-- The message with it. -/
def exampleChildEvent : TxEvent where
  vMsg := ⟨exampleChildTx, exampleChildTx.getSerializeSize, le_rfl⟩
  v := examplePoolView
  fLimited _ := false
  randomhash _ := 0

/-- The node before the messages: the first transaction is in the pool. -/
def exampleDeliveryStart : RelayState :=
  exampleRelay (CTxMemPool.empty.addUnchecked (exampleHash 1) examplePoolTx)

theorem deliverable_example : Deliverable exampleParams exampleScriptEnv examplePoolView
    exampleDeliveryStart [exampleChildEvent.vMsg, exampleTxEvent.vMsg] := by
  have hparents : exampleChildEvent.vMsg.parents exampleParams
      [exampleChildEvent.vMsg, exampleTxEvent.vMsg] = [exampleTxEvent.vMsg] := by
    rfl
  have hnone : exampleTxEvent.vMsg.parents exampleParams
      [exampleChildEvent.vMsg, exampleTxEvent.vMsg] = [] := by
    rfl
  constructor
  · intro m hm m' hm' heq
    rcases List.mem_pair.mp hm with rfl | rfl <;> rcases List.mem_pair.mp hm' with rfl | rfl
    · rfl
    · exact absurd heq (by decide)
    · exact absurd heq (by decide)
    · rfl
  · intro m hm m' hm' o ho ho'
    rcases List.mem_pair.mp hm with rfl | rfl <;> rcases List.mem_pair.mp hm' with rfl | rfl
    · rfl
    · have hapart : ∀ o ∈ exampleChildTx.prevouts, o ∉ exampleSpendTx.prevouts := by decide
      exact absurd ho' (hapart o ho)
    · have hapart : ∀ o ∈ exampleSpendTx.prevouts, o ∉ exampleChildTx.prevouts := by decide
      exact absurd ho' (hapart o ho)
    · rfl
  · intro hash x hx
    cases hx
  · refine ⟨fun m => if m.tx = exampleChildTx then 1 else 0, ?_⟩
    simp only [List.forall_mem_cons, hparents, hnone]
    decide
  · decide
  · decide
  · simp only [List.forall_mem_cons, hparents, hnone]
    refine ⟨exists_of_isOk (by decide +kernel), exists_of_isOk (by decide +kernel), ?_⟩
    exact fun _ h => absurd h List.not_mem_nil

/-- The theorem at the child followed by its parent. -/
theorem mempool_of_delivered_child :
    let s' := (relaySystem exampleParams exampleScriptEnv).run exampleDeliveryStart
      [.tx exampleChildEvent, .tx exampleTxEvent]
    s'.mempool.mapTx.lookup (exampleHash 3) = some exampleChildTx ∧
      exampleHash 3 ∉ s'.orphans.mapOrphanTransactions := by
  have hevents : ∀ e ∈ [exampleChildEvent, exampleTxEvent],
      e.v = examplePoolView ∧ ∀ n, e.fLimited n = false := by
    intro e he
    rcases List.mem_pair.mp he with rfl | rfl
    · exact ⟨rfl, fun _ => rfl⟩
    · exact ⟨rfl, fun _ => rfl⟩
  have hstart : Reachable (relaySystem exampleParams exampleScriptEnv) exampleDeliveryStart :=
    .start rfl
  exact mempool_of_delivered hstart deliverable_example
    [exampleChildEvent, exampleTxEvent] hevents (fun m => Iff.rfl) exampleChildEvent.vMsg
    List.mem_cons_self

end FoxCoin
