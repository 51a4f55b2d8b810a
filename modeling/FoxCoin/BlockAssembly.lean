import FoxCoin.Lib.Dependencies
import FoxCoin.Lib.MultiMap
import FoxCoin.Lib.OrderedMap
import FoxCoin.PoolChain

/-! # Selecting the transactions of a new block

`CreateNewBlock` takes transactions from the memory pool by priority, as long as the block stays
within its limits. A transaction that claims an output which is not on disk is an orphan: it is
queued when all the transactions it depends on have been added to the block. -/

namespace FoxCoin

open Checked

/-- The operations of `double` that priorities are computed with. -/
structure DoubleOps (D : Type) where
  ofInt : ℤ → D
  add : D → D → D
  mul : D → D → D
  div : D → D → D

variable {D : Type}

/-! ## Reading the chain -/

/-- `CTransaction::ReadFromDisk(txdb, prevout, txindex)`: the index entry of the previous
transaction, with the output that is claimed. -/
def NodeState.readPrevOut (s : NodeState) (prevout : COutPoint) : Option (CTxOut × CTxIndex) :=
  (s.txdb.mapTxIndex.lookup prevout.hash).bind fun txindex =>
    (s.files.readTx txindex.pos.nFile txindex.pos.nTxPos).bind fun txPrev =>
      (txPrev.vout[prevout.n]?).map fun txout => (txout, txindex)

/-- `CTxIndex::GetDepthInMainChain`. -/
def CTxIndex.getDepthInMainChain (P : Params) (s : NodeState) (txindex : CTxIndex) : ℤ :=
  match s.files.readBlock P txindex.pos.nFile txindex.pos.nBlockPos with
  | none => 0
  | some block =>
    match s.mapBlockIndex.lookup (block.getHash P) with
    | none => 0
    | some pindex => if s.isInMainChain pindex then 1 + s.nBestHeight - pindex.nHeight else 0

/-! ## Candidates -/

/-- `COrphan`: a transaction, the hashes it still depends on, and its priority. -/
structure COrphan (D : Type) where
  ptx : CTransaction
  setDependsOn : Finset Uint256
  dPriority : D

/-- The variables of the first loop of `CreateNewBlock`. Pointers to orphans are places in the list,
and `mapPriority` lists its elements from the highest priority down. -/
structure Candidates (D : Type) where
  vOrphan : List (COrphan D)
  mapDependers : StdMap Uint256 (List ℕ)
  mapPriority : List (D × CTransaction)

/-- The variables of the loop over the inputs of a transaction. There is an orphan exactly when
`setDependsOn` is not empty. -/
structure InputScan (D : Type) where
  dPriority : D
  setDependsOn : Finset Uint256
  mapDependers : StdMap Uint256 (List ℕ)

/-- `mapDependers[hash]`. -/
def dependers (mapDependers : StdMap Uint256 (List ℕ)) (hash : Uint256) : List ℕ :=
  (mapDependers.lookup hash).getD []

/-- One round of the loop over the inputs; `porphan` is the place of the orphan. -/
def scanInput (O : DoubleOps D) (P : Params) (s : NodeState) (porphan : ℕ) (st : InputScan D)
    (txin : CTxIn) : InputScan D :=
  match s.readPrevOut txin.prevout with
  | none =>
    -- has to wait for dependencies
    { st with
      setDependsOn := insert txin.prevout.hash st.setDependsOn
      mapDependers := st.mapDependers.insert txin.prevout.hash
        (dependers st.mapDependers txin.prevout.hash ++ [porphan]) }
  | some (txout, txindex) =>
    let nConf := txindex.getDepthInMainChain P s
    { st with dPriority := O.add st.dPriority (O.mul (O.ofInt txout.nValue) (O.ofInt nConf)) }

/-- The loop over the inputs of a transaction. -/
def scanInputs (O : DoubleOps D) (P : Params) (s : NodeState) (c : Candidates D)
    (tx : CTransaction) : InputScan D :=
  tx.vin.foldl (scanInput O P s c.vOrphan.length) ⟨O.ofInt 0, ∅, c.mapDependers⟩

variable [LinearOrder D]

/-- Insert to `mapPriority`, whose keys are the negated priorities. -/
def queueTx (dPriority : D) (tx : CTransaction) (mapPriority : List (D × CTransaction)) :
    List (D × CTransaction) :=
  MultiMap.insert (fun entry => OrderDual.toDual entry.1) (dPriority, tx) mapPriority

/-- One round of the first loop of `CreateNewBlock`. -/
def Candidates.addTx (O : DoubleOps D) (P : Params) (s : NodeState) (c : Candidates D)
    (tx : CTransaction) : Candidates D :=
  let st := scanInputs O P s c tx
  -- priority is sum(valuein * age) / txsize
  let dPriority := O.div st.dPriority (O.ofInt tx.getSerializeSize)
  if st.setDependsOn = ∅ then
    ⟨c.vOrphan, st.mapDependers, queueTx dPriority tx c.mapPriority⟩
  else
    ⟨c.vOrphan ++ [⟨tx, st.setDependsOn, dPriority⟩], st.mapDependers, c.mapPriority⟩

/-- The transactions that the first loop does not skip, in the order of the pool. -/
def NodeState.candidateTxs (s : NodeState) (env : Env) : List CTransaction :=
  ((OrderedMap.pairs s.mempool.mapTx).map Prod.snd).filter fun tx =>
    !tx.isCoinBase && tx.isFinal s.nBestHeight env.nAdjustedTime 0 0

/-- The first loop of `CreateNewBlock`. -/
def NodeState.candidates (O : DoubleOps D) (P : Params) (s : NodeState) (env : Env) :
    Candidates D :=
  (s.candidateTxs env).foldl (Candidates.addTx O P s) ⟨[], ∅, []⟩

/-! ## Releasing orphans -/

/-- One round of the loop over the orphans that depend on an added transaction. -/
def releaseOrphan (hash : Uint256) (c : Candidates D) (porphan : ℕ) : Candidates D :=
  match c.vOrphan[porphan]? with
  | none => c
  | some orphan =>
    if orphan.setDependsOn = ∅ then c
    else
      let orphan := { orphan with setDependsOn := orphan.setDependsOn.erase hash }
      { c with
        vOrphan := c.vOrphan.set porphan orphan
        mapPriority := if orphan.setDependsOn = ∅ then
            queueTx orphan.dPriority orphan.ptx c.mapPriority
          else c.mapPriority }

/-- Add the transactions that depend on this one to the priority queue. -/
def Candidates.release (c : Candidates D) (hash : Uint256) : Candidates D :=
  (dependers c.mapDependers hash).foldl (releaseOrphan hash) c

/-! ## The selection -/

/-- The variables of the second loop of `CreateNewBlock`; `vtx` leaves the coinbase out. -/
structure Assembly (D : Type) extends Candidates D where
  mapTestPool : TxIndexMap
  vtx : List CTransaction
  nBlockSize : ℕ
  nBlockSigOps : ℕ
  nFees : ℤ

/-- The variables before the second loop: some room is kept for the header and the coinbase. -/
def Assembly.start (c : Candidates D) : Assembly D := ⟨c, ∅, [], 1000, 100, 0⟩

/-- `CTransaction::AllowFree`. -/
def allowFree (O : DoubleOps D) (dPriority : D) : Bool :=
  decide (O.ofInt (coin * 1440 / 250) < dPriority)

/-- Whether a transaction may be free in a block. -/
def Assembly.fAllowFree (O : DoubleOps D) (st : Assembly D) (dPriority : D) (tx : CTransaction) :
    Bool :=
  decide (st.nBlockSize + tx.getSerializeSize < 1500) || allowFree O dPriority

/-- What a round of the second loop makes of a transaction: the block with the transaction in it, or
nothing when the transaction is passed over. -/
def Assembly.consider (O : DoubleOps D) (P : Params) (s : NodeState) (env : Env) (st : Assembly D)
    (dPriority : D) (tx : CTransaction) : Result (Option (Assembly D)) :=
  let nTxSize := tx.getSerializeSize
  let nTxSigOps := tx.getLegacySigOpCount
  if maxBlockSizeGen ≤ st.nBlockSize + nTxSize then .ok none
  else if maxBlockSigops ≤ st.nBlockSigOps + nTxSigOps then .ok none
  else
    let nMinFee := tx.getMinFee st.nBlockSize (st.fAllowFree O dPriority tx)
    match tx.fetchInputs (s.view env) s.txdb.mapTxIndex st.mapTestPool false true with
    | .error _ => .ok none
    | .ok mapInputs => do
      let nValueIn ← tx.getValueIn mapInputs
      let nValueOut ← tx.getValueOut
      let nTxFees := int64 (nValueIn - nValueOut)
      if nTxFees < nMinFee then pure none
      else
        let nP2SHSigOps ← tx.getP2SHSigOpCount mapInputs
        if maxBlockSigops ≤ st.nBlockSigOps + (nTxSigOps + nP2SHSigOps) then pure none
        else
          match tx.connectInputs P (s.view env) mapInputs st.mapTestPool CDiskTxPos.inMemory
              s.bestWalk false true true with
          | .error _ => pure none
          | .ok mapTestPool =>
            pure (some { st with
              mapTestPool := mapTestPool.insert (tx.getHash P)
                (CTxIndex.ofOutputs CDiskTxPos.inMemory tx.vout.length)
              vtx := st.vtx ++ [tx]
              nBlockSize := st.nBlockSize + nTxSize
              nBlockSigOps := st.nBlockSigOps + (nTxSigOps + nP2SHSigOps)
              nFees := int64 (st.nFees + nTxFees) })

/-- One round of the second loop of `CreateNewBlock`, on the transaction that is taken off the
queue. -/
def Assembly.round (O : DoubleOps D) (P : Params) (s : NodeState) (env : Env) (st : Assembly D)
    (dPriority : D) (tx : CTransaction) : Result (Assembly D) := do
  match ← st.consider O P s env dPriority tx with
  | none => pure st
  | some st' => pure { st' with toCandidates := st'.toCandidates.release (tx.getHash P) }

/-- The second loop of `CreateNewBlock`, for a number of rounds. -/
def Assembly.loop (O : DoubleOps D) (P : Params) (s : NodeState) (env : Env) :
    ℕ → Assembly D → Result (Assembly D)
  | 0, st => .ok st
  | nRounds + 1, st =>
    match st.mapPriority with
    | [] => .ok st
    | (dPriority, tx) :: mapPriority => do
      let st ← Assembly.round O P s env { st with mapPriority } dPriority tx
      Assembly.loop O P s env nRounds st

/-- The transactions that `CreateNewBlock` collects into the block. No transaction is taken twice,
so there are no more rounds than candidates. -/
def NodeState.assemble (O : DoubleOps D) (P : Params) (s : NodeState) (env : Env) :
    Result (Assembly D) :=
  Assembly.loop O P s env (s.candidateTxs env).length (.start (s.candidates O P env))

/-! ## What the first loop finds -/

variable {O : DoubleOps D} {P : Params} {s : NodeState} {env : Env} {tx : CTransaction}
  {c : Candidates D} {hash : Uint256}

/-- The hashes of the outputs a transaction claims that cannot be read from disk. -/
def NodeState.dependencies (s : NodeState) (tx : CTransaction) : Finset Uint256 :=
  ((tx.vin.filter fun txin => (s.readPrevOut txin.prevout).isNone).map
    fun txin => txin.prevout.hash).toFinset

theorem NodeState.mem_dependencies : hash ∈ s.dependencies tx ↔
    ∃ txin ∈ tx.vin, s.readPrevOut txin.prevout = none ∧ txin.prevout.hash = hash := by
  simp [dependencies, and_assoc]

theorem mem_dependers_insert {m : StdMap Uint256 (List ℕ)} {h : Uint256} {i j : ℕ} :
    i ∈ dependers (m.insert h (dependers m h ++ [j])) hash ↔
      i ∈ dependers m hash ∨ hash = h ∧ i = j := by
  by_cases heq : hash = h
  · subst heq
    simp [dependers]
  · simp [dependers, heq]

omit [LinearOrder D] in
/-- The loop over the inputs collects the dependencies, and notes for each of them who waits. -/
theorem foldl_scanInput {porphan : ℕ} (vin : List CTxIn) (st : InputScan D) :
    (∀ hash, hash ∈ (vin.foldl (scanInput O P s porphan) st).setDependsOn ↔
      hash ∈ st.setDependsOn ∨
        ∃ txin ∈ vin, s.readPrevOut txin.prevout = none ∧ txin.prevout.hash = hash) ∧
    ∀ hash i, i ∈ dependers (vin.foldl (scanInput O P s porphan) st).mapDependers hash ↔
      i ∈ dependers st.mapDependers hash ∨ i = porphan ∧
        ∃ txin ∈ vin, s.readPrevOut txin.prevout = none ∧ txin.prevout.hash = hash := by
  induction vin generalizing st with
  | nil => simp
  | cons txin vin ih =>
    obtain ⟨hset, hmap⟩ := ih (scanInput O P s porphan st txin)
    constructor
    · intro hash
      rw [List.foldl_cons, hset]
      cases hread : s.readPrevOut txin.prevout with
      | none =>
        simp only [scanInput, hread, Finset.mem_insert, List.exists_mem_cons_iff, true_and]
        rw [or_comm (a := hash = _), or_assoc, eq_comm (a := hash)]
      | some p => simp [scanInput, hread]
    · intro hash i
      rw [List.foldl_cons, hmap]
      cases hread : s.readPrevOut txin.prevout with
      | none =>
        simp only [scanInput, hread, mem_dependers_insert, List.exists_mem_cons_iff, true_and]
        rw [or_assoc, eq_comm (a := hash)]
        refine or_congr_right ⟨?_, ?_⟩
        · rintro (⟨h, hi⟩ | ⟨hi, h⟩)
          · exact ⟨hi, .inl h⟩
          · exact ⟨hi, .inr h⟩
        · rintro ⟨hi, h | h⟩
          · exact .inl ⟨h, hi⟩
          · exact .inr ⟨hi, h⟩
      | some p => simp [scanInput, hread]

omit [LinearOrder D] in
theorem scanInputs_setDependsOn : (scanInputs O P s c tx).setDependsOn = s.dependencies tx := by
  ext hash
  rw [scanInputs, (foldl_scanInput tx.vin _).1, NodeState.mem_dependencies]
  simp

omit [LinearOrder D] in
theorem mem_dependers_scanInputs {i : ℕ} :
    i ∈ dependers (scanInputs O P s c tx).mapDependers hash ↔
      i ∈ dependers c.mapDependers hash ∨ i = c.vOrphan.length ∧ hash ∈ s.dependencies tx := by
  rw [scanInputs, (foldl_scanInput tx.vin _).2, NodeState.mem_dependencies]

/-- The place of an orphan is noted under every hash it depends on. -/
def Candidates.Indexed (c : Candidates D) : Prop :=
  ∀ i orphan hash, c.vOrphan[i]? = some orphan → hash ∈ orphan.setDependsOn →
    i ∈ dependers c.mapDependers hash

/-- Adding a transaction keeps the places noted. -/
theorem Candidates.Indexed.addTx (h : c.Indexed) (tx : CTransaction) :
    (c.addTx O P s tx).Indexed := by
  intro i orphan hash horphan hmem
  unfold Candidates.addTx at horphan ⊢
  simp only at horphan ⊢
  split at horphan
  next hempty =>
    rw [if_pos hempty]
    exact mem_dependers_scanInputs.mpr (.inl (h i orphan hash horphan hmem))
  next hne =>
    rw [if_neg hne]
    refine mem_dependers_scanInputs.mpr ?_
    rw [scanInputs_setDependsOn] at horphan
    by_cases hi : i < c.vOrphan.length
    · rw [List.getElem?_append_left hi] at horphan
      exact .inl (h i orphan hash horphan hmem)
    · rw [List.getElem?_append_right (Nat.le_of_not_lt hi), List.getElem?_singleton] at horphan
      obtain ⟨hzero, heq⟩ := Option.ite_none_right_eq_some.mp horphan
      cases heq
      exact .inr ⟨by omega, hmem⟩

/-! ## Transactions that wait for others -/

/-- The orphans that still wait, with what they lack. -/
def waitingOrphans (vOrphan : List (COrphan D)) : Multiset (CTransaction × Finset Uint256) :=
  ((vOrphan.filter fun orphan => decide (orphan.setDependsOn ≠ ∅)).map
    fun orphan => (orphan.ptx, orphan.setDependsOn) : List (CTransaction × Finset Uint256))

omit [LinearOrder D] in
theorem waitingOrphans_append (a b : List (COrphan D)) :
    waitingOrphans (a ++ b) = waitingOrphans a + waitingOrphans b := by
  simp [waitingOrphans, List.filter_append]

omit [LinearOrder D] in
theorem waitingOrphans_cons (orphan : COrphan D) (vOrphan : List (COrphan D)) :
    waitingOrphans (orphan :: vOrphan) =
      if orphan.setDependsOn = ∅ then waitingOrphans vOrphan
      else (orphan.ptx, orphan.setDependsOn) ::ₘ waitingOrphans vOrphan := by
  by_cases h : orphan.setDependsOn = ∅ <;> simp [waitingOrphans, h]

/-- The candidates as items that wait for other items, given those that have been taken off the queue
and the hashes of those that are in the block. -/
def Candidates.tracked (c : Candidates D) (taken : Multiset CTransaction) (done : Finset Uint256) :
    Dependencies.State CTransaction Uint256 where
  ready := (c.mapPriority.map Prod.snd : List CTransaction)
  waiting := waitingOrphans c.vOrphan
  taken := taken
  done := done

theorem map_snd_queueTx (dPriority : D) (tx : CTransaction) (mapPriority : List (D × CTransaction)) :
    (((queueTx dPriority tx mapPriority).map Prod.snd : List CTransaction) :
      Multiset CTransaction) = tx ::ₘ (mapPriority.map Prod.snd : List CTransaction) :=
  Multiset.coe_eq_coe.mpr ((MultiMap.insert_perm (dPriority, tx) mapPriority).map Prod.snd)

/-- A transaction is queued when it depends on nothing, and it waits otherwise. -/
theorem Candidates.tracks_addTx {items : Multiset CTransaction}
    (h : Dependencies.Tracks (CTransaction.getHash P) s.dependencies items (c.tracked 0 ∅))
    (tx : CTransaction) :
    Dependencies.Tracks (CTransaction.getHash P) s.dependencies (tx ::ₘ items)
      ((c.addTx O P s tx).tracked 0 ∅) := by
  obtain ⟨heq, hmet, hlack, hdone⟩ := h
  unfold Candidates.addTx
  simp only [scanInputs_setDependsOn]
  split
  next hempty =>
    refine ⟨?_, fun t ht => ?_, hlack, hdone⟩
    · rw [← heq]
      simp only [tracked, map_snd_queueTx, zero_add, Multiset.cons_add]
    · simp only [tracked, map_snd_queueTx, zero_add, Multiset.mem_cons] at ht
      rcases ht with rfl | ht
      · rw [hempty]
        exact Finset.empty_subset _
      · exact hmet t (by simpa only [tracked, zero_add] using ht)
  next hne =>
    have hwait : ∀ d, waitingOrphans (c.vOrphan ++ [⟨tx, s.dependencies tx, d⟩]) =
        (tx, s.dependencies tx) ::ₘ waitingOrphans c.vOrphan := by
      intro d
      rw [waitingOrphans_append, waitingOrphans_cons, if_neg hne, add_comm, Multiset.cons_add]
      simp [waitingOrphans]
    refine ⟨?_, hmet, fun w hw => ?_, hdone⟩
    · rw [← heq]
      simp only [tracked, hwait, Multiset.map_cons, Multiset.add_cons]
    · simp only [tracked, hwait, Multiset.mem_cons] at hw
      rcases hw with rfl | hw
      · exact ⟨hne, Finset.Subset.refl _, by simp⟩
      · exact hlack w hw

/-- What the first loop leaves: the candidates are tracked, and the places are noted. -/
theorem NodeState.candidates_spec (O : DoubleOps D) (P : Params) (s : NodeState) (env : Env) :
    Dependencies.Tracks (CTransaction.getHash P) s.dependencies (s.candidateTxs env)
        ((s.candidates O P env).tracked 0 ∅) ∧
      (s.candidates O P env).Indexed := by
  suffices h : ∀ (l : List CTransaction) (items : Multiset CTransaction) (c : Candidates D),
      Dependencies.Tracks (CTransaction.getHash P) s.dependencies items (c.tracked 0 ∅) →
      c.Indexed →
      Dependencies.Tracks (CTransaction.getHash P) s.dependencies (l + items)
          ((l.foldl (Candidates.addTx O P s) c).tracked 0 ∅) ∧
        (l.foldl (Candidates.addTx O P s) c).Indexed by
    have hempty : Dependencies.Tracks (CTransaction.getHash P) s.dependencies 0
        ((⟨[], ∅, []⟩ : Candidates D).tracked 0 ∅) :=
      ⟨by simp [Candidates.tracked, waitingOrphans], by simp [Candidates.tracked],
        by simp [Candidates.tracked, waitingOrphans], by simp [Candidates.tracked]⟩
    simpa [NodeState.candidates] using
      h (s.candidateTxs env) 0 _ hempty fun i orphan hash h => by simp at h
  intro l
  induction l with
  | nil => exact fun items c htracks hindexed => by simpa using ⟨htracks, hindexed⟩
  | cons tx l ih =>
    intro items c htracks hindexed
    have hrest := ih (tx ::ₘ items) (c.addTx O P s tx) (Candidates.tracks_addTx htracks tx) (hindexed.addTx tx)
    rwa [Multiset.add_cons, ← Multiset.cons_add] at hrest

/-! ## Releasing -/

/-- What a round of the release does to the list of orphans. -/
theorem releaseOrphan_vOrphan (hash : Uint256) (c : Candidates D) (i j : ℕ) :
    (releaseOrphan hash c i).vOrphan[j]? = (c.vOrphan[j]?).map fun orphan =>
      if j = i then { orphan with setDependsOn := orphan.setDependsOn.erase hash } else orphan := by
  unfold releaseOrphan
  cases hi : c.vOrphan[i]? with
  | none =>
    by_cases hj : j = i
    · rw [hj, hi, Option.map_none]
    · simp [hj]
  | some orphan =>
    have hlt := (List.getElem?_eq_some_iff.mp hi).1
    by_cases hj : j = i
    · subst hj
      rw [hi, Option.map_some, if_pos rfl]
      by_cases hempty : orphan.setDependsOn = ∅
      · -- an orphan that lacks nothing is passed over
        obtain ⟨ptx, setDependsOn, dPriority⟩ := orphan
        subst hempty
        simp [hi]
      · simp only [if_neg hempty, List.getElem?_set_self hlt]
    · by_cases hempty : orphan.setDependsOn = ∅
      · simp [hj, hempty]
      · simp [hj, hempty, Ne.symm hj]

theorem releaseOrphan_mapDependers (hash : Uint256) (c : Candidates D) (i : ℕ) :
    (releaseOrphan hash c i).mapDependers = c.mapDependers := by
  unfold releaseOrphan
  split
  · rfl
  · split <;> rfl

/-- A loop over places takes the hash from the orphans at these places. -/
theorem foldl_releaseOrphan (hash : Uint256) (l : List ℕ) (c : Candidates D) :
    (l.foldl (releaseOrphan hash) c).mapDependers = c.mapDependers ∧
      ∀ j, (l.foldl (releaseOrphan hash) c).vOrphan[j]? = (c.vOrphan[j]?).map fun orphan =>
        if j ∈ l then { orphan with setDependsOn := orphan.setDependsOn.erase hash } else orphan := by
  induction l generalizing c with
  | nil => exact ⟨rfl, fun j => by simp⟩
  | cons i l ih =>
    obtain ⟨hmap, horphan⟩ := ih (releaseOrphan hash c i)
    refine ⟨hmap.trans (releaseOrphan_mapDependers hash c i), fun j => ?_⟩
    rw [List.foldl_cons, horphan, releaseOrphan_vOrphan, Option.map_map]
    refine Option.map_congr fun orphan _ => ?_
    by_cases hj : j = i <;> by_cases hl : j ∈ l <;> simp [hj, hl]

/-- **The release takes the hash from every orphan**, since its place is noted wherever the hash is
missing. -/
theorem Candidates.Indexed.release (h : c.Indexed) (hash : Uint256) :
    (c.release hash).Indexed ∧ (c.release hash).vOrphan =
      c.vOrphan.map fun orphan => { orphan with setDependsOn := orphan.setDependsOn.erase hash } := by
  obtain ⟨hmap, horphan⟩ := foldl_releaseOrphan hash (dependers c.mapDependers hash) c
  have hall : (c.release hash).vOrphan =
      c.vOrphan.map fun orphan => { orphan with setDependsOn := orphan.setDependsOn.erase hash } := by
    refine List.ext_getElem? fun j => ?_
    rw [Candidates.release, horphan, List.getElem?_map]
    refine Option.map_congr fun orphan hj => ?_
    by_cases hmem : hash ∈ orphan.setDependsOn
    · rw [if_pos (h j orphan hash hj hmem)]
    · rw [Finset.erase_eq_of_notMem hmem, ite_self]
  refine ⟨fun i orphan hash' hi hmem => ?_, hall⟩
  rw [hall, List.getElem?_map, Option.map_eq_some_iff] at hi
  obtain ⟨old, hold, rfl⟩ := hi
  rw [Candidates.release, hmap]
  exact h i old hash' hold (Finset.mem_of_mem_erase hmem)

/-- A round of the release is a move of the orphan at its place. -/
theorem moves_releaseOrphan {taken : Multiset CTransaction} {done : Finset Uint256}
    (hdone : hash ∈ done) (c : Candidates D) (i : ℕ) :
    Dependencies.Moves (CTransaction.getHash P) (c.tracked taken done)
      ((releaseOrphan hash c i).tracked taken done) := by
  unfold releaseOrphan
  split
  next => exact .refl
  next orphan hi =>
    split
    next => exact .refl
    next hne =>
      obtain ⟨hlt, hget⟩ := List.getElem?_eq_some_iff.mp hi
      have hsplit : waitingOrphans c.vOrphan = (orphan.ptx, orphan.setDependsOn) ::ₘ
          (waitingOrphans (c.vOrphan.take i) + waitingOrphans (c.vOrphan.drop (i + 1))) := by
        conv_lhs => rw [← List.take_append_drop i c.vOrphan, List.drop_eq_getElem_cons hlt, hget]
        rw [waitingOrphans_append, waitingOrphans_cons, if_neg hne, Multiset.add_cons]
      have hset : ∀ orphan' : COrphan D, waitingOrphans (c.vOrphan.set i orphan') =
          waitingOrphans (c.vOrphan.take i) +
            waitingOrphans (orphan' :: c.vOrphan.drop (i + 1)) := by
        intro orphan'
        rw [List.set_eq_take_append_cons_drop, if_pos hlt, waitingOrphans_append]
      refine .single ?_
      by_cases hlast : orphan.setDependsOn.erase hash = ∅
      · have hmove : Dependencies.Move (CTransaction.getHash P) _ _ := .release orphan.ptx
          orphan.setDependsOn ⟨(c.mapPriority.map Prod.snd : List CTransaction),
            waitingOrphans (c.vOrphan.take i) + waitingOrphans (c.vOrphan.drop (i + 1)), taken, done⟩
          hdone hlast
        simpa only [Candidates.tracked, hsplit, hset, hlast, waitingOrphans_cons, if_true,
          map_snd_queueTx] using hmove
      · have hmove : Dependencies.Move (CTransaction.getHash P) _ _ := .learn orphan.ptx
          orphan.setDependsOn ⟨(c.mapPriority.map Prod.snd : List CTransaction),
            waitingOrphans (c.vOrphan.take i) + waitingOrphans (c.vOrphan.drop (i + 1)), taken, done⟩
          hdone hlast
        simpa only [Candidates.tracked, hsplit, hset, hlast, waitingOrphans_cons, if_false,
          Multiset.add_cons] using hmove

/-- **Releasing a hash of the block is a sequence of moves.** -/
theorem Candidates.moves_release {taken : Multiset CTransaction} {done : Finset Uint256}
    (hdone : hash ∈ done) (c : Candidates D) :
    Dependencies.Moves (CTransaction.getHash P) (c.tracked taken done)
      ((c.release hash).tracked taken done) := by
  unfold Candidates.release
  induction dependers c.mapDependers hash generalizing c with
  | nil => exact .refl
  | cons i l ih => exact (moves_releaseOrphan hdone c i).trans (ih (releaseOrphan hash c i))

/-! ## One round -/

/-- The index that the round reads: the changes of the block over the database. -/
def Assembly.index (s : NodeState) (st : Assembly D) : TxIndexMap :=
  st.mapTestPool ∪ s.txdb.mapTxIndex

/-- The fee of a transaction on an index. -/
def ChainView.feeOf (v : ChainView) (m : TxIndexMap) (tx : CTransaction) : ℤ :=
  v.valueIn m tx - tx.valueOut

/-- When a round adds its transaction: it fits in the block, its inputs connect to what the block
leaves, and it pays the fee that the block asks for. -/
structure Assembly.Accepts (O : DoubleOps D) (P : Params) (s : NodeState) (env : Env)
    (st : Assembly D) (dPriority : D) (tx : CTransaction) : Prop where
  size_lt : st.nBlockSize + tx.getSerializeSize < maxBlockSizeGen
  sigOps_lt : st.nBlockSigOps +
    (tx.getLegacySigOpCount + (s.view env).p2shSigOps (st.index s) tx) < maxBlockSigops
  connects : tx.Connects P (s.view env) (st.index s) s.bestWalk true true
  minFee_le : tx.getMinFee st.nBlockSize (st.fAllowFree O dPriority tx) ≤
    (s.view env).feeOf (st.index s) tx

/-- What a round changes when it adds its transaction, before orphans are released. -/
structure Assembly.Added (P : Params) (s : NodeState) (env : Env) (st : Assembly D)
    (tx : CTransaction) (st' : Assembly D) : Prop where
  candidates_eq : st'.toCandidates = st.toCandidates
  index_eq : st'.index s = applyTx P CDiskTxPos.inMemory (st.index s) tx
  vtx_eq : st'.vtx = st.vtx ++ [tx]
  nBlockSize_eq : st'.nBlockSize = st.nBlockSize + tx.getSerializeSize
  nBlockSigOps_eq : st'.nBlockSigOps = st.nBlockSigOps +
    (tx.getLegacySigOpCount + (s.view env).p2shSigOps (st.index s) tx)
  nFees_eq : st'.nFees = int64 (st.nFees + (s.view env).feeOf (st.index s) tx)

/-- `GetValueIn` does not throw when the claimed outputs exist. -/
theorem exists_getValueIn {v : ChainView} {m : TxIndexMap} {inputs : MapPrevTx}
    (hcb : tx.isCoinBase = false) (hfetch : v.Fetched m tx inputs)
    (hclaim : ∀ txin ∈ tx.vin, (v.claim? m txin.prevout).isSome) :
    ∃ n, tx.getValueIn inputs = .ok n := by
  rw [CTransaction.getValueIn, if_neg (by simp [hcb])]
  suffices h : ∀ (l : List CTxIn), (∀ txin ∈ l, txin ∈ tx.vin) → ∀ n : ℤ,
      ∃ n', l.foldlM (fun nResult txin => do
        let txout ← getOutputFor inputs txin
        pure (int64 (nResult + txout.nValue))) n = (.ok n' : Result ℤ) from
    h tx.vin (fun _ h => h) 0
  intro l hl
  induction l with
  | nil => exact fun n => ⟨n, rfl⟩
  | cons txin l ih =>
    intro n
    have htxin := hl txin List.mem_cons_self
    obtain ⟨c, hc⟩ := Option.isSome_iff_exists.mp (hclaim txin htxin)
    rw [List.foldlM_cons, getOutputFor_of_claim hfetch htxin hc]
    exact ih (fun t ht => hl t (List.mem_cons_of_mem _ ht)) _

section Round

variable {st st' : Assembly D} {dPriority : D}

variable (O P s env st dPriority) in
/-- **A round adds its transaction exactly when the block accepts it**, and passes it over
otherwise; it never throws. -/
theorem Assembly.consider_cases (hchk : tx.Checked) (hcb : tx.isCoinBase = false) :
    (st.Accepts O P s env dPriority tx ∧
      ∃ st', st.consider O P s env dPriority tx = .ok (some st') ∧ st.Added P s env tx st') ∨
    (¬st.Accepts O P s env dPriority tx ∧ st.consider O P s env dPriority tx = .ok none) := by
  unfold Assembly.consider
  simp only
  split_ifs with hsize hlegacy
  · exact .inr ⟨fun h => absurd h.size_lt (by omega), rfl⟩
  · exact .inr ⟨fun h => absurd h.sigOps_lt (by omega), rfl⟩
  have hclaims : st.Accepts O P s env dPriority tx →
      ∀ txin ∈ tx.vin, ((s.view env).claim? (st.index s) txin.prevout).isSome := by
    intro h txin htxin
    obtain ⟨cl, hcl, -⟩ := h.connects.payable txin htxin
    rw [hcl]
    rfl
  cases hfetched : tx.fetchInputs (s.view env) s.txdb.mapTxIndex st.mapTestPool false true with
  | error e =>
    refine .inr ⟨fun h => ?_, rfl⟩
    -- the inputs of a transaction that connects can be fetched
    obtain ⟨inputs, hinputs⟩ := exists_fetched (s.view env) (st.index s) tx
    rw [(fetchInputs_eq_ok (Bool.or_true false) hcb).mpr ⟨hclaims h, hinputs⟩] at hfetched
    cases hfetched
  | ok inputs =>
    obtain ⟨hclaim, hfetch⟩ :
        (∀ txin ∈ tx.vin, ((s.view env).claim? (st.index s) txin.prevout).isSome) ∧
          (s.view env).Fetched (st.index s) tx inputs :=
      (fetchInputs_eq_ok (Bool.or_true false) hcb).mp hfetched
    obtain ⟨nValueIn, hin⟩ := exists_getValueIn hcb hfetch hclaim
    have hfee : tx.Connects P (s.view env) (st.index s) s.bestWalk true true →
        int64 (nValueIn - tx.valueOut) = (s.view env).feeOf (st.index s) tx := by
      intro hconn
      rw [getValueIn_eq hcb hfetch (fun t ht => (hconn.payable t ht).imp fun _ h => ⟨h.1, h.2.nonneg⟩)
        hconn.valueIn_le, Except.ok.injEq] at hin
      rw [← hin, hconn.int64_fee hchk, ChainView.feeOf]
    simp only [hin, hchk.getValueOut_eq, getP2SHSigOpCount_eq hcb hfetch hclaim, ok_bind]
    split_ifs with hlow hops
    · refine .inr ⟨fun h => ?_, rfl⟩
      rw [hfee h.connects] at hlow
      exact absurd h.minFee_le (by omega)
    · exact .inr ⟨fun h => absurd h.sigOps_lt (by omega), rfl⟩
    cases hconnect : tx.connectInputs P (s.view env) inputs st.mapTestPool CDiskTxPos.inMemory
        s.bestWalk false true true with
    | error e =>
      refine .inr ⟨fun h => ?_, rfl⟩
      obtain ⟨q, hq, -⟩ := (connectInputs_eq_ok (Bool.or_true false) hcb hchk hfetch hclaim).mpr
        ⟨h.connects, rfl⟩
      rw [hq] at hconnect
      cases hconnect
    | ok q =>
      obtain ⟨hconn, hunion⟩ := (connectInputs_eq_ok (Bool.or_true false) hcb hchk hfetch
        hclaim).mp ⟨q, hconnect, rfl⟩
      rw [hfee hconn] at hlow
      refine .inl ⟨⟨by omega, by omega, hconn, by omega⟩, _, rfl, rfl, ?_, rfl, rfl, rfl, ?_⟩
      · rw [Assembly.index, ← Finmap.insert_union, hunion, applyTx, CTransaction.spent,
          if_neg (by simp [hcb])]
        rfl
      · show int64 (st.nFees + int64 (nValueIn - tx.valueOut)) = _
        rw [hfee hconn]

variable (O P s env st dPriority) in
/-- What a round comes to: the transaction is added and the orphans that depend on it are released,
or nothing changes. -/
theorem Assembly.round_cases (hchk : tx.Checked) (hcb : tx.isCoinBase = false) :
    (st.Accepts O P s env dPriority tx ∧ ∃ st', st.Added P s env tx st' ∧
      st.round O P s env dPriority tx =
        .ok { st' with toCandidates := st'.toCandidates.release (tx.getHash P) }) ∨
    (¬st.Accepts O P s env dPriority tx ∧ st.round O P s env dPriority tx = .ok st) := by
  rcases Assembly.consider_cases O P s env st dPriority hchk hcb with ⟨hacc, st', hst', hadded⟩ | ⟨hnot, hst'⟩
  · refine .inl ⟨hacc, st', hadded, ?_⟩
    rw [Assembly.round, hst']
    rfl
  · refine .inr ⟨hnot, ?_⟩
    rw [Assembly.round, hst']
    rfl

end Round

/-! ## The loop -/

/-- The hashes of the transactions in the block. -/
def Assembly.added (P : Params) (st : Assembly D) : Finset Uint256 :=
  (st.vtx.map (CTransaction.getHash P)).toFinset

/-- The queue is in order of priority. -/
def ByPriority (mapPriority : List (D × CTransaction)) : Prop :=
  mapPriority.Pairwise fun a b => b.1 ≤ a.1

theorem ByPriority.queueTx {mapPriority : List (D × CTransaction)} (h : ByPriority mapPriority)
    (dPriority : D) (tx : CTransaction) : ByPriority (queueTx dPriority tx mapPriority) := by
  have hm : mapPriority.Pairwise fun a b => OrderDual.toDual a.1 ≤ OrderDual.toDual b.1 := h
  have hinsert := MultiMap.pairwise_insert hm (dPriority, tx)
  exact hinsert

theorem Candidates.byPriority_release (h : ByPriority c.mapPriority) (hash : Uint256) :
    ByPriority (c.release hash).mapPriority := by
  unfold Candidates.release
  induction dependers c.mapDependers hash generalizing c with
  | nil => exact h
  | cons i l ih =>
    refine ih ?_
    unfold releaseOrphan
    split
    next => exact h
    next orphan _ =>
      split
      next => exact h
      next =>
        simp only
        split
        next => exact h.queueTx _ _
        next => exact h

theorem NodeState.byPriority_candidates (O : DoubleOps D) (P : Params) (s : NodeState) (env : Env) :
    ByPriority (s.candidates O P env).mapPriority := by
  suffices h : ∀ (l : List CTransaction) (c : Candidates D), ByPriority c.mapPriority →
      ByPriority (l.foldl (Candidates.addTx O P s) c).mapPriority from h _ _ .nil
  intro l
  induction l with
  | nil => exact fun c h => h
  | cons tx l ih =>
    intro c h
    refine ih _ ?_
    unfold Candidates.addTx
    simp only
    split
    · exact h.queueTx _ _
    · exact h

/-- The invariant of the second loop, with the transactions that have been taken off the queue. -/
structure Assembly.Invariant (P : Params) (s : NodeState) (items taken : Multiset CTransaction)
    (st : Assembly D) : Prop where
  tracks : Dependencies.Tracks (CTransaction.getHash P) s.dependencies items
    (st.tracked taken (st.added P))
  indexed : st.Indexed
  known : ∀ orphan ∈ st.vOrphan, Disjoint orphan.setDependsOn (st.added P)
  byPriority : ByPriority st.mapPriority

section Loop

variable {items taken : Multiset CTransaction} {st st' : Assembly D} {dPriority : D}
  {mapPriority : List (D × CTransaction)}

/-- **A round keeps the invariant.** -/
theorem Assembly.Invariant.round (h : st.Invariant P s items taken)
    (hqueue : st.mapPriority = (dPriority, tx) :: mapPriority) (hchk : tx.Checked)
    (hcb : tx.isCoinBase = false)
    (hround : Assembly.round O P s env { st with mapPriority } dPriority tx = .ok st') :
    st'.Invariant P s items (tx ::ₘ taken) := by
  obtain ⟨htracks, hindexed, hknown, horder⟩ := h
  rw [hqueue] at horder
  have hrest : ByPriority mapPriority := (List.pairwise_cons.mp horder).2
  rw [Candidates.tracked, hqueue] at htracks
  rcases Assembly.round_cases O P s env { st with mapPriority } dPriority hchk hcb with
    ⟨-, st₁, hadded, hst'⟩ | ⟨-, hst'⟩
  · rw [hst', Except.ok.injEq] at hround
    subst hround
    obtain ⟨hcand, -, hvtx, -, -, -⟩ := hadded
    have hdone : st₁.added P = insert (tx.getHash P) (st.added P) := by
      rw [Assembly.added, hvtx, Assembly.added]
      ext
      simp
    have hmem : tx.getHash P ∈ st₁.added P := by
      rw [hdone]
      exact Finset.mem_insert_self _ _
    have hindexed₁ : st₁.toCandidates.Indexed := by
      rw [hcand]
      exact hindexed
    obtain ⟨hindexed', hall⟩ := hindexed₁.release (tx.getHash P)
    refine ⟨?_, hindexed', fun orphan horphan => ?_, ?_⟩
    · refine Dependencies.Tracks.moves ?_ (Candidates.moves_release hmem st₁.toCandidates)
      rw [hdone, hcand]
      exact htracks.move (.complete tx ⟨(mapPriority.map Prod.snd : List CTransaction),
        waitingOrphans st.vOrphan, taken, st.added P⟩)
    · rw [hall, hcand] at horphan
      obtain ⟨old, hold, rfl⟩ := List.mem_map.mp horphan
      show Disjoint (old.setDependsOn.erase (tx.getHash P)) (st₁.added P)
      rw [hdone, Finset.disjoint_insert_right]
      exact ⟨Finset.notMem_erase _ _, (hknown old hold).mono_left (Finset.erase_subset _ _)⟩
    · refine Candidates.byPriority_release ?_ _
      rw [hcand]
      exact hrest
  · rw [hst', Except.ok.injEq] at hround
    subst hround
    exact ⟨htracks.move (.drop tx ⟨(mapPriority.map Prod.snd : List CTransaction),
      waitingOrphans st.vOrphan, taken, st.added P⟩), hindexed, hknown, hrest⟩

end Loop

/-- A transaction with the variables of the loop when it is taken off the queue. -/
structure Considered (D : Type) where
  st : Assembly D
  dPriority : D
  tx : CTransaction

/-- Whether the round adds the transaction. -/
def Considered.fAdded (O : DoubleOps D) (P : Params) (s : NodeState) (env : Env)
    (e : Considered D) : Bool :=
  match e.st.consider O P s env e.dPriority e.tx with
  | .ok (some _) => true
  | _ => false

variable (O P s env) in
theorem Considered.fAdded_iff (e : Considered D) (hchk : e.tx.Checked)
    (hcb : e.tx.isCoinBase = false) :
    e.fAdded O P s env = true ↔ e.st.Accepts O P s env e.dPriority e.tx := by
  unfold Considered.fAdded
  rcases Assembly.consider_cases O P s env e.st e.dPriority hchk hcb with
    ⟨hacc, st', hst', -⟩ | ⟨hnot, hst'⟩
  · simp [hst', hacc]
  · simp [hst', hnot]

/-- Rounds of the second loop until the queue is empty, with what they consider. -/
inductive Assembly.Rounds (O : DoubleOps D) (P : Params) (s : NodeState) (env : Env) :
    Assembly D → List (Considered D) → Assembly D → Prop
  | nil {st : Assembly D} (hqueue : st.mapPriority = []) : Rounds O P s env st [] st
  | cons {st st₁ st' : Assembly D} {dPriority : D} {tx : CTransaction}
      {mapPriority : List (D × CTransaction)} {log : List (Considered D)}
      (hqueue : st.mapPriority = (dPriority, tx) :: mapPriority)
      (hround : Assembly.round O P s env { st with mapPriority } dPriority tx = .ok st₁)
      (hrest : Rounds O P s env st₁ log st') :
      Rounds O P s env st (⟨{ st with mapPriority }, dPriority, tx⟩ :: log) st'

/-- The transactions of the pool are filed under their hashes and pass `CheckTransaction`. -/
def NodeState.PoolSound (P : Params) (s : NodeState) : Prop :=
  ∀ hash tx, s.mempool.mapTx.lookup hash = some tx →
    tx.getHash P = hash ∧ tx.checkTransaction = .ok ()

theorem NodeState.mem_candidateTxs : tx ∈ s.candidateTxs env ↔
    (∃ hash, s.mempool.mapTx.lookup hash = some tx) ∧ tx.isCoinBase = false ∧
      tx.isFinal s.nBestHeight env.nAdjustedTime 0 0 = true := by
  simp only [candidateTxs, List.mem_filter, List.mem_map, Prod.exists, exists_eq_right,
    OrderedMap.mem_pairs, Bool.and_eq_true, Bool.not_eq_true']

/-- No two candidates have the same hash. -/
theorem NodeState.PoolSound.nodup_candidateTxs (h : s.PoolSound P) (env : Env) :
    ((s.candidateTxs env).map (CTransaction.getHash P)).Nodup := by
  refine List.Nodup.sublist (List.filter_sublist.map _) ?_
  rw [List.map_map]
  have hkeys : (OrderedMap.pairs s.mempool.mapTx).map (CTransaction.getHash P ∘ Prod.snd) =
      (OrderedMap.pairs s.mempool.mapTx).map Prod.fst := by
    refine List.map_congr_left fun entry hentry => ?_
    exact (h entry.1 entry.2 (OrderedMap.mem_pairs.mp hentry)).1
  rw [hkeys, OrderedMap.map_fst_pairs]
  exact Finset.sort_nodup _ _

section Rounds

variable {items taken : Multiset CTransaction} {st st' : Assembly D} {log : List (Considered D)}

/-- What is in the queue is an item. -/
theorem Assembly.Invariant.mem_items (h : st.Invariant P s items taken) {dPriority : D}
    (hmem : (dPriority, tx) ∈ st.mapPriority) : tx ∈ items := by
  rw [← h.tracks.items_eq]
  refine Multiset.mem_add.mpr (.inl (Multiset.mem_add.mpr (.inr ?_)))
  exact Multiset.mem_coe.mpr (List.mem_map_of_mem hmem)

/-- **The loop runs until the queue is empty**: a round takes one item, so as many rounds as there
are items left are enough. -/
theorem Assembly.Invariant.exists_rounds (hitems : ∀ t ∈ items, t.Checked ∧ t.isCoinBase = false)
    {nRounds : ℕ} (h : st.Invariant P s items taken)
    (henough : items.card ≤ nRounds + taken.card) :
    ∃ st' log, Assembly.loop O P s env nRounds st = .ok st' ∧
      Assembly.Rounds O P s env st log st' := by
  induction nRounds generalizing st taken with
  | zero =>
    have hleft := h.tracks.left_add
    refine ⟨st, [], rfl, .nil ?_⟩
    -- every item has been taken
    have hready : (st.mapPriority.map Prod.snd).length = 0 := by
      have : (st.tracked taken (st.added P)).ready.card = 0 := by
        simp only [Dependencies.State.left] at hleft
        simp only [Candidates.tracked] at hleft ⊢
        omega
      simpa [Candidates.tracked] using this
    simpa using hready
  | succ nRounds ih =>
    cases hqueue : st.mapPriority with
    | nil => exact ⟨st, [], by rw [Assembly.loop, hqueue], .nil hqueue⟩
    | cons entry mapPriority =>
      obtain ⟨dPriority, tx⟩ := entry
      obtain ⟨hchk, hcb⟩ := hitems tx (h.mem_items (by rw [hqueue]; exact List.mem_cons_self))
      have hok : ∃ st₁, Assembly.round O P s env { st with mapPriority } dPriority tx = .ok st₁ := by
        rcases Assembly.round_cases O P s env { st with mapPriority } dPriority hchk hcb with
          ⟨-, _, -, hst⟩ | ⟨-, hst⟩
        · exact ⟨_, hst⟩
        · exact ⟨_, hst⟩
      obtain ⟨st₁, hst₁⟩ := hok
      have hnext := h.round hqueue hchk hcb hst₁
      obtain ⟨st', log, hloop, hrounds⟩ := ih hnext (by rw [Multiset.card_cons]; omega)
      refine ⟨st', _, ?_, .cons hqueue hst₁ hrounds⟩
      rw [Assembly.loop, hqueue]
      simp only [hst₁, ok_bind, hloop]

/-- The queue is empty after the rounds. -/
theorem Assembly.Rounds.mapPriority_eq (h : Assembly.Rounds O P s env st log st') :
    st'.mapPriority = [] := by
  induction h with
  | nil hqueue => exact hqueue
  | cons _ _ _ ih => exact ih

/-- What the rounds preserve and do: the invariant holds after them, they take the highest priority
first, and the block has the transactions that they add. -/
theorem Assembly.Rounds.spec (h : Assembly.Rounds O P s env st log st')
    (hitems : ∀ t ∈ items, t.Checked ∧ t.isCoinBase = false)
    (hinv : st.Invariant P s items taken) :
    st'.Invariant P s items (taken + (log.map Considered.tx : List CTransaction)) ∧
      (∀ e ∈ log, ∀ entry ∈ e.st.mapPriority, entry.1 ≤ e.dPriority) ∧
      st'.vtx = st.vtx ++ (log.filter (Considered.fAdded O P s env)).map Considered.tx := by
  induction h generalizing taken with
  | nil => simpa using hinv
  | @cons st st₁ st' dPriority tx mapPriority log hqueue hround hrest ih =>
    obtain ⟨hchk, hcb⟩ := hitems tx (hinv.mem_items (by rw [hqueue]; exact List.mem_cons_self))
    obtain ⟨hinv', horder, hvtx⟩ := ih (hinv.round hqueue hchk hcb hround)
    refine ⟨?_, ?_, ?_⟩
    · have heq : taken + ((tx :: log.map Considered.tx : List CTransaction) : Multiset CTransaction)
          = tx ::ₘ taken + (log.map Considered.tx : List CTransaction) := by
        rw [← Multiset.cons_coe, Multiset.add_cons, Multiset.cons_add]
      rw [List.map_cons, heq]
      exact hinv'
    · rintro e he entry hentry
      rcases List.mem_cons.mp he with rfl | he
      · have hsorted := hinv.byPriority
        rw [hqueue] at hsorted
        exact (List.pairwise_cons.mp hsorted).1 entry hentry
      · exact horder e he entry hentry
    · rw [hvtx]
      have hadd := Considered.fAdded_iff O P s env ⟨{ st with mapPriority }, dPriority, tx⟩ hchk hcb
      rcases Assembly.round_cases O P s env { st with mapPriority } dPriority hchk hcb with
        ⟨hacc, st₂, hadded, hst⟩ | ⟨hnot, hst⟩
      · obtain rfl := Except.ok.inj (hround.symm.trans hst)
        rw [List.filter_cons_of_pos (hadd.mpr hacc), List.map_cons]
        show st₂.vtx ++ _ = _
        rw [hadded.vtx_eq, List.append_assoc]
        rfl
      · obtain rfl := Except.ok.inj (hround.symm.trans hst)
        rw [List.filter_cons_of_neg (fun h => hnot (hadd.mp h))]

/-- **The rule for the rounds**: what every accepted candidate preserves, and does not depend on the
queue and the orphans, the rounds preserve. -/
theorem Assembly.Rounds.preserves (h : Assembly.Rounds O P s env st log st')
    (hitems : ∀ t ∈ items, t.Checked ∧ t.isCoinBase = false)
    (hinv : st.Invariant P s items taken) {I : Assembly D → Prop}
    (hcandidates : ∀ st c, I st → I { st with toCandidates := c })
    (hadded : ∀ st dPriority tx st', tx ∈ items → I st → st.Accepts O P s env dPriority tx →
      st.Added P s env tx st' → I st') (hstart : I st) : I st' := by
  induction h generalizing taken with
  | nil => exact hstart
  | @cons st st₁ st' dPriority tx mapPriority log hqueue hround hrest ih =>
    have hmem : tx ∈ items := hinv.mem_items (by rw [hqueue]; exact List.mem_cons_self)
    obtain ⟨hchk, hcb⟩ := hitems tx hmem
    have htaken := hcandidates st { st.toCandidates with mapPriority } hstart
    refine ih (hinv.round hqueue hchk hcb hround) ?_
    rcases Assembly.round_cases O P s env { st with mapPriority } dPriority hchk hcb with
      ⟨hacc, st₂, hadd, hst⟩ | ⟨-, hst⟩
    · obtain rfl := Except.ok.inj (hround.symm.trans hst)
      exact hcandidates _ _ (hadded _ dPriority tx st₂ hmem htaken hacc hadd)
    · obtain rfl := Except.ok.inj (hround.symm.trans hst)
      exact htaken

/-- The candidates of a sound pool can be considered. -/
theorem NodeState.PoolSound.checked (h : s.PoolSound P) :
    ∀ t ∈ (s.candidateTxs env : Multiset CTransaction), t.Checked ∧ t.isCoinBase = false := by
  intro t ht
  obtain ⟨⟨hash, hlook⟩, hcb, -⟩ := NodeState.mem_candidateTxs.mp (Multiset.mem_coe.mp ht)
  exact ⟨CTransaction.checked_of_checkTransaction (h hash t hlook).2, hcb⟩

/-- The invariant holds when the second loop starts. -/
theorem Assembly.invariant_start (O : DoubleOps D) (P : Params) (s : NodeState) (env : Env) :
    (Assembly.start (s.candidates O P env)).Invariant P s (s.candidateTxs env) 0 := by
  obtain ⟨htracks, hindexed⟩ := s.candidates_spec O P env
  exact ⟨htracks, hindexed, fun orphan _ => Finset.disjoint_empty_right _,
    s.byPriority_candidates O P env⟩

/-- **The selection ends** for a sound pool, and throws nothing. -/
theorem NodeState.PoolSound.exists_rounds (hpool : s.PoolSound P) (O : DoubleOps D) (env : Env) :
    ∃ st log, s.assemble O P env = .ok st ∧
      Assembly.Rounds O P s env (.start (s.candidates O P env)) log st :=
  (Assembly.invariant_start O P s env).exists_rounds hpool.checked (by simp)

/-- What the rounds of the selection have considered: the candidates are tracked, and what has been
considered is a part of them. -/
theorem Assembly.Rounds.log_spec
    (h : Assembly.Rounds O P s env (.start (s.candidates O P env)) log st) (hpool : s.PoolSound P) :
    st.Invariant P s (s.candidateTxs env) (log.map Considered.tx : List CTransaction) ∧
      ((log.map Considered.tx : List CTransaction) : Multiset CTransaction) ≤
        (s.candidateTxs env : Multiset CTransaction) ∧
      (log.map fun e => e.tx.getHash P).Nodup := by
  obtain ⟨hinv, -, -⟩ := h.spec hpool.checked (Assembly.invariant_start O P s env)
  rw [zero_add] at hinv
  have hsub : ((log.map Considered.tx : List CTransaction) : Multiset CTransaction) ≤
      (s.candidateTxs env : Multiset CTransaction) := by
    rw [← hinv.tracks.items_eq, add_assoc]
    exact Multiset.le_add_right _ _
  refine ⟨hinv, hsub, ?_⟩
  have hnodup := Multiset.coe_nodup.mpr (hpool.nodup_candidateTxs env)
  rw [← Multiset.map_coe] at hnodup
  have := Multiset.nodup_of_le (Multiset.map_le_map hsub) hnodup
  rwa [Multiset.map_coe, Multiset.coe_nodup, List.map_map] at this

/-- The transactions of the block are candidates with distinct hashes. -/
theorem Assembly.Rounds.vtx_spec
    (h : Assembly.Rounds O P s env (.start (s.candidates O P env)) log st) (hpool : s.PoolSound P) :
    (∀ tx ∈ st.vtx, tx ∈ s.candidateTxs env) ∧ (st.vtx.map (CTransaction.getHash P)).Nodup := by
  obtain ⟨-, hsub, hnodup⟩ := h.log_spec hpool
  obtain ⟨-, -, hvtx⟩ := h.spec hpool.checked (Assembly.invariant_start O P s env)
  replace hvtx : st.vtx = (log.filter (Considered.fAdded O P s env)).map Considered.tx := hvtx
  rw [hvtx]
  constructor
  · intro tx htx
    obtain ⟨e, he, rfl⟩ := List.mem_map.mp htx
    have hlog := List.mem_map_of_mem (f := Considered.tx) (List.mem_of_mem_filter he)
    exact Multiset.mem_coe.mp (Multiset.subset_of_le hsub (Multiset.mem_coe.mpr hlog))
  · rw [List.map_map]
    exact hnodup.sublist (List.filter_sublist.map _)

/-- **How `CreateNewBlock` selects**: the loop ends and throws nothing; it considers a candidate at
most once, the highest priority of the queue first, and it considers exactly the candidates whose
missing transactions are all in the block; the block has those that it accepts, in this order. -/
theorem assemble_considers (O : DoubleOps D) (hpool : s.PoolSound P) (env : Env) :
    ∃ st log, s.assemble O P env = .ok st ∧
      Assembly.Rounds O P s env (.start (s.candidates O P env)) log st ∧
      (log.map fun e => e.tx.getHash P).Nodup ∧
      (∀ e ∈ log, ∀ entry ∈ e.st.mapPriority, entry.1 ≤ e.dPriority) ∧
      (∀ tx ∈ s.candidateTxs env,
        tx ∈ log.map Considered.tx ↔ s.dependencies tx ⊆ st.added P) ∧
      st.vtx = (log.filter (Considered.fAdded O P s env)).map Considered.tx ∧
      ∀ e ∈ log, e.fAdded O P s env = true ↔ e.st.Accepts O P s env e.dPriority e.tx := by
  obtain ⟨st, log, hloop, hrounds⟩ := hpool.exists_rounds O env
  obtain ⟨-, horder, hvtx⟩ := hrounds.spec hpool.checked (Assembly.invariant_start O P s env)
  obtain ⟨hinv, hsub, hnodup⟩ := hrounds.log_spec hpool
  refine ⟨st, log, hloop, hrounds, hnodup, horder, fun tx htx => ?_, hvtx, ?_⟩
  · refine hinv.tracks.mem_taken_iff ?_ (fun w hw => ?_) htx
    · simp [Candidates.tracked, hrounds.mapPriority_eq]
    · obtain ⟨orphan, horphan, rfl⟩ := List.mem_map.mp (Multiset.mem_coe.mp hw)
      exact hinv.known orphan (List.mem_of_mem_filter horphan)
  · intro e he
    have hmem := Multiset.subset_of_le hsub (Multiset.mem_coe.mpr (List.mem_map_of_mem he))
    obtain ⟨hchk, hcb⟩ := hpool.checked e.tx hmem
    exact Considered.fAdded_iff O P s env e hchk hcb

end Rounds

/-- Exact arithmetic in place of `double`. -/
def rationalOps : DoubleOps ℚ := ⟨fun n => n, (· + ·), (· * ·), (· / ·)⟩

/-- A transaction that spends the first output of the one with the tag 30. -/
def childSpend : CTransaction := exampleTx 29 [⟨exampleHash 30, 0⟩] [coin / 4]

/-- A node with a spendable coinbase, whose pool has a transaction that spends it and a child of this
transaction, which is filed before it. -/
def minerNode : NodeState :=
  { matureNode with
    mempool :=
      ⟨((∅ : StdMap Uint256 CTransaction).insert (exampleHash 30) (exampleSpend 30)).insert
        (exampleHash 29) childSpend, ∅⟩ }

theorem candidateTxs_minerNode :
    minerNode.candidateTxs exampleEnv = [childSpend, exampleSpend 30] := by
  have hkeys : minerNode.mempool.mapTx.keys.sort (· ≤ ·) = [exampleHash 29, exampleHash 30] := by
    have hset : minerNode.mempool.mapTx.keys = insert (exampleHash 29) {exampleHash 30} := by
      decide +kernel
    rw [hset, Finset.sort_insert _ (by decide) (by decide), Finset.sort_singleton]
  rw [NodeState.candidateTxs, OrderedMap.pairs, hkeys]
  decide +kernel

/-- The parent is taken before the child. -/
theorem assemble_minerNode : ((minerNode.assemble rationalOps exampleParams exampleEnv).toOption.map
    fun st => (st.vtx, st.nFees)) = some ([exampleSpend 30, childSpend], 3 * coin / 4) := by
  rw [NodeState.assemble, NodeState.candidates, candidateTxs_minerNode]
  decide +kernel

theorem poolSound_minerNode : minerNode.PoolSound exampleParams := by
  intro hash tx hlook
  have hchecked : ∀ t ∈ [childSpend, exampleSpend 30], t.checkTransaction = .ok () := by
    intro t ht
    have hall : ∀ t ∈ [childSpend, exampleSpend 30], t.checkTransaction.isOk = true := by decide
    obtain ⟨⟨⟩, hu⟩ := exists_of_isOk (hall t ht)
    exact hu
  simp only [minerNode, Overlay.lookup_insert_eq_ite] at hlook
  split at hlook
  next heq =>
    obtain rfl := Option.some.inj hlook
    exact ⟨heq ▸ by decide, hchecked _ (by simp)⟩
  next =>
    split at hlook
    next heq =>
      obtain rfl := Option.some.inj hlook
      exact ⟨heq ▸ by decide, hchecked _ (by simp)⟩
    next => simp at hlook

/-- The child is considered after its parent. -/
theorem assemble_considers_minerNode :
    ∃ st log, minerNode.assemble rationalOps exampleParams exampleEnv = .ok st ∧
      Assembly.Rounds rationalOps exampleParams minerNode exampleEnv
        (.start (minerNode.candidates rationalOps exampleParams exampleEnv)) log st ∧
      (log.map fun e => e.tx.getHash exampleParams).Nodup ∧
      (∀ e ∈ log, ∀ entry ∈ e.st.mapPriority, entry.1 ≤ e.dPriority) ∧
      (∀ tx ∈ minerNode.candidateTxs exampleEnv, tx ∈ log.map Considered.tx ↔
        minerNode.dependencies tx ⊆ st.added exampleParams) ∧
      st.vtx = (log.filter (Considered.fAdded rationalOps exampleParams minerNode exampleEnv)).map
        Considered.tx ∧
      ∀ e ∈ log, e.fAdded rationalOps exampleParams minerNode exampleEnv = true ↔
        e.st.Accepts rationalOps exampleParams minerNode exampleEnv e.dPriority e.tx :=
  assemble_considers rationalOps poolSound_minerNode exampleEnv

end FoxCoin
