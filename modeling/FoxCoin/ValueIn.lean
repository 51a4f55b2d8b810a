import FoxCoin.Supply
import FoxCoin.BestChainCheck
import FoxCoin.Lib.Machine

/-! # The value a transaction claims

`GetValueIn` adds the values of the outputs a transaction names in a signed 64-bit variable, before
`ConnectInputs` has looked whether they are spent. A chain can move the same coins any number of
times, so the outputs it has ever created are worth more than its supply, and the sum can leave the
range. -/

namespace FoxCoin

open Checked Overlay Ledger Machine

/-! ## The sum -/

/-- The value of the output that `GetOutputFor` returns for an input. -/
def valueFor (inputs : MapPrevTx) (txin : CTxIn) : ℤ :=
  (getOutputFor inputs txin).toOption.elim 0 CTxOut.nValue

/-- The terms of the sum of `GetValueIn`. -/
def CTransaction.valuesFor (inputs : MapPrevTx) (tx : CTransaction) : List ℤ :=
  if tx.isCoinBase then [] else tx.vin.map (valueFor inputs)

/-- **The fee is exact**: no addition of `GetValueIn` overflows, it returns the exact sum, and
`GetValueIn - GetValueOut` is the exact difference. -/
structure CTransaction.FeeExact (inputs : MapPrevTx) (tx : CTransaction) : Prop where
  noOverflow : sumInt64 0 (tx.valuesFor inputs) = .ok (tx.valuesFor inputs).sum
  valueIn_eq : tx.getValueIn inputs = .ok (tx.valuesFor inputs).sum
  valueOut_eq : tx.getValueOut = .ok tx.valueOut
  fee_eq : fitsInt64 ((tx.valuesFor inputs).sum - tx.valueOut) = true

/-- A fetched map: every input has its output in it, and no output is negative. -/
structure MapPrevTx.Serves (inputs : MapPrevTx) (tx : CTransaction) : Prop where
  output : tx.isCoinBase = false → ∀ txin ∈ tx.vin, ∃ txout, getOutputFor inputs txin = .ok txout
  nonneg : ∀ txin txout, getOutputFor inputs txin = .ok txout → 0 ≤ txout.nValue

section Sum

variable {inputs : MapPrevTx} {tx : CTransaction}

theorem valueFor_eq {txin : CTxIn} {txout : CTxOut} (h : getOutputFor inputs txin = .ok txout) :
    valueFor inputs txin = txout.nValue := by
  rw [valueFor, h]
  rfl

theorem MapPrevTx.Serves.valuesFor_nonneg (h : MapPrevTx.Serves inputs tx) :
    ∀ x ∈ tx.valuesFor inputs, 0 ≤ x := by
  intro x hx
  unfold CTransaction.valuesFor at hx
  split at hx
  · cases hx
  · obtain ⟨txin, -, rfl⟩ := List.mem_map.mp hx
    cases hout : getOutputFor inputs txin with
    | error e => rw [valueFor, hout]; exact le_rfl
    | ok txout => rw [valueFor_eq hout]; exact h.nonneg txin txout hout

/-- The loop of `GetValueIn` follows the sum as long as no addition overflows. -/
theorem foldlM_getValueIn {vin : List CTxIn} {start n : ℤ}
    (hout : ∀ txin ∈ vin, ∃ txout, getOutputFor inputs txin = .ok txout)
    (hsum : sumInt64 start (vin.map (valueFor inputs)) = .ok n) :
    vin.foldlM (fun nResult txin => do
      let txout ← getOutputFor inputs txin
      pure (int64 (nResult + txout.nValue))) start = .ok n := by
  induction vin generalizing start with
  | nil => simpa [sumInt64] using hsum
  | cons txin vin ih =>
    obtain ⟨⟨txout, htxout⟩, hrest⟩ := List.forall_mem_cons.mp hout
    rw [List.map_cons, sumInt64, foldlM_cons_eq_ok] at hsum
    obtain ⟨s, hs, hsum⟩ := hsum
    obtain ⟨⟨hlow, hhigh⟩, rfl⟩ := toInt64_eq_ok.mp hs
    rw [valueFor_eq htxout] at hlow hhigh hsum
    refine foldlM_cons_eq_ok.mpr ⟨start + txout.nValue, ?_, ih hrest hsum⟩
    rw [htxout]
    exact congrArg Except.ok (int64_eq_self hlow hhigh)

/-- **On outputs that are not negative the fee is exact exactly when the outputs named are worth
less than `2 ^ 63` together.** -/
theorem MapPrevTx.Serves.exact_iff (h : MapPrevTx.Serves inputs tx) (hchk : tx.Checked) :
    tx.FeeExact inputs ↔ (tx.valuesFor inputs).sum < 2 ^ 63 := by
  have hnonneg : 0 ≤ (tx.valuesFor inputs).sum := List.sum_nonneg h.valuesFor_nonneg
  have hsum := sumInt64_eq_ok le_rfl h.valuesFor_nonneg (n := (tx.valuesFor inputs).sum)
  rw [zero_add] at hsum
  constructor
  · rintro ⟨hno, -, -, -⟩
    by_cases hnil : tx.valuesFor inputs = []
    · rw [hnil]
      decide
    · exact (hsum.mp hno).2 hnil
  · intro hlt
    have hno := hsum.mpr ⟨rfl, fun _ => hlt⟩
    refine ⟨hno, ?_, hchk.getValueOut_eq, ?_⟩
    · unfold CTransaction.getValueIn
      unfold CTransaction.valuesFor at hno ⊢
      cases hcb : tx.isCoinBase with
      | true => rfl
      | false =>
        rw [hcb] at hno
        exact foldlM_getValueIn (h.output hcb) hno
    · have hout := hchk.valueOut_le
      have hout0 := hchk.valueOut_nonneg
      have hmax : maxMoney < 2 ^ 62 := by decide
      exact fitsInt64_iff.mpr ⟨by omega, by omega⟩

end Sum

/-! ## What `FetchInputs` can return -/

variable {P : Params} {chain : List (ChainBlock P)} {index : TxIndexMap} {v : ChainView}
  {tx : CTransaction} {inputs : MapPrevTx}

/-- A node on a chain: its index is the one of the chain, whose blocks are on disk, and the
transactions of its pool pass `CheckTransaction`. -/
structure ChainView.OnChain (P : Params) (chain : List (ChainBlock P)) (index : TxIndexMap)
    (v : ChainView) : Prop where
  connected : ConnectedChain P chain index
  stored : ∀ c ∈ chain, c.StoredIn v
  pool : ∀ hash tx, v.mapTx.lookup hash = some tx → tx.Checked

/-- **The maps that `FetchInputs` returns for a transaction** on a chain: to the memory pool, and to
`ConnectBlock` when the transactions before this one in a block have been connected. -/
inductive FetchedOn (P : Params) (chain : List (ChainBlock P)) (index : TxIndexMap) (v : ChainView)
    (tx : CTransaction) (inputs : MapPrevTx) : Prop
  | pool (hfetch : tx.fetchInputs v index ∅ false false = .ok inputs)
  | block (b : ChainBlock P) {before after : List CTransaction} {st : ConnectState}
      (hextends : b.Extends chain) (hstored : b.StoredIn v)
      (hcheck : b.block.checkBlock P v.nAdjustedTime = .ok ())
      (hvtx : b.block.vtx = before ++ tx :: after)
      (hst : before.foldlM (connectTx P v index (ConnectContext.ofIndex b.pindex (walk chain)))
        ⟨∅, 0, 0, b.pindex.nBlockPos + emptyBlockSize - 1 +
          getSizeOfCompactSize b.block.vtx.length⟩ = .ok st)
      (hfetch : tx.fetchInputs v index st.mapQueuedChanges true false = .ok inputs)

/-- The index of a chain has no negative output. -/
theorem ConnectedChain.nonnegOutputs (h : ConnectedChain P chain index)
    (hstored : ∀ c ∈ chain, c.StoredIn v) : NonnegOutputs v index := by
  induction h with
  | genesis b hheight => exact fun hash e tx he => absurd he (by simp)
  | @connect chain b db db' v₀ io hchain hextends hstored₀ hconnect ih =>
    obtain ⟨hb, hrest⟩ := List.forall_mem_cons.mp hstored
    obtain ⟨hcheck, -, -, rfl⟩ := connectBlock_eq_ok.mp hconnect
    rw [CTxDB.writeNext_mapTxIndex]
    exact (ih hrest).foldl_next (s := b.block.startState b.pindex db.mapTxIndex)
      (CBlock.checked_of_checkBlock hcheck).tx_checked (b.holds hb (walk chain) db.mapTxIndex)

/-- Where an entry of a map that the memory pool fetched comes from. -/
def FetchedFromPool (v : ChainView) (index : TxIndexMap) (inputs : MapPrevTx) : Prop :=
  ∀ hash e txPrev, inputs.lookup hash = some (e, txPrev) →
    v.prevTx? index hash = some (e, txPrev) ∨ v.mapTx.lookup hash = some txPrev

/-- A round of the fetch loop adds the previous transaction of the input. -/
theorem FetchedFromPool.fetchInput {inputs' : MapPrevTx} {txin : CTxIn}
    (h : FetchedFromPool v index inputs)
    (hfetch : fetchInput v index ∅ false false inputs txin = .ok inputs') :
    FetchedFromPool v index inputs' := by
  have hadd : ∀ e txPrev, inputs' = inputs.insert txin.prevout.hash (e, txPrev) →
      (v.prevTx? index txin.prevout.hash = some (e, txPrev) ∨
        v.mapTx.lookup txin.prevout.hash = some txPrev) → FetchedFromPool v index inputs' := by
    rintro e txPrev rfl hfound hash e' txPrev' hlook
    rw [lookup_insert_eq_ite] at hlook
    split_ifs at hlook with heq
    · obtain ⟨rfl, rfl⟩ := Prod.mk.inj (Option.some.inj hlook)
      rw [heq]
      exact hfound
    · exact h hash e' txPrev' hlook
  unfold FoxCoin.fetchInput at hfetch
  simp only [Bool.or_self, Bool.false_and, Bool.false_eq_true, if_false] at hfetch
  split_ifs at hfetch with hin
  · cases hfetch
    exact h
  cases hentry : index.lookup txin.prevout.hash with
  | none =>
    -- the pool alone has it
    rw [hentry] at hfetch
    obtain ⟨txPrev, hpool, hpure⟩ := bind_eq_ok.mp hfetch
    refine hadd _ txPrev (pure_eq_ok.mp hpure).symm (.inr ?_)
    cases hmap : v.mapTx.lookup txin.prevout.hash with
    | none => simp [fetchFromPool, hmap] at hpool
    | some t => simpa [fetchFromPool, hmap] using hpool
  | some e =>
    rw [hentry] at hfetch
    dsimp only at hfetch
    split_ifs at hfetch with hmem
    · obtain ⟨txPrev, hpool, hpure⟩ := bind_eq_ok.mp hfetch
      refine hadd _ txPrev (pure_eq_ok.mp hpure).symm (.inr ?_)
      cases hmap : v.mapTx.lookup txin.prevout.hash with
      | none => simp [fetchFromPool, hmap] at hpool
      | some t => simpa [fetchFromPool, hmap] using hpool
    · cases hread : v.files.readTx e.pos.nFile e.pos.nTxPos with
      | none => simp [hread] at hfetch
      | some txPrev =>
        rw [hread] at hfetch
        refine hadd e txPrev (Except.ok.inj hfetch).symm (.inl ?_)
        exact ChainView.prevTx?_eq_some.mpr ⟨hentry, by rw [ChainView.readPrev, if_neg hmem, hread]⟩

theorem FetchedFromPool.foldlM {vin : List CTxIn} {inputs' : MapPrevTx}
    (h : FetchedFromPool v index inputs)
    (hfetch : vin.foldlM (FoxCoin.fetchInput v index ∅ false false) inputs = .ok inputs') :
    FetchedFromPool v index inputs' := by
  induction vin generalizing inputs with
  | nil =>
    obtain rfl := pure_eq_ok.mp hfetch
    exact h
  | cons txin vin ih =>
    obtain ⟨inputs₁, hone, hrest⟩ := foldlM_cons_eq_ok.mp hfetch
    exact ih (h.fetchInput hone) hrest

/-- An input in range has its output. -/
theorem exists_getOutputFor {txin : CTxIn} (h : prevoutInRange inputs txin = true) :
    ∃ txout, getOutputFor inputs txin = .ok txout := by
  unfold prevoutInRange at h
  unfold getOutputFor
  cases hlook : inputs.lookup txin.prevout.hash with
  | none => simp [hlook] at h
  | some p =>
    rw [hlook] at h
    obtain ⟨hlen, -⟩ : txin.prevout.n < p.2.vout.length ∧ txin.prevout.n < p.1.vSpent.length := by
      simpa using h
    exact ⟨p.2.vout[txin.prevout.n], by simp [List.getElem?_eq_getElem hlen]⟩

/-- The outputs of a map without negative outputs are not negative. -/
theorem getOutputFor_nonneg
    (h : ∀ hash e txPrev, inputs.lookup hash = some (e, txPrev) → ∀ txout ∈ txPrev.vout,
      0 ≤ txout.nValue) {txin : CTxIn} {txout : CTxOut}
    (hout : getOutputFor inputs txin = .ok txout) : 0 ≤ txout.nValue := by
  unfold getOutputFor at hout
  cases hlook : inputs.lookup txin.prevout.hash with
  | none => simp [hlook] at hout
  | some p =>
    rw [hlook] at hout
    dsimp only at hout
    cases hget : p.2.vout[txin.prevout.n]? with
    | none => simp [hget] at hout
    | some t =>
      rw [hget] at hout
      cases hout
      exact h _ p.1 p.2 hlook _ (List.mem_of_getElem? hget)

/-- `FetchInputs` checks that every output is in range. -/
theorem fetchInputs_inRange {txdb q : TxIndexMap} {fBlock fMiner : Bool}
    (hfetch : tx.fetchInputs v txdb q fBlock fMiner = .ok inputs) (hcb : tx.isCoinBase = false) :
    tx.vin.foldlM (fetchInput v txdb q fBlock fMiner) ∅ = .ok inputs ∧
      ∀ txin ∈ tx.vin, prevoutInRange inputs txin = true := by
  rw [CTransaction.fetchInputs, if_neg (by simp [hcb])] at hfetch
  obtain ⟨inputs', hfold, hrest⟩ := bind_eq_ok.mp hfetch
  obtain ⟨hall, hpure⟩ := ensure_bind_eq_ok.mp hrest
  obtain rfl := pure_eq_ok.mp hpure
  exact ⟨hfold, List.all_eq_true.mp hall⟩

/-- A coinbase has nothing to fetch. -/
theorem fetchInputs_coinBase {txdb q : TxIndexMap} {fBlock fMiner : Bool}
    (hfetch : tx.fetchInputs v txdb q fBlock fMiner = .ok inputs) (hcb : tx.isCoinBase = true) :
    inputs = ∅ := by
  rw [CTransaction.fetchInputs, if_pos hcb] at hfetch
  exact (Except.ok.inj hfetch).symm

/-- A map fetched from outputs that are not negative serves the transaction. -/
theorem serves_of_fetchInputs {txdb q : TxIndexMap} {fBlock fMiner : Bool}
    (hfetch : tx.fetchInputs v txdb q fBlock fMiner = .ok inputs)
    (hnonneg : tx.isCoinBase = false → ∀ hash e txPrev, inputs.lookup hash = some (e, txPrev) →
      ∀ txout ∈ txPrev.vout, 0 ≤ txout.nValue) : MapPrevTx.Serves inputs tx where
  output hcb txin htxin := exists_getOutputFor ((fetchInputs_inRange hfetch hcb).2 txin htxin)
  nonneg txin txout hout := by
    cases hcb : tx.isCoinBase with
    | true =>
      obtain rfl := fetchInputs_coinBase hfetch hcb
      exact getOutputFor_nonneg (fun _ _ _ h => by simp at h) hout
    | false => exact getOutputFor_nonneg (hnonneg hcb) hout

/-- **Every fetched map serves its transaction.** -/
theorem FetchedOn.serves (hview : v.OnChain P chain index) (h : FetchedOn P chain index v tx inputs) :
    MapPrevTx.Serves inputs tx := by
  have hindex := hview.connected.nonnegOutputs hview.stored
  cases h with
  | pool hfetch =>
    refine serves_of_fetchInputs hfetch fun hcb hash e txPrev hlook => ?_
    have hempty : FetchedFromPool v index ∅ := fun _ _ _ h => by simp at h
    have hfrom := hempty.foldlM (fetchInputs_inRange hfetch hcb).1
    rcases hfrom hash e txPrev hlook with hdisk | hpool
    · obtain ⟨he, hread⟩ := ChainView.prevTx?_eq_some.mp hdisk
      exact hindex hash e txPrev he hread
    · exact fun txout htxout => ((hview.pool hash txPrev hpool).value_range txout htxout).1
  | @block b before after st hextends hstored hcheck hvtx hst hfetch =>
    refine serves_of_fetchInputs hfetch fun hcb hash e txPrev hlook => ?_
    -- the changes queued by the transactions before this one, over the index
    have hchk : ∀ t ∈ before, t.Checked := fun t ht =>
      (CBlock.checked_of_checkBlock hcheck).tx_checked t (by rw [hvtx]; exact List.mem_append_left _ ht)
    have hpos := b.holds hstored (walk chain) index
    rw [hvtx, txPositions_append] at hpos
    obtain ⟨-, hover⟩ := (foldlM_connectTx_eq_ok hchk).mp ⟨st, hst, rfl⟩
    have hstart : (⟨∅, 0, 0, b.pindex.nBlockPos + emptyBlockSize - 1 +
        getSizeOfCompactSize b.block.vtx.length⟩ : ConnectState).over index =
          b.block.startState b.pindex index := by
      rw [ConnectState.over, CBlock.startState, Finmap.empty_union]
    rw [hstart] at hover
    have hqueue : NonnegOutputs v (st.mapQueuedChanges ∪ index) := by
      have hnext : NonnegOutputs v (before.foldl (IndexState.next P v
          (ConnectContext.ofIndex b.pindex (walk chain))) (b.block.startState b.pindex index)).index :=
        hindex.foldl_next (s := b.block.startState b.pindex index) hchk fun p hp =>
          hpos p (List.mem_append_left _ hp)
      rw [← hover] at hnext
      exact hnext
    have hmap := ((fetchInputs_eq_ok (Bool.true_or false) hcb).mp hfetch).2 hash
    rw [hlook] at hmap
    split_ifs at hmap
    obtain ⟨he, hread⟩ := ChainView.prevTx?_eq_some.mp hmap.symm
    exact hqueue hash e txPrev he hread

/-- **When the fee is exact.** For every map that `FetchInputs` can return on a chain, no addition
overflows and the fee is the exact difference exactly when the outputs that the transaction names
are worth less than `2 ^ 63` together. -/
theorem FetchedOn.feeExact_iff (hview : v.OnChain P chain index)
    (h : FetchedOn P chain index v tx inputs) (hcheck : tx.checkTransaction = .ok ()) :
    tx.FeeExact inputs ↔ (tx.valuesFor inputs).sum < 2 ^ 63 :=
  (h.serves hview).exact_iff (CTransaction.checked_of_checkTransaction hcheck)

/-! ## Fetching what a chain has created -/

/-- **Every output that a chain has created can be claimed by `FetchInputs`**, spent or not. -/
theorem ConnectedChain.exists_claim (h : ConnectedChain P chain index)
    (hnodup : (chainHashes chain).Nodup) (hstored : ∀ c ∈ chain, c.StoredIn v) {b : ChainBlock P}
    {d rest : List (ChainBlock P)} (hsplit : chain = d ++ b :: rest) (hne : rest ≠ [])
    (htx : tx ∈ b.block.vtx) {n : ℕ} {txout : CTxOut} (hout : tx.vout[n]? = some txout) :
    ∃ c, v.claim? index ⟨tx.getHash P, n⟩ = some c ∧ c.txout = txout := by
  have hb : b.StoredIn v := hstored b (by rw [hsplit]; simp)
  -- the place of the transaction on disk, which the index knows
  rw [← map_snd_txPositions (b.block.startState b.pindex index).nTxPos b.block.vtx] at htx
  obtain ⟨p, hp, rfl⟩ := List.mem_map.mp htx
  have hholds := b.holds hb [] index p hp
  have hplace : ((ConnectContext.ofIndex b.pindex []).posThisTx p.1, p.2) ∈ chainPlaces chain := by
    obtain ⟨l, heq, -⟩ := chainPlaces_append (b := b) d hne
    rw [hsplit, heq]
    refine List.mem_append_right _ (List.mem_append_left _ (List.mem_map.mpr ⟨p, ?_, rfl⟩))
    have hsize : emptyBlockSize = headerSize + 1 := rfl
    have hstart : (b.block.startState b.pindex index).nTxPos =
        firstTxPos b.pindex.nBlockPos b.block.vtx := by
      simp only [CBlock.startState, firstTxPos]
      omega
    rwa [hstart] at hp
  obtain ⟨l, l', hl⟩ := List.append_of_mem hplace
  obtain ⟨e, he, hpos, -⟩ := (h.indexOf hnodup).entry l _ l' hl
  have hread : v.readPrev (p.2.getHash P) e = some p.2 := by
    rw [← hholds.read, ChainView.readPrev, ChainView.readPrev, CTxIndex.ofOutputs_pos, hpos]
  obtain ⟨tx', nHeight, href⟩ := (h.refines hstored).entry _ e he
  obtain rfl : p.2 = tx' := Option.some.inj (hread.symm.trans href.read)
  refine ⟨⟨e, p.2, txout⟩, ChainView.claim?_eq_some.mpr ⟨he, hread, ?_, hout⟩, rfl⟩
  rw [href.length_eq]
  exact (List.getElem?_eq_some_iff.mp hout).1

/-- Where the index has the transaction, the memory pool fetches what a block does. -/
theorem fetchInput_pool {txin : CTxIn} (h : txin.prevout.hash ∈ index) :
    fetchInput v index ∅ false false inputs txin = fetchInput v index ∅ true false inputs txin := by
  obtain ⟨e, he⟩ := Finmap.mem_iff.mp h
  have hno : txin.prevout.hash ∉ (∅ : TxIndexMap) := Finmap.notMem_empty
  unfold fetchInput
  simp only [Bool.or_false, Bool.or_self, Bool.false_eq_true, if_false, decide_eq_false hno,
    Bool.and_false, he]

theorem foldlM_fetchInput_pool {vin : List CTxIn} (h : ∀ txin ∈ vin, txin.prevout.hash ∈ index) :
    vin.foldlM (fetchInput v index ∅ false false) inputs =
      vin.foldlM (fetchInput v index ∅ true false) inputs := by
  induction vin generalizing inputs with
  | nil => rfl
  | cons txin vin ih =>
    obtain ⟨hhd, htl⟩ := List.forall_mem_cons.mp h
    rw [List.foldlM_cons, List.foldlM_cons, fetchInput_pool hhd]
    exact congrArg _ (funext fun _ => ih htl)

/-- **The memory pool fetches outputs of the chain**: their values are the terms of the sum. -/
theorem exists_fetchInputs_pool (hcb : tx.isCoinBase = false) (value : CTxIn → ℤ)
    (hclaim : ∀ txin ∈ tx.vin, ∃ c, v.claim? index txin.prevout = some c ∧
      c.txout.nValue = value txin) :
    ∃ inputs, tx.fetchInputs v index ∅ false false = .ok inputs ∧
      tx.valuesFor inputs = tx.vin.map value := by
  obtain ⟨inputs, hfetched⟩ := exists_fetched v index tx
  have hmem : ∀ txin ∈ tx.vin, txin.prevout.hash ∈ index := by
    intro txin htxin
    obtain ⟨c, hc, -⟩ := hclaim txin htxin
    exact Finmap.mem_of_lookup_eq_some (ChainView.claim?_eq_some.mp hc).1
  refine ⟨inputs, ?_, ?_⟩
  · have hblock : tx.fetchInputs v index ∅ true false = .ok inputs := by
      refine (fetchInputs_eq_ok (Bool.true_or false) hcb).mpr ⟨fun txin htxin => ?_, ?_⟩
      · obtain ⟨c, hc, -⟩ := hclaim txin htxin
        rw [Finmap.empty_union, hc]
        rfl
      · rwa [Finmap.empty_union]
    rw [← hblock, CTransaction.fetchInputs, CTransaction.fetchInputs, foldlM_fetchInput_pool hmem]
  · rw [CTransaction.valuesFor, if_neg (by simp [hcb])]
    refine List.map_congr_left fun txin htxin => ?_
    obtain ⟨c, hc, hvalue⟩ := hclaim txin htxin
    rw [valueFor_eq (getOutputFor_of_claim hfetched htxin hc), hvalue]

/-! ## A chain that gathers its coins

Every block claims a reward, and from height 17 on a second transaction adds the reward that has just
matured to what has been gathered, so that each block creates an output worth everything gathered
so far. The outputs of 24000 such transactions are worth more than `2 ^ 63`. -/

/-- Parameters under which the lock time of a transaction is its hash. -/
def sweepParams : Params := { exampleParams with getTxHash := CTransaction.nLockTime }

/-- The reward that every block claims, which is below the subsidy of the heights up to 80000. -/
def sweepReward : ℤ := 24000000000

/-- The coinbase of a height. -/
def sweepCoinBase (n : ℕ) : CTransaction :=
  ⟨1, [⟨COutPoint.setNull, [0, 0], uintMax⟩], [⟨sweepReward, []⟩], 2 * n⟩

/-- The output that holds what has been gathered up to a height: at first the coinbase of
height 1. -/
def gathered (n : ℕ) : COutPoint := if n ≤ 16 then ⟨2, 0⟩ else ⟨2 * n + 1, 0⟩

/-- The transaction that gathers at a height: it adds the coinbase that has just matured. -/
def sweepTx (n : ℕ) : CTransaction :=
  ⟨1, [⟨gathered (n - 1), [], uintMax⟩, ⟨⟨2 * (n - 15), 0⟩, [], uintMax⟩],
    [⟨(n - 15 : ℕ) * sweepReward, []⟩], 2 * n + 1⟩

/-- The block of a height. -/
def sweepBlock (n : ℕ) : CBlock :=
  let block : CBlock :=
    { nVersion := 1, hashPrevBlock := n - 1, hashMerkleRoot := 0, nTime := 1300000000 + 60 * n,
      nBits := nProofOfWorkLimit, nNonce := n
      vtx := if n ≤ 16 then [sweepCoinBase n] else [sweepCoinBase n, sweepTx n] }
  { block with hashMerkleRoot := block.buildMerkleTree sweepParams }

/-- The blocks below a height, in the order of the file. -/
def sweepBlocks (n : ℕ) : List CBlock := (List.range n).map sweepBlock

/-- The block of a height with its index. -/
def sweepChainBlock (n : ℕ) : ChainBlock sweepParams where
  pindex := { CBlockIndex.ofBlock n 1 (blockFileSize (sweepBlocks n) + 8) (sweepBlock n) with
    nHeight := n }
  block := sweepBlock n
  hash_eq := rfl
  nTime_eq := rfl

/-- The chain up to a height. -/
def sweepChain : ℕ → List (ChainBlock sweepParams)
  | 0 => [sweepChainBlock 0]
  | n + 1 => sweepChainBlock (n + 1) :: sweepChain n

/-- A node that has stored the blocks up to a height. -/
def sweepView (n : ℕ) : ChainView where
  mapTx := ∅
  nBestHeight := n
  nAdjustedTime := 1300000000 + 60 * n
  files := ⟨[sweepBlocks (n + 1)]⟩

theorem sweepBlocks_succ (n : ℕ) : sweepBlocks (n + 1) = sweepBlocks n ++ [sweepBlock n] := by
  simp [sweepBlocks, List.range_succ]

theorem mem_blockPositions_sweepBlocks {n N : ℕ} (h : n < N) :
    (blockFileSize (sweepBlocks n) + 8, sweepBlock n) ∈ blockPositions 0 (sweepBlocks N) := by
  induction N with
  | zero => omega
  | succ N ih =>
    rw [sweepBlocks_succ, blockPositions_append, List.mem_append]
    rcases Nat.lt_succ_iff_lt_or_eq.mp h with hlt | rfl
    · exact .inl (ih hlt)
    · exact .inr (by simp)

/-- The blocks of the chain are on disk. -/
theorem sweepChainBlock_storedIn {n N : ℕ} (h : n ≤ N) : (sweepChainBlock n).StoredIn (sweepView N) := by
  refine BlockFiles.readBlock_eq_some.mpr ⟨?_, ?_⟩
  · show (BlockFiles.openBlockFile ⟨[sweepBlocks (N + 1)]⟩ 1).bind _ = _
    rw [show BlockFiles.openBlockFile ⟨[sweepBlocks (N + 1)]⟩ 1 = some (sweepBlocks (N + 1)) from rfl,
      Option.bind_some]
    exact lookup_eq_some_of_pairwise (blockPositions_pairwise 0 _)
      (mem_blockPositions_sweepBlocks (by omega))
  · show (checkProofOfWork 0 nProofOfWorkLimit).isOk = true
    decide +kernel

/-- The blocks of the chain are those of its heights. -/
theorem mem_sweepChain {n : ℕ} {c : ChainBlock sweepParams} (h : c ∈ sweepChain n) :
    ∃ k ≤ n, c = sweepChainBlock k := by
  induction n with
  | zero => exact ⟨0, le_rfl, List.mem_singleton.mp h⟩
  | succ n ih =>
    rcases List.mem_cons.mp h with rfl | h
    · exact ⟨n + 1, le_rfl, rfl⟩
    · obtain ⟨k, hk, rfl⟩ := ih h
      exact ⟨k, by omega, rfl⟩

/-- The transactions of the chain pass `CheckTransaction`. -/
theorem sweepCoinBase_check (n : ℕ) : (sweepCoinBase n).checkTransaction = .ok () := by
  rfl

theorem gathered_ne {n : ℕ} (hlow : 17 ≤ n) : gathered (n - 1) ≠ ⟨2 * (n - 15), 0⟩ := by
  intro heq
  unfold gathered at heq
  split_ifs at heq with h
  · have hhash : (2 : ℕ) = 2 * (n - 15) := congrArg COutPoint.hash heq
    omega
  · have hhash : 2 * (n - 1) + 1 = 2 * (n - 15) := congrArg COutPoint.hash heq
    omega

theorem gathered_isNull (n : ℕ) : (gathered n).isNull = false := by
  unfold gathered
  split_ifs <;> rfl

theorem sweepTx_isCoinBase (n : ℕ) : (sweepTx n).isCoinBase = false := rfl

theorem sweepTx_check {n : ℕ} (hlow : 17 ≤ n) (hhigh : n ≤ 80000) :
    (sweepTx n).checkTransaction = .ok () := by
  have hrange : moneyRange ((n - 15 : ℕ) * sweepReward) = true := by
    rw [moneyRange_iff, sweepReward, maxMoney, coin]
    omega
  obtain ⟨h0, hmax⟩ := moneyRange_iff.mp hrange
  have hout : (sweepTx n).vout.foldlM checkTxOut 0 = .ok ((n - 15 : ℕ) * sweepReward) := by
    refine foldlM_cons_eq_ok.mpr ⟨_, ?_, rfl⟩
    rw [checkTxOut, ensure_bind_eq_ok, ensure_bind_eq_ok, ensure_bind_eq_ok, zero_add, pure_eq_ok]
    exact ⟨decide_eq_true h0, decide_eq_true hmax, hrange, rfl⟩
  have hnodup : (sweepTx n).prevouts.Nodup := by
    simp [CTransaction.prevouts, sweepTx, gathered_ne hlow]
  have hvin : (sweepTx n).vin.all (fun txin => !txin.prevout.isNull) = true := by
    have hnull : (⟨2 * (n - 15), 0⟩ : COutPoint).isNull = false := by simp [COutPoint.isNull, uintMax]
    simp only [sweepTx, List.all_cons, List.all_nil, gathered_isNull, hnull]
    rfl
  have hsize : (sweepTx n).getSerializeSize = 101 := rfl
  simp only [CTransaction.checkTransaction, bind_eq_ok, ensure_eq_ok, exists_and_left, exists_const,
    decide_eq_true_eq, sweepTx_isCoinBase, hsize, Bool.false_eq_true, if_false]
  exact ⟨rfl, rfl, by decide, _, hout, hnodup, hvin⟩

/-- A loop of renamed checks succeeds when every check does. -/
theorem forM_mapError_of_forall {α : Type} {l : List α} {g : α → Result Unit} {f : Reject → Reject}
    (h : ∀ a ∈ l, g a = .ok ()) : (l.forM fun a => (g a).mapError f) = .ok () := by
  induction l with
  | nil => rfl
  | cons a l ih =>
    obtain ⟨ha, hl⟩ := List.forall_mem_cons.mp h
    exact bind_eq_ok.mpr ⟨(), mapError_eq_ok.mpr ha, ih hl⟩

/-- The blocks of the chain pass `CheckBlock`. -/
theorem sweepBlock_checkBlock {n N : ℕ} (hle : n ≤ N) (hhigh : n ≤ 80000) :
    (sweepBlock n).checkBlock sweepParams (sweepView N).nAdjustedTime = .ok () := by
  have hpow : checkProofOfWork ((sweepBlock n).getPoWHash sweepParams) (sweepBlock n).nBits = .ok () := by
    show checkProofOfWork 0 nProofOfWorkLimit = .ok ()
    rfl
  have htime : (sweepBlock n).getBlockTime ≤ (sweepView N).nAdjustedTime + 2 * 60 * 60 := by
    show ((1300000000 + 60 * n : ℕ) : ℤ) ≤ 1300000000 + 60 * N + 2 * 60 * 60
    omega
  have hroot : (sweepBlock n).hashMerkleRoot = (sweepBlock n).buildMerkleTree sweepParams := rfl
  have hcb := sweepCoinBase_check n
  simp only [CBlock.checkBlock, bind_eq_ok, ensure_eq_ok, exists_and_left, exists_const,
    decide_eq_true_eq, mapError_eq_ok, hpow, htime, hroot, and_true, true_and]
  by_cases hn : n ≤ 16
  · have hvtx : (sweepBlock n).vtx = [sweepCoinBase n] := if_pos hn
    have hsize : (sweepBlock n).getSerializeSize = 143 := by
      rw [CBlock.getSerializeSize, hvtx]
      rfl
    rw [CBlock.txHashes, hvtx, hsize]
    refine ⟨rfl, rfl, rfl, (), ?_, List.nodup_singleton _, ?_⟩
    · exact forM_mapError_of_forall (by simpa using hcb)
    · show 0 ≤ maxBlockSigops
      exact Nat.zero_le _
  · have hvtx : (sweepBlock n).vtx = [sweepCoinBase n, sweepTx n] := if_neg hn
    have hsize : (sweepBlock n).getSerializeSize = 244 := by
      rw [CBlock.getSerializeSize, hvtx]
      rfl
    have htx := sweepTx_check (n := n) (by omega) hhigh
    rw [CBlock.txHashes, hvtx, hsize]
    refine ⟨rfl, rfl, rfl, (), ?_, ?_, ?_⟩
    · exact forM_mapError_of_forall (by simpa using ⟨hcb, htx⟩)
    · show [2 * n, 2 * n + 1].Nodup
      simp
    · show 0 ≤ maxBlockSigops
      exact Nat.zero_le _

/-! ## Its ledger -/

/-- The coin of a coinbase. -/
def rewardCoin (n : ℕ) : Coin := ⟨⟨sweepReward, []⟩, n, true⟩

/-- The coin that holds what has been gathered up to a height. -/
def gatheredCoin (n : ℕ) : Coin :=
  if n ≤ 16 then rewardCoin 1 else ⟨⟨(n - 15 : ℕ) * sweepReward, []⟩, n, false⟩

/-- What the ledger of the chain up to a height has unspent. -/
structure SweepLedger (n : ℕ) (L : CoinLedger) : Prop where
  reward : ∀ k, 1 ≤ k → k ≤ n → n < k + 15 ∨ n ≤ 16 → L (2 * k, 0) = some (rewardCoin k)
  sum : 16 ≤ n → L (gathered n).coin = some (gatheredCoin n)

theorem gatheredCoin_nValue {n : ℕ} (h : 16 ≤ n) :
    (gatheredCoin n).txout.nValue = (n - 15 : ℕ) * sweepReward := by
  unfold gatheredCoin
  split_ifs with hn
  · obtain rfl : n = 16 := by omega
    rfl
  · rfl

theorem sweepChain_ne_nil (n : ℕ) : sweepChain n ≠ [] := by
  cases n <;> simp [sweepChain]

/-- What is spent at a height. -/
theorem transfer_sweepTx (n : ℕ) : (sweepTx n).transfer sweepParams n =
    ⟨2 * n + 1, [(gathered (n - 1)).coin, (2 * (n - 15), 0)],
      [⟨⟨(n - 15 : ℕ) * sweepReward, []⟩, n, false⟩]⟩ := rfl

theorem transfer_sweepCoinBase (n : ℕ) : (sweepCoinBase n).transfer sweepParams n =
    ⟨2 * n, [], [rewardCoin n]⟩ := rfl

/-- A transfer creates the coins under its key and removes those it spends. -/
theorem post_apply {K C : Type} [DecidableEq K] (L : Coins K C) (t : Transfer K C) (o : K × ℕ) :
    post L t o = if o.1 = t.key then t.creates[o.2]? else if o ∈ t.spends then none else L o := rfl

/-- The ledger after the coinbase of the next height. -/
def afterCoinBase (n : ℕ) (L : CoinLedger) : CoinLedger :=
  post L ((sweepCoinBase (n + 1)).transfer sweepParams (n + 1))

/-- What has been gathered is not in a coinbase above height 1. -/
theorem gathered_hash_ne {n k : ℕ} (hk : 2 ≤ k) : (gathered n).hash ≠ 2 * k := by
  intro heq
  unfold gathered at heq
  split_ifs at heq with h
  · replace heq : (2 : ℕ) = 2 * k := heq
    omega
  · replace heq : 2 * n + 1 = 2 * k := heq
    omega

section Step

variable {n : ℕ} {L : CoinLedger}

/-- The new coinbase leaves the other coins alone. -/
theorem SweepLedger.afterCoinBase_reward (h : SweepLedger n L) {k : ℕ} (hk : 1 ≤ k)
    (hle : k ≤ n + 1) (hlive : n < k + 15 ∨ n ≤ 16) :
    afterCoinBase n L (2 * k, 0) = some (rewardCoin k) := by
  rw [afterCoinBase, transfer_sweepCoinBase, post_apply]
  by_cases heq : k = n + 1
  · rw [if_pos (by rw [heq]), heq]
    rfl
  · rw [if_neg (show ¬2 * k = 2 * (n + 1) by omega), if_neg (List.not_mem_nil)]
    exact h.reward k hk (by omega) hlive

theorem SweepLedger.afterCoinBase_sum (h : SweepLedger n L) (hlow : 16 ≤ n) :
    afterCoinBase n L (gathered n).coin = some (gatheredCoin n) := by
  have hne : (gathered n).hash ≠ 2 * (n + 1) := gathered_hash_ne (by omega)
  rw [afterCoinBase, transfer_sweepCoinBase, post_apply, if_neg (show ¬(gathered n).coin.1 = _ from hne),
    if_neg (List.not_mem_nil)]
  exact h.sum hlow

/-- The coinbase alone keeps the description while nothing matures. -/
theorem SweepLedger.next_of_lt (h : SweepLedger n L) (hlt : n < 16) :
    SweepLedger (n + 1) (afterCoinBase n L) where
  reward k hk hle hlive := h.afterCoinBase_reward hk hle (.inr (by omega))
  sum hlow := by
    obtain rfl : n = 15 := by omega
    exact h.afterCoinBase_reward le_rfl (by omega) (.inr (by omega))

/-- **A sweep keeps the description.** -/
theorem SweepLedger.next (h : SweepLedger n L) (hlow : 16 ≤ n) :
    SweepLedger (n + 1)
      (post (afterCoinBase n L) ((sweepTx (n + 1)).transfer sweepParams (n + 1))) where
  reward k hk hle hlive := by
    have hgathered : ((2 * k, 0) : Uint256 × ℕ) ≠ (gathered n).coin := fun heq =>
      gathered_hash_ne (k := k) (by omega) (congrArg Prod.fst heq).symm
    rw [transfer_sweepTx, post_apply, if_neg (show ¬2 * k = 2 * (n + 1) + 1 by omega), if_neg]
    · exact h.afterCoinBase_reward hk hle (by omega)
    · rw [List.mem_cons, List.mem_singleton, Nat.add_sub_cancel, not_or]
      refine ⟨hgathered, fun heq => ?_⟩
      have hhash : 2 * k = 2 * (n + 1 - 15) := congrArg Prod.fst heq
      omega
  sum _ := by
    have hout : gathered (n + 1) = ⟨2 * (n + 1) + 1, 0⟩ := if_neg (by omega)
    have hcoin : gatheredCoin (n + 1) = ⟨⟨(n + 1 - 15 : ℕ) * sweepReward, []⟩, n + 1, false⟩ :=
      if_neg (by omega)
    rw [hout, hcoin, transfer_sweepTx, post_apply]
    exact if_pos rfl

end Step

/-- The ledger of the chain is as described. -/
theorem sweepLedger_chain (n : ℕ) : SweepLedger n (chainLedger sweepParams (sweepChain n)) := by
  induction n with
  | zero => exact ⟨fun k hk hle => by omega, fun h => by omega⟩
  | succ n ih =>
    rw [sweepChain, chainLedger_cons _ (sweepChain_ne_nil n)]
    by_cases hn : n + 1 ≤ 16
    · have hvtx : (sweepChainBlock (n + 1)).block.vtx = [sweepCoinBase (n + 1)] := if_pos hn
      rw [hvtx]
      exact ih.next_of_lt (by omega)
    · have hvtx : (sweepChainBlock (n + 1)).block.vtx = [sweepCoinBase (n + 1), sweepTx (n + 1)] :=
        if_neg hn
      rw [hvtx]
      exact ih.next (by omega)

theorem payable_rewardCoin {k nHeight : ℕ} (h : k + 15 ≤ nHeight) :
    (rewardCoin k).Payable nHeight where
  mature _ := h
  nonneg := show 0 ≤ sweepReward by decide
  le_maxMoney := show sweepReward ≤ maxMoney by decide

theorem payable_gatheredCoin {n : ℕ} (hlow : 16 ≤ n) (hhigh : n ≤ 80000) :
    (gatheredCoin n).Payable (n + 1) := by
  have hvalue := gatheredCoin_nValue hlow
  refine ⟨fun hcb => ?_, ?_, ?_⟩
  · unfold gatheredCoin at hcb ⊢
    split_ifs at hcb ⊢ with hn
    show 1 + 15 ≤ n + 1
    omega
  · rw [hvalue, sweepReward]
    omega
  · rw [hvalue, sweepReward, maxMoney, coin]
    omega

/-- The value that a sweep claims. -/
theorem SweepLedger.valueFrom {n : ℕ} {L : CoinLedger} (h : SweepLedger n L) (hlow : 16 ≤ n) :
    (sweepTx (n + 1)).valueFrom (afterCoinBase n L) = (n + 1 - 15 : ℕ) * sweepReward := by
  have hreward := h.afterCoinBase_reward (k := n + 1 - 15) (by omega) (by omega) (.inl (by omega))
  rw [CTransaction.valueFrom]
  show (Option.elim (afterCoinBase n L (gathered n).coin) 0 _) +
    ((Option.elim (afterCoinBase n L (2 * (n + 1 - 15), 0)) 0 _) + 0) = _
  rw [h.afterCoinBase_sum hlow, hreward, Option.elim_some, Option.elim_some, gatheredCoin_nValue hlow]
  show _ + (sweepReward + 0) = _
  push_cast [show n + 1 - 15 = n - 15 + 1 by omega]
  ring

/-- The ledger admits a sweep after the coinbase of its block. -/
theorem SweepLedger.admitted {n : ℕ} {L : CoinLedger} (h : SweepLedger n L) (hlow : 16 ≤ n)
    (hhigh : n + 1 ≤ 80000) (fVerify fStrict : Bool) :
    (sweepTx (n + 1)).Admitted sweepParams (afterCoinBase n L) (n + 1) fVerify fStrict := by
  have hreward := h.afterCoinBase_reward (k := n + 1 - 15) (by omega) (by omega) (.inl (by omega))
  have hcoins : ∀ txin ∈ (sweepTx (n + 1)).vin, ∃ c,
      afterCoinBase n L txin.prevout.coin = some c ∧ c.Payable (n + 1) := by
    intro txin htxin
    rcases List.mem_cons.mp htxin with rfl | htxin
    · exact ⟨_, h.afterCoinBase_sum hlow, payable_gatheredCoin hlow (by omega)⟩
    · obtain rfl := List.mem_singleton.mp htxin
      exact ⟨_, hreward, payable_rewardCoin (by omega)⟩
  refine ⟨hcoins, fun _ txin htxin => ?_, ?_, ?_⟩
  · obtain ⟨c, hc, -⟩ := hcoins txin.1 (List.fst_mem_of_mem_zipIdx htxin)
    exact ⟨c, hc, rfl⟩
  · rw [h.valueFrom hlow, sweepReward, maxMoney, coin]
    omega
  · rw [h.valueFrom hlow]
    show (n + 1 - 15 : ℕ) * sweepReward + 0 ≤ _
    rw [add_zero]

/-- The blocks are older than the switch time. -/
theorem exists_ledgerContext_sweep {n : ℕ} (hhigh : n + 1 ≤ 80000) (v : ChainView) :
    ∃ fVerify, (sweepChainBlock (n + 1)).ledgerContext v = ⟨n + 1, fVerify, false, false⟩ := by
  have h30 : decide (nBIP30SwitchTime < (sweepBlock (n + 1)).nTime) = false := by
    refine decide_eq_false ?_
    show ¬1349049600 < 1300000000 + 60 * (n + 1)
    omega
  have h16 : decide (nBIP30SwitchTime ≤ (sweepBlock (n + 1)).nTime) = false := by
    refine decide_eq_false ?_
    show ¬1349049600 ≤ 1300000000 + 60 * (n + 1)
    omega
  refine ⟨v.fVerify sweepParams true, ?_⟩
  have hk : (sweepChainBlock (n + 1)).ledgerContext v = ⟨n + 1, v.fVerify sweepParams true,
    decide (nBIP30SwitchTime < (sweepBlock (n + 1)).nTime),
    decide (nBIP30SwitchTime ≤ (sweepBlock (n + 1)).nTime)⟩ := rfl
  rw [hk, h30, h16]

/-- **The ledger admits the next block.** -/
theorem admitted_sweepBlock {n : ℕ} (hhigh : n + 1 ≤ 80000) (v : ChainView) :
    (sweepBlock (n + 1)).Admitted sweepParams ((sweepChainBlock (n + 1)).ledgerContext v)
      (chainLedger sweepParams (sweepChain n)) := by
  have hL := sweepLedger_chain n
  have hvalue : sweepReward ≤ getBlockValue (n + 1) 0 := by
    rw [getBlockValue_eq, if_pos (by omega), int64_eq_self (by omega) (by omega), sweepReward]
    omega
  obtain ⟨fVerify, hk⟩ := exists_ledgerContext_sweep hhigh v
  rw [hk]
  generalize hL' : chainLedger sweepParams (sweepChain n) = L at hL
  have hcb : (⟨L, 0, 0⟩ : LedgerState).Admits sweepParams ⟨n + 1, fVerify, false, false⟩ L
      (sweepCoinBase (n + 1)) := by
    refine ⟨fun h => Bool.noConfusion h, ?_, fun h => Bool.noConfusion h⟩
    show 0 ≤ maxBlockSigops
    exact Nat.zero_le _
  have hnext : (⟨L, 0, 0⟩ : LedgerState).next sweepParams ⟨n + 1, fVerify, false, false⟩
      (sweepCoinBase (n + 1)) = ⟨afterCoinBase n L, 0, 0⟩ := rfl
  have hout : (sweepBlock (n + 1)).coinbaseOut = sweepReward := by
    unfold CBlock.coinbaseOut sweepBlock
    dsimp only
    split_ifs <;> rfl
  by_cases hn : n + 1 ≤ 16
  · have hvtx : (sweepBlock (n + 1)).vtx = [sweepCoinBase (n + 1)] := if_pos hn
    refine ⟨?_, ?_⟩
    · rw [hvtx]
      exact ⟨hcb, trivial⟩
    · rw [hvtx, hout]
      exact hvalue
  · have hvtx : (sweepBlock (n + 1)).vtx = [sweepCoinBase (n + 1), sweepTx (n + 1)] := if_neg hn
    have hadm := hL.admitted (by omega) hhigh fVerify false
    have htx : (⟨afterCoinBase n L, 0, 0⟩ : LedgerState).Admits sweepParams
        ⟨n + 1, fVerify, false, false⟩ L (sweepTx (n + 1)) := by
      refine ⟨fun h => Bool.noConfusion h, ?_, fun _ => hadm⟩
      show 0 ≤ maxBlockSigops
      exact Nat.zero_le _
    have hfees : ((⟨afterCoinBase n L, 0, 0⟩ : LedgerState).next sweepParams
        ⟨n + 1, fVerify, false, false⟩ (sweepTx (n + 1))).nFees = 0 := by
      rw [LedgerState.next, sweepTx_isCoinBase, if_neg (by decide)]
      dsimp only
      rw [hL.valueFrom (by omega)]
      show int64 (0 + (_ - ((n + 1 - 15 : ℕ) * sweepReward + 0))) = 0
      rw [add_zero, sub_self]
      rfl
    refine ⟨?_, ?_⟩
    · rw [hvtx]
      exact ⟨hcb, htx, trivial⟩
    · rw [hvtx, hout, List.foldl_cons, List.foldl_cons, List.foldl_nil, hnext, hfees]
      exact hvalue

theorem sweepChain_extends (n : ℕ) : (sweepChainBlock (n + 1)).Extends (sweepChain n) where
  height c hc := by
    cases n with
    | zero =>
      obtain rfl := Option.mem_some_iff.mp hc
      rfl
    | succ n =>
      obtain rfl := Option.mem_some_iff.mp hc
      rfl
  new c hc := by
    obtain ⟨k, hk, rfl⟩ := mem_sweepChain hc
    exact Nat.ne_of_gt (Nat.lt_succ_of_le hk)

/-- **The chain is connected** up to every height below 80000. -/
theorem exists_connectedChain_sweepChain {n N : ℕ} (hle : n ≤ N) (hhigh : n ≤ 80000) :
    ∃ index, ConnectedChain sweepParams (sweepChain n) index := by
  induction n with
  | zero => exact ⟨∅, .genesis _ rfl⟩
  | succ n ih =>
    obtain ⟨index, hchain⟩ := ih (by omega) (by omega)
    have hstored : ∀ c ∈ sweepChainBlock (n + 1) :: sweepChain n, c.StoredIn (sweepView N) := by
      intro c hc
      obtain ⟨k, hk, rfl⟩ := mem_sweepChain (n := n + 1) hc
      exact sweepChainBlock_storedIn (by omega)
    have hextends := sweepChain_extends n
    have hconn := (hchain.connects_iff hextends hstored).mpr (admitted_sweepBlock hhigh (sweepView N))
    have hbase : ConnectedChain sweepParams (sweepChain n) (⟨index, ∅, none, 0⟩ : CTxDB).mapTxIndex :=
      hchain
    exact ⟨_, .connect hbase hextends hstored (connectBlock_eq_ok.mpr
      ⟨sweepBlock_checkBlock hle hhigh, hconn, ⟨rfl, .inr (rfl : Io.reliable _ = true)⟩, rfl⟩)⟩


/-- The hashes of the chain are used once. -/
theorem chainHashes_sweepChain (n : ℕ) :
    (chainHashes (sweepChain n)).Nodup ∧ ∀ h ∈ chainHashes (sweepChain n), h < 2 * n + 2 := by
  induction n with
  | zero => exact ⟨List.nodup_nil, fun h hh => by cases hh⟩
  | succ n ih =>
    obtain ⟨hnodup, hlt⟩ := ih
    have hnew : ∃ l : List ℕ, (sweepChainBlock (n + 1)).block.vtx.map
        (CTransaction.getHash sweepParams) = l ∧ l.Nodup ∧ ∀ h ∈ l, 2 * n + 2 ≤ h ∧ h < 2 * n + 4 := by
      by_cases hn : n + 1 ≤ 16
      · have hvtx : (sweepChainBlock (n + 1)).block.vtx = [sweepCoinBase (n + 1)] := if_pos hn
        refine ⟨[2 * (n + 1)], by rw [hvtx]; rfl, by simp, fun h hh => ?_⟩
        have := List.mem_singleton.mp hh
        omega
      · have hvtx : (sweepChainBlock (n + 1)).block.vtx = [sweepCoinBase (n + 1), sweepTx (n + 1)] :=
          if_neg hn
        refine ⟨[2 * (n + 1), 2 * (n + 1) + 1], by rw [hvtx]; rfl, by simp, fun h hh => ?_⟩
        simp only [List.mem_cons, List.not_mem_nil, or_false] at hh
        omega
    obtain ⟨l, hl, hlnodup, hlrange⟩ := hnew
    rw [sweepChain, chainHashes_cons _ (sweepChain_ne_nil n), hl]
    constructor
    · refine List.nodup_append.mpr ⟨hnodup, hlnodup, fun h hh h' hh' heq => ?_⟩
      exact Nat.not_lt.mpr (hlrange h' hh').1 (heq ▸ hlt h hh)
    · intro h hh
      rcases List.mem_append.mp hh with hh | hh
      · exact (hlt h hh).trans_le (show 2 * n + 2 ≤ 2 * (n + 1) + 2 by omega)
      · exact (hlrange h hh).2

/-- A block of the chain is on top of the chain below it. -/
theorem sweepChain_split {n k : ℕ} (h : k + 1 ≤ n) :
    ∃ d, sweepChain n = d ++ sweepChainBlock (k + 1) :: sweepChain k := by
  induction n with
  | zero => omega
  | succ n ih =>
    rcases Nat.lt_or_ge n (k + 1) with hlt | hge
    · obtain rfl : n = k := by omega
      exact ⟨[], rfl⟩
    · obtain ⟨d, hd⟩ := ih hge
      exact ⟨sweepChainBlock (n + 1) :: d, by rw [sweepChain, hd]; rfl⟩

theorem sweepChain_storedIn {n : ℕ} : ∀ c ∈ sweepChain n, c.StoredIn (sweepView n) := by
  intro c hc
  obtain ⟨k, hk, rfl⟩ := mem_sweepChain hc
  exact sweepChainBlock_storedIn hk

/-- The output of every sweep can be claimed. -/
theorem sweepTx_claim {n k : ℕ} {index : TxIndexMap}
    (h : ConnectedChain sweepParams (sweepChain n) index) (hlow : 17 ≤ k) (hle : k ≤ n) :
    ∃ c, (sweepView n).claim? index ⟨2 * k + 1, 0⟩ = some c ∧
      c.txout.nValue = (k - 15 : ℕ) * sweepReward := by
  obtain ⟨d, hd⟩ := sweepChain_split (n := n) (k := k - 1) (by omega)
  rw [Nat.sub_add_cancel (by omega)] at hd
  have hvtx : (sweepChainBlock k).block.vtx = [sweepCoinBase k, sweepTx k] := if_neg (by omega)
  obtain ⟨c, hc, hout⟩ := h.exists_claim (n := 0) (chainHashes_sweepChain n).1 sweepChain_storedIn hd
    (sweepChain_ne_nil _) (show sweepTx k ∈ _ by rw [hvtx]; simp) rfl
  exact ⟨c, hc, by rw [hout]⟩

/-! ## The sum that overflows -/

/-- A transaction that names the outputs of the sweeps from a height on. -/
def sumTx (nHeight nCount : ℕ) : CTransaction :=
  ⟨1, (List.range nCount).map fun i : ℕ => ⟨⟨2 * (nHeight + i) + 1, 0⟩, [], uintMax⟩, [⟨0, []⟩], 0⟩

theorem sumTx_not_null {nHeight nCount : ℕ} : ∀ txin ∈ (sumTx nHeight nCount).vin,
    txin.prevout.isNull = false := by
  intro txin htxin
  obtain ⟨i, -, rfl⟩ := List.mem_map.mp htxin
  simp [COutPoint.isNull, uintMax]

theorem sumTx_isCoinBase (nHeight nCount : ℕ) : (sumTx nHeight nCount).isCoinBase = false := by
  unfold CTransaction.isCoinBase
  split
  · rename_i txin hvin
    exact sumTx_not_null txin (by rw [hvin]; exact List.mem_singleton_self _)
  · rfl

/-- It passes `CheckTransaction` as long as it fits a block. -/
theorem sumTx_check (nHeight nCount : ℕ) (hpos : 0 < nCount) (hle : nCount ≤ 24000) :
    (sumTx nHeight nCount).checkTransaction = .ok () := by
  have hsize : (sumTx nHeight nCount).getSerializeSize ≤ maxBlockSize := by
    have hvin : ((sumTx nHeight nCount).vin.map CTxIn.getSerializeSize).sum = nCount * 41 := by
      rw [sumTx, List.map_map]
      show ((List.range nCount).map fun _ => 41).sum = _
      rw [List.map_const', List.sum_replicate, List.length_range, smul_eq_mul]
    have hcount := getSizeOfCompactSize_le (sumTx nHeight nCount).vin.length
    rw [CTransaction.getSerializeSize, hvin]
    show _ + (1 + 9) + 4 ≤ 1000000
    omega
  have hnodup : (sumTx nHeight nCount).prevouts.Nodup := by
    rw [CTransaction.prevouts, sumTx, List.map_map]
    refine List.nodup_range.map fun i j heq => ?_
    have hhash : 2 * (nHeight + i) + 1 = 2 * (nHeight + j) + 1 := congrArg COutPoint.hash heq

    omega
  have hvin : (sumTx nHeight nCount).vin.all (fun txin => !txin.prevout.isNull) = true :=
    List.all_eq_true.mpr fun txin htxin => by rw [sumTx_not_null txin htxin]; rfl
  have hne : (!(sumTx nHeight nCount).vin.isEmpty) = true := by
    simp [sumTx]
    omega
  simp only [CTransaction.checkTransaction, bind_eq_ok, ensure_eq_ok, exists_and_left, exists_const,
    decide_eq_true_eq, sumTx_isCoinBase, Bool.false_eq_true, if_false]
  exact ⟨hne, rfl, hsize, _, rfl, hnodup, hvin⟩

/-- **The memory pool fetches the outputs of the sweeps.** -/
theorem exists_fetchedOn_sumTx (n nHeight nCount : ℕ) (hn : n ≤ 80000) (hlow : 17 ≤ nHeight)
    (hle : nHeight + nCount ≤ n + 1) :
    ∃ index inputs, (sweepView n).OnChain sweepParams (sweepChain n) index ∧
      FetchedOn sweepParams (sweepChain n) index (sweepView n) (sumTx nHeight nCount) inputs ∧
      (sumTx nHeight nCount).valuesFor inputs =
        (List.range nCount).map fun i => (nHeight + i - 15 : ℕ) * sweepReward := by
  obtain ⟨index, hchain⟩ := exists_connectedChain_sweepChain le_rfl hn
  have hclaim : ∀ txin ∈ (sumTx nHeight nCount).vin, ∃ c,
      (sweepView n).claim? index txin.prevout = some c ∧
        c.txout.nValue = ((txin.prevout.hash / 2 - 15 : ℕ) : ℤ) * sweepReward := by
    intro txin htxin
    obtain ⟨i, hi, rfl⟩ := List.mem_map.mp htxin
    have hlt := List.mem_range.mp hi
    obtain ⟨c, hc, hvalue⟩ := sweepTx_claim (k := nHeight + i) hchain (by omega) (by omega)
    refine ⟨c, hc, ?_⟩
    rw [hvalue, show (2 * (nHeight + i) + 1 : ℕ) / 2 = nHeight + i by omega]
  obtain ⟨inputs, hfetch, hvalues⟩ := exists_fetchInputs_pool (sumTx_isCoinBase nHeight nCount)
    (fun txin => ((txin.prevout.hash / 2 - 15 : ℕ) : ℤ) * sweepReward) hclaim
  refine ⟨index, inputs, ⟨hchain, sweepChain_storedIn, fun hash tx h => ?_⟩, .pool hfetch, ?_⟩
  · rw [sweepView, Finmap.lookup_empty] at h
    cases h
  · rw [hvalues, sumTx, List.map_map]
    refine List.map_congr_left fun i _ => ?_
    show (((2 * (nHeight + i) + 1 : ℕ) / 2 - 15 : ℕ) : ℤ) * _ = _
    rw [show (2 * (nHeight + i) + 1 : ℕ) / 2 = nHeight + i by omega]

/-- The sum of consecutive numbers. -/
theorem sum_range_sweep (a n : ℕ) : ((List.range n).map fun i => ((a + i : ℕ) : ℤ)).sum * 2 =
    n * (2 * a + n - 1) := by
  induction n with
  | zero => simp
  | succ n ih =>
    rw [List.range_succ, List.map_append, List.sum_append, add_mul, ih]
    push_cast [List.map_singleton, List.sum_singleton]
    ring

/-- The outputs of 24000 sweeps are worth more than `2 ^ 63`. -/
theorem sum_sweeps_gt :
    2 ^ 63 < ((List.range 24000).map fun i => ((16001 + i - 15 : ℕ) : ℤ) * sweepReward).sum := by
  have hterm : ∀ i : ℕ, 16001 + i - 15 = 15986 + i := fun i => by omega
  simp only [hterm]
  rw [List.sum_map_mul_right]
  have hsum := sum_range_sweep 15986 24000
  rw [sweepReward]
  omega

/-- **The fee is not always exact.** -/
theorem not_forall_feeExact :
    ¬∀ (P : Params) (chain : List (ChainBlock P)) (index : TxIndexMap) (v : ChainView)
        (tx : CTransaction) (inputs : MapPrevTx), v.OnChain P chain index →
      FetchedOn P chain index v tx inputs → tx.checkTransaction = .ok () → tx.FeeExact inputs := by
  intro h
  obtain ⟨index, inputs, hview, hfetch, hvalues⟩ :=
    exists_fetchedOn_sumTx 40000 16001 24000 (by omega) (by omega) (by omega)
  have hcheck := sumTx_check 16001 24000 (by omega) le_rfl
  have hexact := h _ _ index _ _ inputs hview hfetch hcheck
  have hlt := ((hfetch.serves hview).exact_iff
    (CTransaction.checked_of_checkTransaction hcheck)).mp hexact
  rw [hvalues] at hlt
  exact absurd hlt (not_lt.mpr sum_sweeps_gt.le)

/-- A transaction that names one sweep. -/
theorem feeExact_iff_sumTx : ∃ inputs, (sumTx 17 1).FeeExact inputs := by
  obtain ⟨index, inputs, hview, hfetch, hvalues⟩ :=
    exists_fetchedOn_sumTx 17 17 1 (by omega) (by omega) (by omega)
  exact ⟨inputs, (hfetch.feeExact_iff hview (sumTx_check 17 1 (by omega) (by omega))).mpr (by rw [hvalues]; decide)⟩

end FoxCoin
