import FoxCoin.IndexStep

/-! # When a transaction connects

`ConnectInputs` and the transaction loop of `ConnectBlock`, characterised over the union of the
queue and the database: the conditions on the claimed outputs, and the index and the fees that
result. -/

namespace FoxCoin

open Checked Overlay

variable {P : Params} {v : ChainView} {m txdb q : TxIndexMap} {tx : CTransaction}
  {inputs : MapPrevTx} {walk : List CBlockIndex}

/-! ## Reading the fetched map -/

/-- The fetched map and the index give the same claims. -/
theorem lookup_of_claim (hfetch : v.Fetched m tx inputs) {txin : CTxIn} (htxin : txin ∈ tx.vin)
    {c : Claim} (hc : v.claim? m txin.prevout = some c) :
    inputs.lookup txin.prevout.hash = some (c.txindex, c.txPrev) := by
  obtain ⟨he, htx, -, -⟩ := ChainView.claim?_eq_some.mp hc
  rw [hfetch, if_pos (List.mem_map_of_mem htxin)]
  exact ChainView.prevTx?_eq_some.mpr ⟨he, htx⟩

theorem getOutputFor_of_claim (hfetch : v.Fetched m tx inputs) {txin : CTxIn}
    (htxin : txin ∈ tx.vin) {c : Claim} (hc : v.claim? m txin.prevout = some c) :
    getOutputFor inputs txin = .ok c.txout := by
  obtain ⟨-, -, -, hout⟩ := ChainView.claim?_eq_some.mp hc
  rw [getOutputFor, lookup_of_claim hfetch htxin hc]
  simp only [hout]

/-- `GetP2SHSigOpCount` counts the operations of the claimed outputs. -/
theorem getP2SHSigOpCount_eq (hcb : tx.isCoinBase = false) (hfetch : v.Fetched m tx inputs)
    (hclaim : ∀ txin ∈ tx.vin, (v.claim? m txin.prevout).isSome) :
    tx.getP2SHSigOpCount inputs = .ok (v.p2shSigOps m tx) := by
  rw [CTransaction.getP2SHSigOpCount, if_neg (by simp [hcb]), ChainView.p2shSigOps]
  suffices h : ∀ (l : List CTxIn), (∀ txin ∈ l, txin ∈ tx.vin) → ∀ nSigOps : ℕ,
      l.foldlM (fun nSigOps txin => do
          let prevout ← getOutputFor inputs txin
          pure (if prevout.scriptPubKey.isPayToScriptHash then
            nSigOps + prevout.scriptPubKey.getP2SHSigOpCount txin.scriptSig else nSigOps)) nSigOps =
        (.ok (nSigOps + (l.map fun txin => (v.claim? m txin.prevout).elim 0 fun c =>
          if c.txout.scriptPubKey.isPayToScriptHash then
            c.txout.scriptPubKey.getP2SHSigOpCount txin.scriptSig else 0).sum) : Result ℕ) by
    simpa using h tx.vin (fun _ h => h) 0
  intro l hl
  induction l with
  | nil => intro nSigOps; simp [pure, Except.pure]
  | cons txin l ih =>
    intro nSigOps
    have htxin := hl txin List.mem_cons_self
    obtain ⟨c, hc⟩ := Option.isSome_iff_exists.mp (hclaim txin htxin)
    rw [List.foldlM_cons, getOutputFor_of_claim hfetch htxin hc, List.map_cons, List.sum_cons, hc]
    refine (ih (fun t ht => hl t (List.mem_cons_of_mem _ ht)) _).trans ?_
    rw [Option.elim_some]
    split_ifs
    · rw [add_assoc]
    · rw [zero_add]

/-- Claimed outputs that are worth something are worth something together. -/
theorem sum_valueAt_nonneg {l : List CTxIn}
    (h : ∀ txin ∈ l, ∃ c, v.claim? m txin.prevout = some c ∧ 0 ≤ c.txout.nValue) :
    0 ≤ (l.map fun txin => v.valueAt m txin.prevout).sum := by
  refine List.sum_nonneg fun x hx => ?_
  obtain ⟨txin, htxin, rfl⟩ := List.mem_map.mp hx
  obtain ⟨c, hc, hpos⟩ := h txin htxin
  rw [ChainView.valueAt, hc, Option.elim_some]
  exact hpos

/-- `GetValueIn` is the exact sum as long as the values are valid amounts. -/
theorem getValueIn_eq (hcb : tx.isCoinBase = false) (hfetch : v.Fetched m tx inputs)
    (hclaim : ∀ txin ∈ tx.vin, ∃ c, v.claim? m txin.prevout = some c ∧ 0 ≤ c.txout.nValue)
    (hle : v.valueIn m tx ≤ maxMoney) :
    tx.getValueIn inputs = .ok (v.valueIn m tx) := by
  rw [CTransaction.getValueIn, if_neg (by simp [hcb])]
  suffices h : ∀ (l : List CTxIn), (∀ txin ∈ l, txin ∈ tx.vin) → ∀ n : ℤ, 0 ≤ n →
      n + (l.map fun txin => v.valueAt m txin.prevout).sum ≤ maxMoney →
      l.foldlM (fun nResult txin => do
          let txout ← getOutputFor inputs txin
          pure (int64 (nResult + txout.nValue))) n =
        (.ok (n + (l.map fun txin => v.valueAt m txin.prevout).sum) : Result ℤ) by
    have hsum : v.valueIn m tx = (tx.vin.map fun txin => v.valueAt m txin.prevout).sum := by
      rw [ChainView.valueIn, CTransaction.prevouts, List.map_map]
      rfl
    simpa [hsum] using h tx.vin (fun _ h => h) 0 le_rfl (by simpa [hsum] using hle)
  intro l hl
  induction l with
  | nil => intro n _ _; simp [pure, Except.pure]
  | cons txin l ih =>
    intro n hn hsum
    have htxin := hl txin List.mem_cons_self
    have hl' : ∀ t ∈ l, t ∈ tx.vin := fun t ht => hl t (List.mem_cons_of_mem _ ht)
    obtain ⟨c, hc, hpos⟩ := hclaim txin htxin
    have hval : v.valueAt m txin.prevout = c.txout.nValue := by
      rw [ChainView.valueAt, hc, Option.elim_some]
    -- the values that follow only add to the sum, so it is in range here already
    have hrest := sum_valueAt_nonneg fun t ht => hclaim t (hl' t ht)
    rw [List.map_cons, List.sum_cons, hval] at hsum ⊢
    have hint : int64 (n + c.txout.nValue) = n + c.txout.nValue := by
      refine int64_eq_self (by omega) ?_
      have : maxMoney < 2 ^ 63 := by decide
      omega
    rw [List.foldlM_cons, getOutputFor_of_claim hfetch htxin hc]
    refine (?_ : _ = _).trans ((ih hl' (n + c.txout.nValue) (by omega) (by omega)).trans ?_)
    · show List.foldlM _ (int64 (n + c.txout.nValue)) l = _
      rw [hint]
    · rw [add_assoc]

/-! ## The two loops of `ConnectInputs` -/

/-- What the first loop demands of a claimed output: a coinbase is mature, the amount is valid. -/
structure Claim.Payable (walk : List CBlockIndex) (c : Claim) : Prop where
  mature : (c.txPrev.isCoinBase && immature walk c.txindex.pos) = false
  nonneg : 0 ≤ c.txout.nValue
  le_maxMoney : c.txout.nValue ≤ maxMoney

/-- A round of the first loop. -/
theorem checkInput_eq_ok {txin : CTxIn} {c : Claim} (hc : v.claim? m txin.prevout = some c)
    (hin : inputs.lookup txin.prevout.hash = some (c.txindex, c.txPrev)) {n k : ℤ} (hn : 0 ≤ n) :
    checkInput inputs walk n txin = .ok k ↔
      c.Payable walk ∧ n + c.txout.nValue ≤ maxMoney ∧ k = n + c.txout.nValue := by
  obtain ⟨-, -, hlen, hout⟩ := ChainView.claim?_eq_some.mp hc
  rw [checkInput, hin]
  simp only [hout, ensure_bind_eq_ok, pure_eq_ok, decide_eq_true_eq, hlen, true_and,
    Bool.not_eq_true', Bool.and_eq_true, moneyRange_iff]
  constructor
  · rintro ⟨hmat, ⟨⟨h1, h2⟩, h3, h4⟩, rfl⟩
    exact ⟨⟨hmat, h1, h2⟩, h4, rfl⟩
  · rintro ⟨⟨hmat, h1, h2⟩, h4, rfl⟩
    exact ⟨hmat, ⟨⟨h1, h2⟩, by omega, h4⟩, rfl⟩

/-- The first loop accepts exactly when every claimed output is payable and the sum is a valid
amount, and it returns the sum. -/
theorem foldlM_checkInput_eq_ok {l : List CTxIn}
    (hlook : ∀ txin ∈ l, ∃ c, v.claim? m txin.prevout = some c ∧
      inputs.lookup txin.prevout.hash = some (c.txindex, c.txPrev))
    {n n' : ℤ} (hn : 0 ≤ n) (hn' : n ≤ maxMoney) :
    l.foldlM (checkInput inputs walk) n = .ok n' ↔
      (∀ txin ∈ l, ∃ c, v.claim? m txin.prevout = some c ∧ c.Payable walk) ∧
      n + (l.map fun txin => v.valueAt m txin.prevout).sum ≤ maxMoney ∧
      n' = n + (l.map fun txin => v.valueAt m txin.prevout).sum := by
  induction l generalizing n with
  | nil =>
    simp only [List.foldlM_nil, pure_eq_ok, List.not_mem_nil, false_implies, implies_true,
      List.map_nil, List.sum_nil, add_zero, hn', true_and]
    exact eq_comm
  | cons txin l ih =>
    obtain ⟨c, hc, hin⟩ := hlook txin List.mem_cons_self
    have hval : v.valueAt m txin.prevout = c.txout.nValue := by
      rw [ChainView.valueAt, hc, Option.elim_some]
    have hl' : ∀ t ∈ l, ∃ c, v.claim? m t.prevout = some c ∧
        inputs.lookup t.prevout.hash = some (c.txindex, c.txPrev) :=
      fun t ht => hlook t (List.mem_cons_of_mem _ ht)
    rw [foldlM_cons_eq_ok, List.forall_mem_cons, List.map_cons, List.sum_cons, hval]
    constructor
    · rintro ⟨k, hk, hrest⟩
      obtain ⟨hpay, hle, rfl⟩ := (checkInput_eq_ok hc hin hn).mp hk
      have hpos := hpay.nonneg
      obtain ⟨hall, hsum, rfl⟩ := (ih hl' (by omega) hle).mp hrest
      exact ⟨⟨⟨c, hc, hpay⟩, hall⟩, by omega, by omega⟩
    · rintro ⟨⟨⟨c', hc', hpay⟩, hall⟩, hsum, rfl⟩
      obtain rfl : c = c' := by rw [hc] at hc'; exact Option.some.inj hc'
      have hpos := hpay.nonneg
      have hrest := sum_valueAt_nonneg fun t ht => (hall t ht).imp fun c h => ⟨h.1, h.2.nonneg⟩
      refine ⟨_, (checkInput_eq_ok hc hin hn).mpr ⟨hpay, by omega, rfl⟩,
        (ih hl' (by omega) (by omega)).mpr ⟨hall, by omega, by omega⟩⟩

/-- What the second loop demands of an input: the output is not spent and, unless the block is below
the last checkpoint, the signature is good. -/
def Spends (P : Params) (v : ChainView) (m : TxIndexMap) (tx : CTransaction)
    (fVerify fStrictPayToScriptHash : Bool) (txin : CTxIn × ℕ) : Prop :=
  ∃ txindex txPrev, v.prevTx? m txin.1.prevout.hash = some (txindex, txPrev) ∧
    (txindex.vSpent.getD txin.1.prevout.n CDiskTxPos.setNull).isNull = true ∧
    (fVerify = true → verifySignature P txPrev tx txin.2 fStrictPayToScriptHash = true)

/-- Marking one output does not change whether another one can be spent. -/
theorem spends_markOutput {pos : CDiskTxPos} {fVerify fStrict : Bool} {txin : CTxIn × ℕ}
    {o : COutPoint} (hne : txin.1.prevout ≠ o) :
    Spends P v (markOutput pos m o) tx fVerify fStrict txin ↔
      Spends P v m tx fVerify fStrict txin := by
  unfold Spends
  rw [ChainView.prevTx?_markOutput]
  cases v.prevTx? m txin.1.prevout.hash with
  | none => simp
  | some p =>
    obtain ⟨e, txPrev⟩ := p
    have hget : ((if txin.1.prevout.hash = o.hash then e.mark o.n pos
        else e).vSpent.getD txin.1.prevout.n CDiskTxPos.setNull) =
        e.vSpent.getD txin.1.prevout.n CDiskTxPos.setNull := by
      by_cases hh : txin.1.prevout.hash = o.hash
      · have hn : o.n ≠ txin.1.prevout.n := by
          intro hn
          exact hne (by cases o; cases h : txin.1.prevout; simp_all)
        simp [hh, List.getD_eq_getElem?_getD, hn]
      · rw [if_neg hh]
    simp only [Option.map_some, Option.some.injEq, Prod.mk.injEq]
    constructor
    · rintro ⟨_, _, ⟨rfl, rfl⟩, hnull, hsig⟩
      exact ⟨e, txPrev, ⟨rfl, rfl⟩, hget ▸ hnull, hsig⟩
    · rintro ⟨_, _, ⟨rfl, rfl⟩, hnull, hsig⟩
      exact ⟨_, txPrev, ⟨rfl, rfl⟩, hget ▸ hnull, hsig⟩

/-- Whether signatures are verified: always, except in blocks below the last checkpoint. -/
def ChainView.fVerify (P : Params) (v : ChainView) (fBlock : Bool) : Bool :=
  !(fBlock && decide (v.nBestHeight < Checkpoints.getTotalBlocksEstimate P))

/-- One round of the second loop: it succeeds exactly when the input can be spent, and it marks the
output in the fetched map and in the queue. -/
theorem spendInput_eq_ok {pos : CDiskTxPos} {fBlock fMiner fStrict : Bool}
    (hmode : (fBlock || fMiner) = true) {st st' : MapPrevTx × TxIndexMap} {txin : CTxIn × ℕ}
    (hagree : st.1.lookup txin.1.prevout.hash = v.prevTx? m txin.1.prevout.hash) :
    spendInput P v tx pos fBlock fMiner fStrict st txin = .ok st' ↔
      Spends P v m tx (v.fVerify P fBlock) fStrict txin ∧
      ∃ e txPrev, v.prevTx? m txin.1.prevout.hash = some (e, txPrev) ∧
        st' = (st.1.insert txin.1.prevout.hash (e.mark txin.1.prevout.n pos, txPrev),
          st.2.insert txin.1.prevout.hash (e.mark txin.1.prevout.n pos)) := by
  unfold spendInput Spends
  rw [hagree]
  cases v.prevTx? m txin.1.prevout.hash with
  | none => simp
  | some p =>
    obtain ⟨e, txPrev⟩ := p
    have hsig : ∀ k : Result (MapPrevTx × TxIndexMap),
        (if v.fVerify P fBlock = true then
          checkSignature P txPrev tx txin.2 fStrict >>= fun _ => k else k) = .ok st' ↔
        (v.fVerify P fBlock = true → verifySignature P txPrev tx txin.2 fStrict = true) ∧
          k = .ok st' := by
      intro k
      by_cases hv : v.fVerify P fBlock = true
      · simp only [hv, if_true, checkSignature, ensure_bind_eq_ok, true_implies]
      · simp [hv]
    simp only [ensure_bind_eq_ok, Option.some.injEq, Prod.mk.injEq, hmode, if_true]
    refine (and_congr_right fun _ => hsig _).trans ?_
    rw [pure_eq_ok]
    constructor
    · rintro ⟨hnull, hs, rfl⟩
      exact ⟨⟨e, txPrev, ⟨rfl, rfl⟩, hnull, hs⟩, e, txPrev, ⟨rfl, rfl⟩, rfl⟩
    · rintro ⟨⟨_, _, ⟨rfl, rfl⟩, hnull, hs⟩, _, _, ⟨rfl, rfl⟩, rfl⟩
      exact ⟨hnull, hs, rfl⟩

/-- The second loop succeeds exactly when every input can be spent, and it marks every output. -/
theorem foldlM_spendInput_eq_ok {pos : CDiskTxPos} {fBlock fMiner fStrict : Bool}
    (hmode : (fBlock || fMiner) = true) {l : List (CTxIn × ℕ)}
    (hnodup : (l.map fun txin => txin.1.prevout).Nodup) {st : MapPrevTx × TxIndexMap}
    (hagree : ∀ txin ∈ l, st.1.lookup txin.1.prevout.hash =
      v.prevTx? (st.2 ∪ txdb) txin.1.prevout.hash) {m' : TxIndexMap} :
    (∃ st', l.foldlM (spendInput P v tx pos fBlock fMiner fStrict) st = .ok st' ∧
        st'.2 ∪ txdb = m') ↔
      (∀ txin ∈ l, Spends P v (st.2 ∪ txdb) tx (v.fVerify P fBlock) fStrict txin) ∧
        m' = markOutputs pos (st.2 ∪ txdb) (l.map fun txin => txin.1.prevout) := by
  induction l generalizing st with
  | nil =>
    simp only [List.foldlM_nil, pure_eq_ok, List.not_mem_nil, false_implies, implies_true,
      List.map_nil, markOutputs_nil, true_and, exists_eq_left']
    exact eq_comm
  | cons txin l ih =>
    rw [List.map_cons, List.nodup_cons] at hnodup
    have hstep : ∀ st', spendInput P v tx pos fBlock fMiner fStrict st txin = .ok st' ↔
        Spends P v (st.2 ∪ txdb) tx (v.fVerify P fBlock) fStrict txin ∧
        ∃ e txPrev, v.prevTx? (st.2 ∪ txdb) txin.1.prevout.hash = some (e, txPrev) ∧
          st' = (st.1.insert txin.1.prevout.hash (e.mark txin.1.prevout.n pos, txPrev),
            st.2.insert txin.1.prevout.hash (e.mark txin.1.prevout.n pos)) :=
      fun _ => spendInput_eq_ok hmode (hagree txin List.mem_cons_self)
    -- after a step the queue is the marked index, and the fetched map still agrees with it
    have hafter : ∀ e txPrev st₁, v.prevTx? (st.2 ∪ txdb) txin.1.prevout.hash = some (e, txPrev) →
        st₁ = (st.1.insert txin.1.prevout.hash (e.mark txin.1.prevout.n pos, txPrev),
          st.2.insert txin.1.prevout.hash (e.mark txin.1.prevout.n pos)) →
        st₁.2 ∪ txdb = markOutput pos (st.2 ∪ txdb) txin.1.prevout ∧
          ∀ t ∈ l, st₁.1.lookup t.1.prevout.hash =
            v.prevTx? (st₁.2 ∪ txdb) t.1.prevout.hash := by
      rintro e txPrev st₁ hp rfl
      have hunion : st.2.insert txin.1.prevout.hash (e.mark txin.1.prevout.n pos) ∪ txdb =
          markOutput pos (st.2 ∪ txdb) txin.1.prevout := by
        rw [← Finmap.insert_union, markOutput, (ChainView.prevTx?_eq_some.mp hp).1]
      refine ⟨hunion, fun t ht => ?_⟩
      show (st.1.insert _ _).lookup _ = v.prevTx? (st.2.insert _ _ ∪ txdb) _
      rw [hunion, ChainView.prevTx?_markOutput, lookup_insert_eq_ite,
        hagree t (List.mem_cons_of_mem _ ht)]
      by_cases hh : t.1.prevout.hash = txin.1.prevout.hash
      · rw [if_pos hh, hh, hp, Option.map_some, if_pos rfl]
      · simp only [if_neg hh, Prod.mk.eta, Option.map_id']
    have hrest : ∀ m₁, m₁ = markOutput pos (st.2 ∪ txdb) txin.1.prevout →
        ((∀ t ∈ l, Spends P v m₁ tx (v.fVerify P fBlock) fStrict t) ↔
          ∀ t ∈ l, Spends P v (st.2 ∪ txdb) tx (v.fVerify P fBlock) fStrict t) := by
      rintro m₁ rfl
      refine forall₂_congr fun t ht => spends_markOutput fun heq => hnodup.1 ?_
      exact heq ▸ List.mem_map_of_mem ht
    rw [List.forall_mem_cons, List.map_cons, markOutputs_cons]
    constructor
    · rintro ⟨st', hrun, hm'⟩
      obtain ⟨st₁, h₁, hrun⟩ := foldlM_cons_eq_ok.mp hrun
      obtain ⟨hspend, e, txPrev, hp, hst₁⟩ := (hstep st₁).mp h₁
      obtain ⟨hunion, hagree₁⟩ := hafter e txPrev st₁ hp hst₁
      obtain ⟨hall, hm''⟩ := (ih hnodup.2 hagree₁).mp ⟨st', hrun, hm'⟩
      exact ⟨⟨hspend, (hrest _ hunion).mp hall⟩, hm''.trans (by rw [hunion])⟩
    · rintro ⟨⟨hspend, hall⟩, hm'⟩
      obtain ⟨e, txPrev, hp, -, -⟩ := id hspend
      obtain ⟨hunion, hagree₁⟩ := hafter e txPrev _ hp rfl
      obtain ⟨st', hrun, hm''⟩ := (ih hnodup.2 hagree₁).mpr
        ⟨(hrest _ hunion).mpr hall, hm'.trans (by rw [hunion])⟩
      exact ⟨st', foldlM_cons_eq_ok.mpr ⟨_, (hstep _).mpr ⟨hspend, e, txPrev, hp, rfl⟩, hrun⟩, hm''⟩

/-- The inputs of a transaction connect to an index: every claimed output is payable and can be
spent, and the amounts cover the outputs. -/
structure CTransaction.Connects (P : Params) (v : ChainView) (m : TxIndexMap)
    (walk : List CBlockIndex) (fVerify fStrictPayToScriptHash : Bool) (tx : CTransaction) :
    Prop where
  payable : ∀ txin ∈ tx.vin, ∃ c, v.claim? m txin.prevout = some c ∧ c.Payable walk
  spends : ∀ txin ∈ tx.vin.zipIdx, Spends P v m tx fVerify fStrictPayToScriptHash txin
  valueIn_le : v.valueIn m tx ≤ maxMoney
  valueOut_le : tx.valueOut ≤ v.valueIn m tx

/-- The sum over the inputs, as the sum over the claimed outpoints. -/
theorem ChainView.valueIn_eq (v : ChainView) (m : TxIndexMap) (tx : CTransaction) :
    v.valueIn m tx = (tx.vin.map fun txin => v.valueAt m txin.prevout).sum := by
  rw [valueIn, CTransaction.prevouts, List.map_map]
  rfl

theorem zipIdx_map_prevout (tx : CTransaction) :
    (tx.vin.zipIdx.map fun txin => txin.1.prevout) = tx.prevouts := by
  rw [CTransaction.prevouts]
  conv_rhs => rw [← List.zipIdx_map_fst 0 tx.vin, List.map_map]
  rfl

/-- `ConnectInputs` accepts exactly the transactions whose inputs connect, and it marks the claimed
outputs with the position of the transaction. -/
theorem connectInputs_eq_ok {pos : CDiskTxPos} {fBlock fMiner fStrict : Bool}
    (hmode : (fBlock || fMiner) = true) (hcb : tx.isCoinBase = false) (hchk : tx.Checked)
    (hfetch : v.Fetched (q ∪ txdb) tx inputs)
    (hclaim : ∀ txin ∈ tx.vin, (v.claim? (q ∪ txdb) txin.prevout).isSome) {m' : TxIndexMap} :
    (∃ q', tx.connectInputs P v inputs q pos walk fBlock fMiner fStrict = .ok q' ∧
        q' ∪ txdb = m') ↔
      tx.Connects P v (q ∪ txdb) walk (v.fVerify P fBlock) fStrict ∧
        m' = markOutputs pos (q ∪ txdb) tx.prevouts := by
  have hlook : ∀ txin ∈ tx.vin, ∃ c, v.claim? (q ∪ txdb) txin.prevout = some c ∧
      inputs.lookup txin.prevout.hash = some (c.txindex, c.txPrev) := by
    intro txin htxin
    obtain ⟨c, hc⟩ := Option.isSome_iff_exists.mp (hclaim txin htxin)
    exact ⟨c, hc, lookup_of_claim hfetch htxin hc⟩
  have hagree : ∀ txin ∈ tx.vin.zipIdx, inputs.lookup txin.1.prevout.hash =
      v.prevTx? (q ∪ txdb) txin.1.prevout.hash := by
    intro txin htxin
    rw [hfetch, if_pos (List.mem_map_of_mem (List.fst_mem_of_mem_zipIdx htxin))]
  have hnodup : (tx.vin.zipIdx.map fun txin => txin.1.prevout).Nodup := by
    rw [zipIdx_map_prevout]
    exact hchk.prevouts_nodup
  have hspend : (∃ st', tx.vin.zipIdx.foldlM (spendInput P v tx pos fBlock fMiner fStrict)
        (inputs, q) = .ok st' ∧ st'.2 ∪ txdb = m') ↔
      (∀ txin ∈ tx.vin.zipIdx, Spends P v (q ∪ txdb) tx (v.fVerify P fBlock) fStrict txin) ∧
        m' = markOutputs pos (q ∪ txdb) (tx.vin.zipIdx.map fun txin => txin.1.prevout) :=
    foldlM_spendInput_eq_ok hmode hnodup hagree
  rw [zipIdx_map_prevout] at hspend
  have hcheck : ∀ n, tx.vin.foldlM (checkInput inputs walk) 0 = .ok n ↔
      (∀ txin ∈ tx.vin, ∃ c, v.claim? (q ∪ txdb) txin.prevout = some c ∧ c.Payable walk) ∧
        v.valueIn (q ∪ txdb) tx ≤ maxMoney ∧ n = v.valueIn (q ∪ txdb) tx := by
    intro n
    rw [foldlM_checkInput_eq_ok hlook le_rfl (by decide), zero_add, ← ChainView.valueIn_eq]
  rw [CTransaction.connectInputs, if_neg (by simp [hcb])]
  simp only [bind_eq_ok, hcheck, hchk.getValueOut_eq, Except.ok.injEq, exists_eq_left', ensure_eq_ok,
    exists_const, pure_eq_ok, decide_eq_true_eq]
  have hnonneg := hchk.valueOut_nonneg
  constructor
  · rintro ⟨q', ⟨n, ⟨hpay, hle, rfl⟩, st, hst, hout, -, -, rfl⟩, hm'⟩
    obtain ⟨hall, hm''⟩ := hspend.mp ⟨st, hst, hm'⟩
    exact ⟨⟨hpay, hall, hle, hout⟩, hm''⟩
  · rintro ⟨⟨hpay, hall, hle, hout⟩, hm'⟩
    obtain ⟨st, hst, hm''⟩ := hspend.mpr ⟨hall, hm'⟩
    refine ⟨st.2, ⟨_, ⟨hpay, hle, rfl⟩, st, hst, hout, by omega, ?_, rfl⟩, hm''⟩
    exact moneyRange_iff.mpr ⟨by omega, by omega⟩

/-! ## The transaction loop -/

/-- The outpoints a transaction spends: a coinbase spends none. -/
def CTransaction.spent (tx : CTransaction) : List COutPoint :=
  if tx.isCoinBase then [] else tx.prevouts

/-- The index after a transaction at `pos`: its inputs are marked and its own entry is added. -/
def applyTx (P : Params) (pos : CDiskTxPos) (m : TxIndexMap) (tx : CTransaction) : TxIndexMap :=
  (markOutputs pos m tx.spent).insert (tx.getHash P) (CTxIndex.ofOutputs pos tx.vout.length)

/-- The variables of the transaction loop, with the index that the queue and the database make up
together. -/
structure IndexState where
  index : TxIndexMap
  nFees : ℤ
  nSigOps : ℕ
  nTxPos : ℕ

/-- The state of the loop over a database. -/
def ConnectState.over (st : ConnectState) (txdb : TxIndexMap) : IndexState :=
  ⟨st.mapQueuedChanges ∪ txdb, st.nFees, st.nSigOps, st.nTxPos⟩

/-- The signature operations that `ConnectBlock` counts for a transaction. -/
def ChainView.sigOps (v : ChainView) (c : ConnectContext) (m : TxIndexMap) (tx : CTransaction) : ℕ :=
  tx.getLegacySigOpCount +
    if !tx.isCoinBase && c.fStrictPayToScriptHash then v.p2shSigOps m tx else 0

/-- The place of the next transaction of a block. -/
def ConnectContext.posThisTx (c : ConnectContext) (nTxPos : ℕ) : CDiskTxPos :=
  CDiskTxPos.ofFile c.pindex.nFile c.pindex.nBlockPos nTxPos

/-- What a round of the loop does when it succeeds. -/
def IndexState.next (P : Params) (v : ChainView) (c : ConnectContext) (s : IndexState)
    (tx : CTransaction) : IndexState where
  index := applyTx P (c.posThisTx s.nTxPos) s.index tx
  nFees := if tx.isCoinBase then s.nFees else int64 (s.nFees + (v.valueIn s.index tx - tx.valueOut))
  nSigOps := s.nSigOps + v.sigOps c s.index tx
  nTxPos := s.nTxPos + tx.getSerializeSize

/-- When a round of the loop succeeds: no unspent output is overwritten, the limit on signature
operations is kept, and the inputs connect. -/
structure IndexState.Connects (P : Params) (v : ChainView) (txdb : TxIndexMap) (c : ConnectContext)
    (s : IndexState) (tx : CTransaction) : Prop where
  overwrites : c.fEnforceBIP30 = true → overwritesNothing txdb (tx.getHash P) = true
  sigOps_le : s.nSigOps + v.sigOps c s.index tx ≤ maxBlockSigops
  inputs : tx.isCoinBase = false →
    tx.Connects P v s.index c.walk (v.fVerify P true) c.fStrictPayToScriptHash

/-- The fee of a transaction whose inputs connect fits in 64 bits. -/
theorem CTransaction.Connects.int64_fee {fVerify fStrict : Bool}
    (h : tx.Connects P v m walk fVerify fStrict) (hchk : tx.Checked) :
    int64 (v.valueIn m tx - tx.valueOut) = v.valueIn m tx - tx.valueOut := by
  have hmax : maxMoney < 2 ^ 63 := by decide
  have := h.valueIn_le
  have := h.valueOut_le
  have := hchk.valueOut_nonneg
  exact int64_eq_self (by omega) (by omega)

/-- The part of a round for a transaction with inputs. -/
theorem connectTxInputs_eq_ok {c : ConnectContext} (st : ConnectState) (pos : CDiskTxPos)
    (hcb : tx.isCoinBase = false) (hchk : tx.Checked) {s' : IndexState} :
    (∃ st', connectTxInputs P v txdb c st pos tx = .ok st' ∧ st'.over txdb = s') ↔
      (st.nSigOps + (if c.fStrictPayToScriptHash then v.p2shSigOps (st.mapQueuedChanges ∪ txdb) tx
          else 0) ≤ maxBlockSigops ∧
        tx.Connects P v (st.mapQueuedChanges ∪ txdb) c.walk (v.fVerify P true)
          c.fStrictPayToScriptHash) ∧
      s' = ⟨markOutputs pos (st.mapQueuedChanges ∪ txdb) tx.prevouts,
        int64 (st.nFees + (v.valueIn (st.mapQueuedChanges ∪ txdb) tx - tx.valueOut)),
        st.nSigOps + (if c.fStrictPayToScriptHash then v.p2shSigOps (st.mapQueuedChanges ∪ txdb) tx
          else 0), st.nTxPos⟩ := by
  have hp2sh : ∀ inputs : MapPrevTx,
      (∀ txin ∈ tx.vin, (v.claim? (st.mapQueuedChanges ∪ txdb) txin.prevout).isSome) →
      v.Fetched (st.mapQueuedChanges ∪ txdb) tx inputs →
      (if c.fStrictPayToScriptHash then tx.getP2SHSigOpCount inputs else pure 0) =
        .ok (if c.fStrictPayToScriptHash then v.p2shSigOps (st.mapQueuedChanges ∪ txdb) tx
          else 0) := by
    intro inputs hclaim hfetch
    rw [getP2SHSigOpCount_eq hcb hfetch hclaim]
    split_ifs <;> rfl
  simp only [connectTxInputs, bind_eq_ok, mapError_eq_ok, ensure_eq_ok, pure_eq_ok,
    hchk.getValueOut_eq, Except.ok.injEq, exists_eq_left', exists_and_left, exists_const,
    fetchInputs_eq_ok (Bool.true_or false) hcb, decide_eq_true_eq]
  constructor
  · rintro ⟨st', ⟨inputs, ⟨hclaim, hfetch⟩, nP2SH, hn, hle, nIn, hIn, q', hq', rfl⟩, rfl⟩
    rw [hp2sh inputs hclaim hfetch, Except.ok.injEq] at hn
    subst hn
    obtain ⟨hconn, hunion⟩ := (connectInputs_eq_ok (Bool.true_or false) hcb hchk hfetch hclaim).mp
      ⟨q', hq', rfl⟩
    rw [getValueIn_eq hcb hfetch (fun t ht => (hconn.payable t ht).imp fun _ h => ⟨h.1, h.2.nonneg⟩)
      hconn.valueIn_le, Except.ok.injEq] at hIn
    subst hIn
    exact ⟨⟨hle, hconn⟩, by rw [ConnectState.over, hunion, hconn.int64_fee hchk]⟩
  · rintro ⟨⟨hle, hconn⟩, rfl⟩
    have hclaim : ∀ txin ∈ tx.vin,
        (v.claim? (st.mapQueuedChanges ∪ txdb) txin.prevout).isSome := by
      intro txin htxin
      obtain ⟨cl, hcl, -⟩ := hconn.payable txin htxin
      rw [hcl]
      rfl
    -- the inputs are fetched whatever they are, and can be connected
    obtain ⟨inputs, hinputs⟩ := exists_fetched v (st.mapQueuedChanges ∪ txdb) tx
    obtain ⟨q', hq', hunion⟩ := (connectInputs_eq_ok (Bool.true_or false) hcb hchk hinputs
      hclaim).mpr ⟨hconn, rfl⟩
    refine ⟨_, ⟨inputs, ⟨hclaim, hinputs⟩, _, hp2sh inputs hclaim hinputs, hle, _,
      getValueIn_eq hcb hinputs (fun t ht => (hconn.payable t ht).imp fun _ h => ⟨h.1, h.2.nonneg⟩)
        hconn.valueIn_le, q', hq', rfl⟩, ?_⟩
    rw [ConnectState.over, hunion, hconn.int64_fee hchk]

/-- One round of the transaction loop. -/
theorem connectTx_eq_ok {c : ConnectContext} {st : ConnectState} (hchk : tx.Checked)
    {s' : IndexState} :
    (∃ st', connectTx P v txdb c st tx = .ok st' ∧ st'.over txdb = s') ↔
      (st.over txdb).Connects P v txdb c tx ∧ s' = (st.over txdb).next P v c tx := by
  have hbip30 : (!c.fEnforceBIP30 || overwritesNothing txdb (tx.getHash P)) = true ↔
      (c.fEnforceBIP30 = true → overwritesNothing txdb (tx.getHash P) = true) := by
    cases c.fEnforceBIP30 <;> simp
  simp only [connectTx, bind_eq_ok, ensure_eq_ok, pure_eq_ok, exists_and_left, exists_const,
    decide_eq_true_eq, hbip30]
  by_cases hcb : tx.isCoinBase = true
  · simp only [hcb, if_true, pure_eq_ok, exists_eq_left']
    constructor
    · rintro ⟨st', ⟨h30, hle, rfl⟩, rfl⟩
      refine ⟨⟨h30, ?_, fun h => absurd h (by simp [hcb])⟩, ?_⟩
      · simpa [ChainView.sigOps, hcb, ConnectState.over] using hle
      · simp [ConnectState.over, IndexState.next, ChainView.sigOps, applyTx, CTransaction.spent, hcb,
          ConnectContext.posThisTx, Finmap.insert_union]
    · rintro ⟨⟨h30, hle, -⟩, rfl⟩
      refine ⟨_, ⟨h30, ?_, rfl⟩, ?_⟩
      · simpa [ChainView.sigOps, hcb, ConnectState.over] using hle
      · simp [ConnectState.over, IndexState.next, ChainView.sigOps, applyTx, CTransaction.spent, hcb,
          ConnectContext.posThisTx, Finmap.insert_union]
  · rw [Bool.not_eq_true] at hcb
    simp only [hcb, Bool.false_eq_true, if_false]
    constructor
    · rintro ⟨st', ⟨h30, -, st₁, hst₁, rfl⟩, rfl⟩
      obtain ⟨⟨hle, hconn⟩, hover⟩ := (connectTxInputs_eq_ok _ _ hcb hchk).mp ⟨st₁, hst₁, rfl⟩
      rw [ConnectState.over, IndexState.mk.injEq] at hover
      obtain ⟨hindex, hfees, hops, hpos⟩ := hover
      refine ⟨⟨h30, ?_, fun _ => hconn⟩, ?_⟩
      · simpa [ChainView.sigOps, hcb, ConnectState.over, add_assoc] using hle
      · simp [ConnectState.over, IndexState.next, ChainView.sigOps, applyTx, CTransaction.spent, hcb,
          ConnectContext.posThisTx, ← Finmap.insert_union, hindex, hfees, hops, hpos, add_assoc]
    · rintro ⟨⟨h30, hle, hconn⟩, rfl⟩
      -- the limit holds before the operations of the redeem scripts are added, and after
      have hle' : st.nSigOps + (tx.getLegacySigOpCount +
          if c.fStrictPayToScriptHash then v.p2shSigOps (st.mapQueuedChanges ∪ txdb) tx else 0) ≤
            maxBlockSigops := by
        simpa [ChainView.sigOps, hcb, ConnectState.over] using hle
      obtain ⟨st₁, hst₁, hover⟩ := (connectTxInputs_eq_ok
        { st with
          nSigOps := st.nSigOps + tx.getLegacySigOpCount
          nTxPos := st.nTxPos + tx.getSerializeSize }
        (c.posThisTx st.nTxPos) hcb hchk).mpr ⟨⟨by simpa [add_assoc] using hle', hconn hcb⟩, rfl⟩
      rw [ConnectState.over, IndexState.mk.injEq] at hover
      obtain ⟨hindex, hfees, hops, hpos⟩ := hover
      refine ⟨_, ⟨h30, by omega, st₁, hst₁, rfl⟩, ?_⟩
      simp [ConnectState.over, IndexState.next, ChainView.sigOps, applyTx, CTransaction.spent, hcb,
        ConnectContext.posThisTx, ← Finmap.insert_union, hindex, hfees, hops, hpos, add_assoc]

/-! ## The loop and the block -/

/-- When every round of the loop succeeds, each on what the rounds before it leave. -/
def IndexState.ConnectsAll (P : Params) (v : ChainView) (txdb : TxIndexMap) (c : ConnectContext) :
    IndexState → List CTransaction → Prop
  | _, [] => True
  | s, tx :: vtx => s.Connects P v txdb c tx ∧ (s.next P v c tx).ConnectsAll P v txdb c vtx

/-- The transaction loop. -/
theorem foldlM_connectTx_eq_ok {c : ConnectContext} {vtx : List CTransaction}
    (hchk : ∀ tx ∈ vtx, tx.Checked) {st : ConnectState} {s' : IndexState} :
    (∃ st', vtx.foldlM (connectTx P v txdb c) st = .ok st' ∧ st'.over txdb = s') ↔
      (st.over txdb).ConnectsAll P v txdb c vtx ∧
        s' = vtx.foldl (IndexState.next P v c) (st.over txdb) := by
  induction vtx generalizing st with
  | nil =>
    simp only [List.foldlM_nil, pure_eq_ok, exists_eq_left', IndexState.ConnectsAll, true_and,
      List.foldl_nil]
    exact eq_comm
  | cons tx vtx ih =>
    obtain ⟨htx, hvtx⟩ := List.forall_mem_cons.mp hchk
    simp only [foldlM_cons_eq_ok, IndexState.ConnectsAll, List.foldl_cons]
    constructor
    · rintro ⟨st', ⟨st₁, h₁, hrest⟩, hs'⟩
      obtain ⟨hconn, hnext⟩ := (connectTx_eq_ok htx).mp ⟨st₁, h₁, rfl⟩
      rw [← hnext]
      obtain ⟨hall, hs''⟩ := (ih hvtx).mp ⟨st', hrest, hs'⟩
      exact ⟨⟨hconn, hall⟩, hs''⟩
    · rintro ⟨⟨hconn, hall⟩, hs'⟩
      obtain ⟨st₁, h₁, hnext⟩ := (connectTx_eq_ok htx).mpr ⟨hconn, rfl⟩
      rw [← hnext] at hall hs'
      obtain ⟨st', hrest, hs''⟩ := (ih hvtx).mpr ⟨hall, hs'⟩
      exact ⟨st', ⟨st₁, h₁, hrest⟩, hs''⟩

/-- The state in which the loop starts on a block. -/
def CBlock.startState (block : CBlock) (pindex : CBlockIndex) (index : TxIndexMap) : IndexState :=
  ⟨index, 0, 0, pindex.nBlockPos + emptyBlockSize - 1 + getSizeOfCompactSize block.vtx.length⟩

/-- The state in which the loop ends. -/
def CBlock.endState (P : Params) (v : ChainView) (block : CBlock) (pindex : CBlockIndex)
    (vPrev : List CBlockIndex) (index : TxIndexMap) : IndexState :=
  block.vtx.foldl (IndexState.next P v (ConnectContext.ofIndex pindex vPrev))
    (block.startState pindex index)

/-- The sum of the outputs of the first transaction, the coinbase. -/
def CBlock.coinbaseOut (block : CBlock) : ℤ := (block.vtx.headD ⟨1, [], [], 0⟩).valueOut

/-- When a block that passes `CheckBlock` connects to an index: its transactions connect one after
the other, and its coinbase does not claim more than the subsidy and the fees. -/
structure CBlock.Connects (P : Params) (v : ChainView) (block : CBlock) (pindex : CBlockIndex)
    (vPrev : List CBlockIndex) (index : TxIndexMap) : Prop where
  transactions : (block.startState pindex index).ConnectsAll P v index
    (ConnectContext.ofIndex pindex vPrev) block.vtx
  coinbase_le : block.coinbaseOut ≤
    getBlockValue pindex.nHeight (block.endState P v pindex vPrev index).nFees

/-- The database writes of `ConnectBlock` and `DisconnectBlock` at an index succeed. -/
def Io.WritesIndex (io : Io) (pindex : CBlockIndex) (vPrev : List CBlockIndex) : Prop :=
  io (.updateTxIndex pindex.phashBlock) = true ∧
    (vPrev = [] ∨ io (.writeBlockIndex pindex.phashBlock) = true)

/-- **`ConnectBlock` succeeds exactly when** the block passes `CheckBlock` and connects to the
index, and the database writes succeed; the index is then the one the transaction loop ends in. -/
theorem connectBlock_eq_ok {io : Io} {db db' : CTxDB} {block : CBlock} {pindex : CBlockIndex}
    {vPrev : List CBlockIndex} :
    block.connectBlock P v io db pindex vPrev = .ok db' ↔
      block.checkBlock P v.nAdjustedTime = .ok () ∧
      block.Connects P v pindex vPrev db.mapTxIndex ∧
      io.WritesIndex pindex vPrev ∧
      db' = { db with
        mapTxIndex := (block.endState P v pindex vPrev db.mapTxIndex).index }.writeNext P
          vPrev.head? pindex.phashBlock := by
  have hempty : ∀ index : TxIndexMap, (⟨∅, 0, 0, pindex.nBlockPos + emptyBlockSize - 1 +
      getSizeOfCompactSize block.vtx.length⟩ : ConnectState).over index =
        block.startState pindex index := by
    intro index
    rw [ConnectState.over, CBlock.startState, Finmap.empty_union]
  have hnil : vPrev.isEmpty = true ↔ vPrev = [] := List.isEmpty_iff
  simp only [CBlock.connectBlock, bind_eq_ok, mapError_eq_ok, ensure_eq_ok, pure_eq_ok,
    exists_and_left, exists_const, decide_eq_true_eq, Bool.or_eq_true, hnil]
  have hout : ∀ {n : ℤ}, block.Checked P →
      ((block.vtx.headD ⟨1, [], [], 0⟩).getValueOut = .ok n ↔ n = block.coinbaseOut) := by
    intro n hchk
    obtain ⟨tx, vtx, hvtx⟩ := List.exists_cons_of_ne_nil hchk.vtx_ne_nil
    have htx := hchk.tx_checked tx (by rw [hvtx]; exact List.mem_cons_self)
    rw [CBlock.coinbaseOut, hvtx, List.headD_cons, htx.getValueOut_eq, Except.ok.injEq]
    exact eq_comm
  constructor
  · rintro ⟨⟨⟩, hcheck, st, hst, hupd, n, hn, hle, hwrite, rfl⟩
    have hchk := CBlock.checked_of_checkBlock hcheck
    -- the queue over the database is the ledger after the last transaction
    obtain ⟨hall, hend⟩ := (foldlM_connectTx_eq_ok hchk.tx_checked).mp ⟨st, hst, rfl⟩
    rw [hempty] at hall hend
    obtain rfl := (hout hchk).mp hn
    have hover : st.over db.mapTxIndex = block.endState P v pindex vPrev db.mapTxIndex := hend
    refine ⟨hcheck, ⟨hall, ?_⟩, ⟨hupd, hwrite⟩, ?_⟩
    · rw [← hover]
      exact hle
    · rw [← hover]
      rfl
  · rintro ⟨hcheck, ⟨hall, hle⟩, ⟨hupd, hwrite⟩, rfl⟩
    have hchk := CBlock.checked_of_checkBlock hcheck
    rw [← hempty] at hall
    obtain ⟨st, hst, hend⟩ := (foldlM_connectTx_eq_ok hchk.tx_checked).mpr ⟨hall, rfl⟩
    rw [hempty] at hend
    have hover : st.over db.mapTxIndex = block.endState P v pindex vPrev db.mapTxIndex := hend
    refine ⟨(), hcheck, st, hst, hupd, _, (hout hchk).mpr rfl, ?_, hwrite, ?_⟩
    · rw [← hover] at hle
      exact hle
    · rw [← hover]
      rfl

end FoxCoin
