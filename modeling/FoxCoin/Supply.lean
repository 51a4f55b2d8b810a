import FoxCoin.SpendOrder
import Mathlib.Algebra.BigOperators.Intervals

/-! # The money supply

The total of the unspent outputs of the transaction index never exceeds the subsidies of the blocks
that were connected: only a coinbase adds to it, and a coinbase may claim at most the subsidy and
the fees of its block, which are the exact difference of what its transactions claim and create. -/

namespace FoxCoin

open Checked Overlay Ledger

/-! ## The subsidy -/

/-- An integer is truncated to itself. -/
theorem truncate_intCast (n : ℤ) : truncate n = n := by
  simp [truncate]

/-- The subsidy in base units, without the detour over coins. -/
theorem getBlockValue_eq (nHeight : ℕ) (nFees : ℤ) :
    getBlockValue nHeight nFees =
      int64 ((if nHeight < 1960000 then 25000000000 - 12500 * (nHeight : ℤ) else 500000000) + nFees) := by
  have hsubsidy : truncate ((250 - (nHeight : ℚ) * (125 / 1000000)) * coin) =
      25000000000 - 12500 * (nHeight : ℤ) := by
    rw [← truncate_intCast (25000000000 - 12500 * (nHeight : ℤ))]
    congr 1
    push_cast [coin]
    ring
  rw [getBlockValue, hsubsidy]
  rfl

/-- The subsidy is positive, and from height 1960000 on it is five coins. -/
theorem subsidy_bounds (nHeight : ℕ) :
    0 ≤ getBlockValue nHeight 0 ∧ getBlockValue nHeight 0 ≤ 25000000000 ∧
      (1960000 ≤ nHeight → getBlockValue nHeight 0 = 500000000) := by
  rw [getBlockValue_eq]
  split_ifs with h
  · rw [int64_eq_self (by omega) (by omega)]
    omega
  · rw [int64_eq_self (by omega) (by omega)]
    omega

/-- Fees are added to the subsidy exactly, as long as they are far from the limit of 64 bits. -/
theorem getBlockValue_eq_add {nHeight : ℕ} {nFees : ℤ} (hnonneg : 0 ≤ nFees)
    (hlt : nFees < 2 ^ 62) : getBlockValue nHeight nFees = getBlockValue nHeight 0 + nFees := by
  rw [getBlockValue_eq, getBlockValue_eq]
  split_ifs with h
  · rw [int64_eq_self (by omega) (by omega), int64_eq_self (by omega) (by omega)]
    omega
  · rw [int64_eq_self (by omega) (by omega), int64_eq_self (by omega) (by omega)]
    omega

/-- The sum of the subsidies of the heights from one on. -/
def subsidies (nHeight : ℕ) : ℤ := (Finset.Icc 1 nHeight).sum fun h => getBlockValue h 0

@[simp] theorem subsidies_zero : subsidies 0 = 0 := rfl

theorem subsidies_succ (n : ℕ) : subsidies (n + 1) = subsidies n + getBlockValue (n + 1) 0 := by
  rw [subsidies, subsidies, Finset.sum_Icc_succ_top (by omega)]

/-- All the subsidies up to a height that an `int` can hold fit in 64 bits, with room to spare. -/
theorem subsidies_lt {n : ℕ} (hn : n < 2 ^ 31) : subsidies n < 2 ^ 61 := by
  have hbound : subsidies n ≤ 500000000 * n + 24500000000 * (min n 1960000 : ℕ) := by
    clear hn
    induction n with
    | zero => simp
    | succ n ih =>
      obtain ⟨-, hle, heq⟩ := subsidy_bounds (n + 1)
      rw [subsidies_succ]
      rcases Nat.lt_or_ge (n + 1) 1960000 with h | h
      · push_cast
        omega
      · rw [heq h]
        push_cast
        omega
  omega

/-! ## The unspent total -/

/-- The values of the outputs that are not marked as spent. -/
def unspentOutputs (vSpent : List CDiskTxPos) (vout : List CTxOut) : ℤ :=
  (List.zipWith (fun pos txout => if pos.isNull then txout.nValue else 0) vSpent vout).sum

/-- The unspent value behind an index entry. -/
def ChainView.unspentValue (v : ChainView) (hash : Uint256) (e : CTxIndex) : ℤ :=
  (v.readPrev hash e).elim 0 fun tx => unspentOutputs e.vSpent tx.vout

/-- **The money supply**: the sum of the values of all unspent outputs that the index records. -/
def ChainView.unspentTotal (v : ChainView) (m : TxIndexMap) : ℤ := total v.unspentValue m

/-- Spending an output takes its value out. -/
theorem unspentOutputs_set {vSpent : List CDiskTxPos} {vout : List CTxOut} {n : ℕ}
    {pos pos' : CDiskTxPos} {txout : CTxOut} (hspent : vSpent[n]? = some pos')
    (hnull : pos'.isNull = true) (hout : vout[n]? = some txout) (hpos : pos.isNull = false) :
    unspentOutputs (vSpent.set n pos) vout = unspentOutputs vSpent vout - txout.nValue := by
  unfold unspentOutputs
  induction vSpent generalizing n vout with
  | nil => cases hspent
  | cons p vSpent ih =>
    cases vout with
    | nil => cases hout
    | cons out vout =>
      cases n with
      | zero =>
        obtain rfl : p = pos' := by simpa using hspent
        obtain rfl : out = txout := by simpa using hout
        simp [hnull, hpos]
      | succ n =>
        have hrest := @ih vout n (by simpa using hspent) (by simpa using hout)
        simp only [List.set_cons_succ, List.zipWith_cons_cons, List.sum_cons, hrest]
        ring

/-- The outputs of a new transaction are all unspent. -/
theorem unspentOutputs_replicate (vout : List CTxOut) :
    unspentOutputs (List.replicate vout.length CDiskTxPos.setNull) vout =
      (vout.map CTxOut.nValue).sum := by
  unfold unspentOutputs
  induction vout with
  | nil => rfl
  | cons out vout ih =>
    rw [List.length_cons, List.replicate_succ, List.zipWith_cons_cons, List.sum_cons, ih]
    simp

/-- Outputs that are not negative have an unspent value that is not negative. -/
theorem unspentOutputs_nonneg {vSpent : List CDiskTxPos} {vout : List CTxOut}
    (h : ∀ txout ∈ vout, 0 ≤ txout.nValue) : 0 ≤ unspentOutputs vSpent vout := by
  refine List.sum_nonneg fun x hx => ?_
  obtain ⟨i, hi, rfl⟩ := List.mem_iff_getElem.mp hx
  rw [List.getElem_zipWith]
  split_ifs
  · exact h _ (List.getElem_mem _)
  · exact le_rfl

/-! ## What a transaction does to the total -/

variable {P : Params} {v : ChainView} {Placed : Placement} {m : TxIndexMap} {L : CoinLedger}
  {tx : CTransaction}

/-- The transactions behind the index entries have outputs that are not negative. -/
def NonnegOutputs (v : ChainView) (m : TxIndexMap) : Prop :=
  ∀ hash e tx, m.lookup hash = some e → v.readPrev hash e = some tx → ∀ txout ∈ tx.vout, 0 ≤ txout.nValue

theorem NonnegOutputs.unspentValue_nonneg (h : NonnegOutputs v m) {hash : Uint256} {e : CTxIndex}
    (he : m.lookup hash = some e) : 0 ≤ v.unspentValue hash e := by
  unfold ChainView.unspentValue
  cases hread : v.readPrev hash e with
  | none => exact le_rfl
  | some tx => exact unspentOutputs_nonneg (h hash e tx he hread)

/-- The total is not negative. -/
theorem NonnegOutputs.unspentTotal_nonneg (h : NonnegOutputs v m) : 0 ≤ v.unspentTotal m :=
  total_nonneg fun _ _ he => h.unspentValue_nonneg he

/-- A transaction with valid outputs keeps the outputs behind the index not negative. -/
theorem NonnegOutputs.applyTx {pos : CDiskTxPos} (h : NonnegOutputs v m) (hchk : tx.Checked)
    (hread : v.readPrev (tx.getHash P) (CTxIndex.ofOutputs pos tx.vout.length) = some tx) :
    NonnegOutputs v (applyTx P pos m tx) := by
  intro hash e tx' he hread'
  rw [FoxCoin.applyTx, lookup_insert_eq_ite] at he
  by_cases hh : hash = tx.getHash P
  · rw [if_pos hh, Option.some.injEq] at he
    subst hh he
    rw [hread, Option.some.injEq] at hread'
    subst hread'
    exact fun txout htxout => (hchk.value_range txout htxout).1
  · rw [if_neg hh, lookup_markOutputs, Option.map_eq_some_iff] at he
    obtain ⟨e, he, rfl⟩ := he
    refine h hash e tx' he ?_
    rw [ChainView.readPrev, CTxIndex.markAll_pos] at hread'
    exact hread'

/-- Marking a coin of the ledger as spent takes its value out of the total. -/
theorem Refines.unspentTotal_markOutput {pos : CDiskTxPos} (hR : Refines P v Placed m L)
    (hpos : pos.isNull = false) {o : COutPoint} {c : Coin} (hc : L o.coin = some c) :
    v.unspentTotal (markOutput pos m o) = v.unspentTotal m - c.txout.nValue := by
  obtain ⟨cl, hcl, hmatch⟩ := hR.exists_claim hc
  obtain ⟨he, hread, hlen, hout⟩ := ChainView.claim?_eq_some.mp hcl
  have hspent := List.getElem?_eq_getElem hlen
  have hnull : (cl.txindex.vSpent[o.n]).isNull = true := by
    have := hmatch.unspent
    rwa [List.getD_eq_getElem?_getD, hspent, Option.getD_some] at this
  have hread' : v.readPrev o.hash (cl.txindex.mark o.n pos) = some cl.txPrev := hread
  simp only [ChainView.unspentTotal, markOutput, he, total_insert, weightAt, Option.elim_some,
    ChainView.unspentValue, hread, hread', CTxIndex.mark_vSpent,
    unspentOutputs_set hspent hnull hout hpos, hmatch.txout_eq]
  ring

/-- The value of a list of outpoints on a ledger. -/
def coinValues (L : CoinLedger) (os : List COutPoint) : ℤ :=
  (os.map fun o => (L o.coin).elim 0 fun c => c.txout.nValue).sum

/-- Marking distinct coins of the ledger takes their values out of the total. -/
theorem Refines.unspentTotal_markOutputs {pos : CDiskTxPos} (hpos : pos.isNull = false)
    {os : List COutPoint} (hnodup : os.Nodup) (hR : Refines P v Placed m L)
    (hcoin : ∀ o ∈ os, ∃ c, L o.coin = some c) :
    v.unspentTotal (FoxCoin.markOutputs pos m os) = v.unspentTotal m - coinValues L os := by
  induction os generalizing m L with
  | nil => simp [coinValues]
  | cons o os ih =>
    obtain ⟨hnotin, hnodup'⟩ := List.nodup_cons.mp hnodup
    obtain ⟨⟨c, hc⟩, hrest⟩ := List.forall_mem_cons.mp hcoin
    have hR' : Refines P v Placed (markOutput pos m o) (spend L [o.coin]) :=
      hR.markOutputs hpos [o]
    have hsame : ∀ o' ∈ os, spend L [o.coin] o'.coin = L o'.coin := by
      intro o' ho'
      refine if_neg fun hmem => hnotin ?_
      rw [List.mem_singleton] at hmem
      exact COutPoint.coin_injective hmem ▸ ho'
    have hvalues : coinValues (spend L [o.coin]) os = coinValues L os := by
      refine congrArg List.sum (List.map_congr_left fun o' ho' => ?_)
      rw [hsame o' ho']
    rw [markOutputs_cons, ih hnodup' hR' fun o' ho' => by rw [hsame o' ho']; exact hrest o' ho',
      hR.unspentTotal_markOutput hpos hc, hvalues, coinValues, coinValues, List.map_cons,
      List.sum_cons, hc, Option.elim_some]
    ring

/-- The value that a transaction takes out of a ledger: nothing for a coinbase. -/
def CTransaction.spentFrom (L : CoinLedger) (tx : CTransaction) : ℤ :=
  if tx.isCoinBase then 0 else tx.valueFrom L

/-- **A transaction adds at most what it creates less what it spends.** -/
theorem Refines.unspentTotal_applyTx {pos : CDiskTxPos} {nHeight : ℕ} (hR : Refines P v Placed m L)
    (hnonneg : NonnegOutputs v m) (hchk : tx.Checked) (hpos : pos.Holds P v Placed nHeight tx)
    (hcoin : tx.isCoinBase = false → ∀ txin ∈ tx.vin, ∃ c, L txin.prevout.coin = some c) :
    v.unspentTotal (FoxCoin.applyTx P pos m tx) ≤
      v.unspentTotal m - tx.spentFrom L + tx.valueOut := by
  have hmark : v.unspentTotal (FoxCoin.markOutputs pos m tx.spent) =
      v.unspentTotal m - tx.spentFrom L := by
    cases hcb : tx.isCoinBase with
    | true => simp [CTransaction.spent, CTransaction.spentFrom, hcb]
    | false =>
      have hspent : tx.spent = tx.prevouts := by rw [CTransaction.spent, if_neg (by simp [hcb])]
      rw [hspent, hR.unspentTotal_markOutputs hpos.notNull hchk.prevouts_nodup, coinValues,
        CTransaction.prevouts, List.map_map, CTransaction.spentFrom, if_neg (by simp [hcb])]
      · rfl
      · intro o ho
        obtain ⟨txin, htxin, rfl⟩ := List.mem_map.mp ho
        exact hcoin hcb txin htxin
  have hold : 0 ≤ weightAt v.unspentValue (FoxCoin.markOutputs pos m tx.spent) (tx.getHash P) := by
    unfold weightAt
    cases he : (FoxCoin.markOutputs pos m tx.spent).lookup (tx.getHash P) with
    | none => exact le_rfl
    | some e =>
      rw [lookup_markOutputs, Option.map_eq_some_iff] at he
      obtain ⟨e, he, rfl⟩ := he
      rw [Option.elim_some, ChainView.unspentValue]
      cases hread : v.readPrev (tx.getHash P) (e.markAll (tx.getHash P) pos tx.spent) with
      | none => exact le_rfl
      | some tx' =>
        refine unspentOutputs_nonneg (hnonneg _ e tx' he ?_)
        rw [ChainView.readPrev, CTxIndex.markAll_pos] at hread
        exact hread
  have hnew : v.unspentValue (tx.getHash P) (CTxIndex.ofOutputs pos tx.vout.length) = tx.valueOut := by
    rw [ChainView.unspentValue, hpos.read, Option.elim_some]
    exact unspentOutputs_replicate tx.vout
  have hinsert : v.unspentTotal (FoxCoin.applyTx P pos m tx) =
      v.unspentTotal (FoxCoin.markOutputs pos m tx.spent) -
        weightAt v.unspentValue (FoxCoin.markOutputs pos m tx.spent) (tx.getHash P) +
        v.unspentValue (tx.getHash P) (CTxIndex.ofOutputs pos tx.vout.length) :=
    total_insert _ _ _ _
  rw [hinsert, hnew, hmark]
  omega

/-! ## What a block does to the total -/

/-- The exact fees of a list of transactions: what they claim less what they create. -/
def LedgerState.fees (P : Params) (k : LedgerContext) : LedgerState → List CTransaction → ℤ
  | _, [] => 0
  | s, tx :: vtx =>
    (if tx.isCoinBase then 0 else tx.valueFrom s.coins - tx.valueOut) + (s.next P k tx).fees P k vtx

/-- The exact fees of a list of transactions, as the transaction loop of `ConnectBlock` reads the
claimed values from the index. -/
def IndexState.fees (P : Params) (v : ChainView) (c : ConnectContext) :
    IndexState → List CTransaction → ℤ
  | _, [] => 0
  | s, tx :: vtx =>
    (if tx.isCoinBase then 0 else v.valueIn s.index tx - tx.valueOut) +
      (s.next P v c tx).fees P v c vtx

section Block

variable {k : LedgerContext} {txdb : TxIndexMap} {L₀ : CoinLedger} {c : ConnectContext}
  {v₀ : ChainView}

/-- The coins an admitted transaction claims are there. -/
theorem LedgerState.Admits.exists_coin {s : LedgerState} (h : s.Admits P k L₀ tx) :
    tx.isCoinBase = false → ∀ txin ∈ tx.vin, ∃ c, s.coins txin.prevout.coin = some c :=
  fun hcb txin htxin => ((h.inputs hcb).payable txin htxin).imp fun _ h => h.1

/-- The loop keeps the outputs behind the index not negative. -/
theorem NonnegOutputs.foldl_next {nHeight : ℕ} {vtx : List CTransaction} {s : IndexState}
    (h : NonnegOutputs v s.index) (hchk : ∀ tx ∈ vtx, tx.Checked)
    (hpos : ∀ p ∈ txPositions s.nTxPos vtx, (c.posThisTx p.1).Holds P v Placed nHeight p.2) :
    NonnegOutputs v (vtx.foldl (IndexState.next P v₀ c) s).index := by
  induction vtx generalizing s with
  | nil => exact h
  | cons tx vtx ih =>
    obtain ⟨htx, hvtx⟩ := List.forall_mem_cons.mp hpos
    obtain ⟨htx', hvtx'⟩ := List.forall_mem_cons.mp hchk
    exact ih (h.applyTx htx' htx.read) hvtx' hvtx

/-- **Fees are exact and paid out of the total**: along transactions other than coinbases, the total
and the fees together do not increase, and no addition wraps. -/
theorem foldl_next_total {vtx : List CTransaction} {s : IndexState} {s' : LedgerState} {B : ℤ}
    (hR : Refines P v Placed s.index s'.coins) (hnonneg : NonnegOutputs v s.index)
    (hchk : ∀ tx ∈ vtx, tx.Checked) (hcb : ∀ tx ∈ vtx, tx.isCoinBase = false)
    (hpos : ∀ p ∈ txPositions s.nTxPos vtx, (c.posThisTx p.1).Holds P v Placed k.nHeight p.2)
    (hadm : s'.AdmitsAll P k L₀ vtx) (hfees : 0 ≤ s'.nFees)
    (hle : v.unspentTotal s.index + s'.nFees ≤ B) (hB : B < 2 ^ 63) :
    let s₁ := vtx.foldl (IndexState.next P v₀ c) s
    let s₁' := vtx.foldl (LedgerState.next P k) s'
    s₁'.nFees = s'.nFees + s'.fees P k vtx ∧ 0 ≤ s₁'.nFees ∧
      v.unspentTotal s₁.index + s₁'.nFees ≤ B := by
  induction vtx generalizing s s' with
  | nil => exact ⟨by simp [LedgerState.fees], hfees, hle⟩
  | cons tx vtx ih =>
    obtain ⟨htx, hvtx⟩ := List.forall_mem_cons.mp hpos
    obtain ⟨htx', hvtx'⟩ := List.forall_mem_cons.mp hchk
    obtain ⟨hcbtx, hcb'⟩ := List.forall_mem_cons.mp hcb
    replace htx : (c.posThisTx s.nTxPos).Holds P v Placed k.nHeight tx := htx
    have hstep := hR.unspentTotal_applyTx hnonneg htx' htx hadm.1.exists_coin
    have hnonneg' := hnonneg.applyTx htx' htx.read
    have htotal := hnonneg'.unspentTotal_nonneg
    have hcover := (hadm.1.inputs hcbtx).valueOut_le
    have hspent : tx.spentFrom s'.coins = tx.valueFrom s'.coins := if_neg (by simp [hcbtx])
    rw [hspent] at hstep
    have hexact : (s'.next P k tx).nFees = s'.nFees + (tx.valueFrom s'.coins - tx.valueOut) := by
      rw [LedgerState.next, hcbtx]
      exact int64_eq_self (by omega) (by omega)
    have hindex : (s.next P v₀ c tx).index = applyTx P (c.posThisTx s.nTxPos) s.index tx := rfl
    obtain ⟨h1, h2, h3⟩ := @ih (s.next P v₀ c tx) (s'.next P k tx)
      (hR.applyTx htx.notNull htx.read htx.placed) hnonneg' hvtx' hcb' hvtx hadm.2
      (by rw [hexact]; omega) (by rw [hexact, hindex]; omega)
    refine ⟨?_, h2, h3⟩
    rw [List.foldl_cons, h1, hexact, LedgerState.fees, hcbtx]
    simp only [Bool.false_eq_true, if_false]
    ring

/-- The two readings of the fees agree. -/
theorem IndexState.RefinesTo.fees_eq {vtx : List CTransaction} {s : IndexState} {s' : LedgerState}
    (hR : s.RefinesTo P v Placed s') (hc : c.Agrees P v Placed k) (hadm : s'.AdmitsAll P k L₀ vtx)
    (hpos : ∀ p ∈ txPositions s.nTxPos vtx, (c.posThisTx p.1).Holds P v Placed k.nHeight p.2) :
    s.fees P v c vtx = s'.fees P k vtx := by
  induction vtx generalizing s s' with
  | nil => rfl
  | cons tx vtx ih =>
    obtain ⟨htx, hvtx⟩ := List.forall_mem_cons.mp hpos
    rw [IndexState.fees, LedgerState.fees, ih (hR.next hc hadm.1 htx) hadm.2 hvtx]
    cases hcb : tx.isCoinBase with
    | true => rfl
    | false => rw [hR.index.valueIn_eq (hadm.1.exists_coin hcb)]

/-- The states before and after a transaction of a block. -/
theorem LedgerState.admitsAll_append {s : LedgerState} {vtx vtx' : List CTransaction} :
    s.AdmitsAll P k L₀ (vtx ++ vtx') ↔
      s.AdmitsAll P k L₀ vtx ∧ (vtx.foldl (LedgerState.next P k) s).AdmitsAll P k L₀ vtx' := by
  induction vtx generalizing s with
  | nil => simp [LedgerState.AdmitsAll]
  | cons tx vtx ih =>
    simp only [List.cons_append, LedgerState.AdmitsAll, ih, List.foldl_cons, and_assoc]

theorem txPositions_append (nTxPos : ℕ) (vtx vtx' : List CTransaction) :
    txPositions nTxPos (vtx ++ vtx') = txPositions nTxPos vtx ++
      txPositions (nTxPos + (vtx.map CTransaction.getSerializeSize).sum) vtx' := by
  induction vtx generalizing nTxPos with
  | nil => rfl
  | cons tx vtx ih =>
    simp only [List.cons_append, txPositions, ih, List.map_cons, List.sum_cons, add_assoc]

theorem foldl_next_nTxPos (vtx : List CTransaction) (s : IndexState) :
    (vtx.foldl (IndexState.next P v c) s).nTxPos =
      s.nTxPos + (vtx.map CTransaction.getSerializeSize).sum := by
  induction vtx generalizing s with
  | nil => rfl
  | cons tx vtx ih =>
    rw [List.foldl_cons, ih, IndexState.next, List.map_cons, List.sum_cons, add_assoc]

/-- **Only a coinbase increases the total.** -/
theorem IndexState.RefinesTo.unspentTotal_le {s : IndexState} {s' : LedgerState}
    (hR : s.RefinesTo P v Placed s') (hc : c.Agrees P v Placed k) (hnonneg : NonnegOutputs v s.index)
    {before after : List CTransaction} (hchk : ∀ t ∈ before ++ tx :: after, t.Checked)
    (hcb : tx.isCoinBase = false) (h₀ : Refines P v Placed txdb L₀)
    (hadm : s'.AdmitsAll P k L₀ (before ++ tx :: after))
    (hpos : ∀ p ∈ txPositions s.nTxPos (before ++ tx :: after),
      (c.posThisTx p.1).Holds P v Placed k.nHeight p.2) :
    v.unspentTotal ((before ++ [tx]).foldl (IndexState.next P v c) s).index ≤
      v.unspentTotal (before.foldl (IndexState.next P v c) s).index := by
  obtain ⟨hbefore, hadmtx, -⟩ := LedgerState.admitsAll_append.mp hadm
  rw [txPositions_append, ← @foldl_next_nTxPos P v c] at hpos
  have hposBefore := fun p hp => hpos p (List.mem_append_left _ hp)
  have hR' := (hR.connectsAll_iff h₀ hc hposBefore).2 hbefore
  have hnonneg' : NonnegOutputs v (before.foldl (IndexState.next P v c) s).index :=
    hnonneg.foldl_next (fun t ht => hchk t (List.mem_append_left _ ht)) hposBefore
  have hholds := hpos (_, tx) (List.mem_append_right _ List.mem_cons_self)
  have hstep := hR'.index.unspentTotal_applyTx hnonneg' (hchk tx (by simp)) hholds
    hadmtx.exists_coin
  have hcover := (hadmtx.inputs hcb).valueOut_le
  rw [CTransaction.spentFrom, if_neg (by simp [hcb])] at hstep
  rw [List.foldl_append]
  refine (show _ ≤ _ from hstep).trans ?_
  omega

/-- **A block adds at most its coinbase less its fees to the total**, and its fees are exact. -/
theorem CBlock.Admitted.total_le {block : CBlock} (hadm : block.Admitted P k L₀) (v₀ : ChainView)
    (s : IndexState) (hR : Refines P v Placed s.index L₀)
    (hnonneg : NonnegOutputs v s.index) (hchk : block.Checked P)
    (hpos : ∀ p ∈ txPositions s.nTxPos block.vtx, (c.posThisTx p.1).Holds P v Placed k.nHeight p.2)
    (hlt : v.unspentTotal s.index < 2 ^ 61) :
    let s₁ := block.vtx.foldl (IndexState.next P v₀ c) s
    let s₁' := block.vtx.foldl (LedgerState.next P k) ⟨L₀, 0, 0⟩
    s₁'.nFees = (⟨L₀, 0, 0⟩ : LedgerState).fees P k block.vtx ∧ 0 ≤ s₁'.nFees ∧
      s₁'.nFees < 2 ^ 62 ∧
      v.unspentTotal s₁.index + s₁'.nFees ≤ v.unspentTotal s.index + block.coinbaseOut := by
  obtain ⟨cb, rest, hvtx⟩ := List.exists_cons_of_ne_nil hchk.vtx_ne_nil
  have hcb : cb.isCoinBase = true := hchk.first_coinBase cb (by rw [hvtx]; rfl)
  have hrest : ∀ tx ∈ rest, tx.isCoinBase = false := by
    have := hchk.rest_not_coinBase
    rwa [hvtx] at this
  have hout : block.coinbaseOut = cb.valueOut := by rw [CBlock.coinbaseOut, hvtx]; rfl
  have htxs := hadm.transactions
  have hchk' := hchk.tx_checked
  rw [hvtx] at hpos htxs hchk'
  obtain ⟨hchkcb, hchkrest⟩ := List.forall_mem_cons.mp hchk'
  obtain ⟨hholds, hposrest⟩ := List.forall_mem_cons.mp hpos
  replace hholds : (c.posThisTx s.nTxPos).Holds P v Placed k.nHeight cb := hholds
  have hstep := hR.unspentTotal_applyTx hnonneg hchkcb hholds fun h => absurd hcb (by simp [h])
  rw [CTransaction.spentFrom, if_pos hcb, sub_zero] at hstep
  have hle := hchkcb.valueOut_le
  have hmax : maxMoney < 2 ^ 61 := by decide
  have hfees : ((⟨L₀, 0, 0⟩ : LedgerState).next P k cb).nFees = 0 := by
    rw [LedgerState.next, hcb]
    rfl
  have hindex : (s.next P v₀ c cb).index = applyTx P (c.posThisTx s.nTxPos) s.index cb := rfl
  obtain ⟨h1, h2, h3⟩ := @foldl_next_total P v Placed k L₀ c v₀ rest (s.next P v₀ c cb)
    ((⟨L₀, 0, 0⟩ : LedgerState).next P k cb) (v.unspentTotal s.index + cb.valueOut)
    (hR.applyTx hholds.notNull hholds.read hholds.placed)
    (hnonneg.applyTx hchkcb hholds.read) hchkrest hrest hposrest htxs.2 (by rw [hfees])
    (by rw [hfees, hindex]; omega) (by omega)
  have htotal : 0 ≤ v.unspentTotal (rest.foldl (IndexState.next P v₀ c) (s.next P v₀ c cb)).index :=
    ((hnonneg.applyTx hchkcb hholds.read).foldl_next (s := s.next P v₀ c cb) hchkrest
      hposrest).unspentTotal_nonneg
  rw [hvtx, List.foldl_cons, List.foldl_cons, LedgerState.fees, if_pos hcb, hout]
  refine ⟨by rw [h1, hfees], h2, by omega, h3⟩

end Block

/-! ## The supply of a chain -/

variable {chain : List (ChainBlock P)} {index : TxIndexMap}

/-- The chain bound: outputs are not negative, and the total is at most the subsidies. -/
theorem ConnectedChain.unspentTotal_le (h : ConnectedChain P chain index)
    (hint : ∀ b ∈ chain, b.pindex.nHeight < 2 ^ 31) (hstored : ∀ b ∈ chain, b.StoredIn v) :
    NonnegOutputs v index ∧
      ∀ b ∈ chain.head?, v.unspentTotal index ≤ subsidies b.pindex.nHeight := by
  induction h with
  | genesis b hheight =>
    refine ⟨fun hash e tx he => absurd he (by simp), fun b' hb' => ?_⟩
    obtain rfl : b = b' := by simpa using hb'
    rw [hheight]
    rfl
  | @connect chain b db db' v₀ io hchain hextends hstored₀ hconnect ih =>
    obtain ⟨hint_b, hint_chain⟩ := List.forall_mem_cons.mp hint
    obtain ⟨hstored_b, hstored_chain⟩ := List.forall_mem_cons.mp hstored
    obtain ⟨hnonneg, hle⟩ := ih hint_chain hstored_chain
    obtain ⟨c, rest, rfl⟩ := List.exists_cons_of_ne_nil hchain.ne_nil
    obtain ⟨hcheck, hconn, -, rfl⟩ := connectBlock_eq_ok.mp hconnect
    have hchk := CBlock.checked_of_checkBlock hcheck
    have hadm := (hchain.connects_iff hextends hstored₀).mp hconn
    have hheight : b.pindex.nHeight = c.pindex.nHeight + 1 := hextends.height c rfl
    have hsub := subsidies_lt (hint c (by simp))
    have hlec := hle c rfl
    have hpos := b.holds hstored_b (walk (c :: rest)) db.mapTxIndex
    obtain ⟨-, hfees0, hfeeslt, htotal⟩ := hadm.total_le v₀
      (b.block.startState b.pindex db.mapTxIndex) (hchain.refines_cons hstored_chain) hnonneg hchk hpos
      (show v.unspentTotal db.mapTxIndex < 2 ^ 61 by omega)
    rw [CTxDB.writeNext_mapTxIndex]
    refine ⟨hnonneg.foldl_next (s := b.block.startState b.pindex db.mapTxIndex) hchk.tx_checked hpos,
      fun b' hb' => ?_⟩
    obtain rfl : b = b' := by simpa using hb'
    have hcb := hadm.coinbase_le
    rw [getBlockValue_eq_add hfees0 hfeeslt] at hcb
    rw [hheight, subsidies_succ, ← hheight]
    replace hcb : b.block.coinbaseOut ≤ getBlockValue b.pindex.nHeight 0 +
      (b.block.vtx.foldl (LedgerState.next P (b.ledgerContext v₀))
        ⟨chainLedger P (c :: rest), 0, 0⟩).nFees := hcb
    refine (show v.unspentTotal (b.block.vtx.foldl (IndexState.next P v₀ (ConnectContext.ofIndex
      b.pindex (walk (c :: rest)))) (b.block.startState b.pindex db.mapTxIndex)).index ≤ _ from ?_)
    replace htotal : _ ≤ v.unspentTotal db.mapTxIndex + b.block.coinbaseOut := htotal
    omega

/-- What connecting a block does to the money supply: the fees of the loop are the exact fees, the
coinbase is bounded by the subsidy and the fees, which are added exactly, and no transaction other
than a coinbase increases the unspent total. -/
structure CBlock.SupplySound (P : Params) (v : ChainView) (block : CBlock) (pindex : CBlockIndex)
    (vPrev : List CBlockIndex) (index : TxIndexMap) (nFees : ℤ) : Prop where
  nFees_eq : (block.endState P v pindex vPrev index).nFees = nFees
  coinbase_le : block.coinbaseOut ≤ getBlockValue pindex.nHeight nFees
  value_eq : getBlockValue pindex.nHeight nFees = getBlockValue pindex.nHeight 0 + nFees
  total_le : ∀ before tx after, block.vtx = before ++ tx :: after → tx.isCoinBase = false →
    v.unspentTotal ((before ++ [tx]).foldl (IndexState.next P v (ConnectContext.ofIndex pindex vPrev))
        (block.startState pindex index)).index ≤
      v.unspentTotal (before.foldl (IndexState.next P v (ConnectContext.ofIndex pindex vPrev))
        (block.startState pindex index)).index

/-- **The money supply is bounded by the subsidies.** In every chain of connected blocks the unspent
total is at most the sum of the subsidies of its heights, and every block that connects to the chain
claims at most its subsidy and its exact fees. Heights are those an `int` can hold. -/
theorem ConnectedChain.supply (h : ConnectedChain P chain index)
    (hint : ∀ b ∈ chain, b.pindex.nHeight < 2 ^ 31) (hstored : ∀ b ∈ chain, b.StoredIn v) :
    (∀ b ∈ chain.head?, v.unspentTotal index ≤ subsidies b.pindex.nHeight) ∧
    ∀ (b : ChainBlock P) (io : Io) (db db' : CTxDB), b.Extends chain → b.StoredIn v →
      db.mapTxIndex = index → b.block.connectBlock P v io db b.pindex (walk chain) = .ok db' →
      b.block.SupplySound P v b.pindex (walk chain) index
        ((b.block.startState b.pindex index).fees P v (ConnectContext.ofIndex b.pindex (walk chain))
          b.block.vtx) := by
  obtain ⟨hnonneg, hle⟩ := h.unspentTotal_le hint hstored
  refine ⟨hle, fun b io db db' hextends hstored_b hdb hconnect => ?_⟩
  subst hdb
  have hstored' : ∀ c ∈ b :: chain, c.StoredIn v := List.forall_mem_cons.mpr ⟨hstored_b, hstored⟩
  obtain ⟨hcheck, hconn, -, -⟩ := connectBlock_eq_ok.mp hconnect
  have hchk := CBlock.checked_of_checkBlock hcheck
  have hadm := (h.connects_iff hextends hstored').mp hconn
  have hagrees := h.agrees hextends hstored'
  have hstart := h.startState_refinesTo hstored'
  have hR := h.refines_cons (b := b) hstored
  have hpos := b.holds hstored_b (walk chain) db.mapTxIndex
  have hlt : v.unspentTotal db.mapTxIndex < 2 ^ 61 := by
    obtain ⟨c, rest, rfl⟩ := List.exists_cons_of_ne_nil h.ne_nil
    exact (hle c rfl).trans_lt (subsidies_lt (hint c (by simp)))
  obtain ⟨hfees, hfees0, hfeeslt, -⟩ := hadm.total_le v (b.block.startState b.pindex db.mapTxIndex)
    hR hnonneg hchk hpos hlt
  have hend := (hstart.connectsAll_iff hR hagrees hpos).2 hadm.transactions
  have hexact := hstart.fees_eq hagrees hadm.transactions hpos
  have hnFees : (b.block.endState P v b.pindex (walk chain) db.mapTxIndex).nFees =
      (b.block.startState b.pindex db.mapTxIndex).fees P v
        (ConnectContext.ofIndex b.pindex (walk chain)) b.block.vtx := by
    rw [hexact, ← hfees]
    exact hend.nFees_eq
  rw [hfees, ← hexact] at hfees0 hfeeslt
  refine ⟨hnFees, hnFees ▸ hconn.coinbase_le, getBlockValue_eq_add hfees0 hfeeslt,
    fun before tx after hvtx hcb => ?_⟩
  have hchk' := hchk.tx_checked
  have htxs := hadm.transactions
  rw [hvtx] at hchk' htxs hpos
  exact hstart.unspentTotal_le hagrees hnonneg hchk' hcb hR htxs hpos

/-- The example chain keeps within its subsidies. -/
theorem supply_spendingChain : ∃ index, ConnectedChain exampleParams spendingChain index ∧
    ∀ b ∈ spendingChain.head?,
      spendingChainView.unspentTotal index ≤ subsidies b.pindex.nHeight := by
  obtain ⟨index, hchain⟩ := exists_connectedChain_spendingChain
  have hstored : ∀ b ∈ spendingChain, b.StoredIn spendingChainView := by decide +kernel
  exact ⟨index, hchain, (hchain.supply (by decide +kernel) hstored).1⟩

end FoxCoin
