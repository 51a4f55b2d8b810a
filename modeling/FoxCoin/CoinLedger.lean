import FoxCoin.ConnectSpec
import FoxCoin.Lib.Ledger

/-! # The transaction index as a ledger of coins

What the transaction index is for: it tells which outputs of the chain can still be spent, at which
height they were created, and whether by a coinbase. This file states that abstractly, as a ledger
of coins, and shows that the index refines it: a transaction connects to the index exactly when the
ledger admits it, and the index afterwards refines the ledger afterwards. -/

namespace FoxCoin

open Checked Overlay Ledger

/-! ## The abstract ledger -/

/-- An unspent output: the output, the height of its block, and whether a coinbase created it. -/
structure Coin where
  txout : CTxOut
  nHeight : ℕ
  fCoinBase : Bool

/-- The unspent outputs of a chain. -/
abbrev CoinLedger := Coins Uint256 Coin

/-- An outpoint as the key and position of a coin. -/
def COutPoint.coin (o : COutPoint) : Uint256 × ℕ := (o.hash, o.n)

theorem COutPoint.coin_injective : Function.Injective COutPoint.coin := by
  rintro ⟨h, n⟩ ⟨h', n'⟩ heq
  simpa [COutPoint.coin] using heq

/-- The coins a transaction creates at a height. -/
def CTransaction.coins (tx : CTransaction) (nHeight : ℕ) : List Coin :=
  tx.vout.map fun txout => ⟨txout, nHeight, tx.isCoinBase⟩

/-- A transaction at a height as a transfer of coins. -/
def CTransaction.transfer (P : Params) (nHeight : ℕ) (tx : CTransaction) : Transfer Uint256 Coin where
  key := tx.getHash P
  spends := tx.spent.map COutPoint.coin
  creates := tx.coins nHeight

/-- The value a transaction claims from a ledger. -/
def CTransaction.valueFrom (L : CoinLedger) (tx : CTransaction) : ℤ :=
  (tx.vin.map fun txin => (L txin.prevout.coin).elim 0 fun c => c.txout.nValue).sum

/-- The signature operations of the pay-to-script-hash coins a transaction claims. -/
def CTransaction.p2shSigOpsFrom (L : CoinLedger) (tx : CTransaction) : ℕ :=
  (tx.vin.map fun txin => (L txin.prevout.coin).elim 0 fun c =>
    if c.txout.scriptPubKey.isPayToScriptHash then
      c.txout.scriptPubKey.getP2SHSigOpCount txin.scriptSig else 0).sum

/-- A coin can be spent at a height: it is mature, and its value is a valid amount. -/
structure Coin.Payable (nHeight : ℕ) (c : Coin) : Prop where
  mature : c.fCoinBase = true → c.nHeight + coinbaseMaturity ≤ nHeight
  nonneg : 0 ≤ c.txout.nValue
  le_maxMoney : c.txout.nValue ≤ maxMoney

/-- A ledger admits a transaction at a height: every coin it claims is there and payable, the
signatures are good, and the amounts cover the outputs. -/
structure CTransaction.Admitted (P : Params) (L : CoinLedger) (nHeight : ℕ)
    (fVerify fStrictPayToScriptHash : Bool) (tx : CTransaction) : Prop where
  payable : ∀ txin ∈ tx.vin, ∃ c, L txin.prevout.coin = some c ∧ c.Payable nHeight
  signed : fVerify = true → ∀ txin ∈ tx.vin.zipIdx, ∃ c, L txin.1.prevout.coin = some c ∧
    P.verifyScript txin.1.scriptSig c.txout.scriptPubKey tx txin.2 fStrictPayToScriptHash = true
  valueIn_le : tx.valueFrom L ≤ maxMoney
  valueOut_le : tx.valueOut ≤ tx.valueFrom L

/-! ## Refinement -/

/-- Where the index may place a transaction of a given height. -/
abbrev Placement := CDiskTxPos → ℕ → CTransaction → Prop

/-- An index entry refines a ledger: the transaction behind it is the one with its hash, and its
outputs that are not marked are the coins of the ledger. -/
structure CTxIndex.RefinesAs (P : Params) (v : ChainView) (Placed : Placement) (L : CoinLedger)
    (hash : Uint256) (e : CTxIndex) (tx : CTransaction) (nHeight : ℕ) : Prop where
  read : v.readPrev hash e = some tx
  hash_eq : tx.getHash P = hash
  length_eq : e.vSpent.length = tx.vout.length
  placed : Placed e.pos nHeight tx
  coins_eq : ∀ n, L (hash, n) =
    if e.vSpent[n]? = some CDiskTxPos.setNull then (tx.coins nHeight)[n]? else none

/-- An index refines a ledger: every entry does, and there are no other coins. -/
structure Refines (P : Params) (v : ChainView) (Placed : Placement) (m : TxIndexMap)
    (L : CoinLedger) : Prop where
  entry : ∀ hash e, m.lookup hash = some e → ∃ tx nHeight, e.RefinesAs P v Placed L hash tx nHeight
  noEntry : ∀ hash, m.lookup hash = none → ∀ n, L (hash, n) = none

/-- The empty index refines the ledger without coins. -/
theorem refines_empty (P : Params) (v : ChainView) (Placed : Placement) :
    Refines P v Placed ∅ empty where
  entry := fun hash e h => by rw [Finmap.lookup_empty] at h; cases h
  noEntry := fun _ _ _ => rfl

variable {P : Params} {v : ChainView} {Placed : Placement} {m : TxIndexMap} {L : CoinLedger}
  {tx : CTransaction}

/-- A refinement may be weakened in where it lets transactions be placed. -/
theorem Refines.mono {Placed' : Placement} (hR : Refines P v Placed m L)
    (himp : ∀ pos nHeight tx, Placed pos nHeight tx → Placed' pos nHeight tx) :
    Refines P v Placed' m L where
  entry := fun hash e he => by
    obtain ⟨tx, nHeight, h⟩ := hR.entry hash e he
    exact ⟨tx, nHeight, h.read, h.hash_eq, h.length_eq, himp _ _ _ h.placed, h.coins_eq⟩
  noEntry := hR.noEntry

/-- Marking outputs refines spending their coins. -/
theorem Refines.markOutputs {pos : CDiskTxPos} (hR : Refines P v Placed m L)
    (hpos : pos.isNull = false) (os : List COutPoint) :
    Refines P v Placed (markOutputs pos m os) (spend L (os.map COutPoint.coin)) := by
  have hmem : ∀ hash n, (hash, n) ∈ os.map COutPoint.coin ↔ (⟨hash, n⟩ : COutPoint) ∈ os :=
    fun hash n => List.mem_map_of_injective COutPoint.coin_injective (a := ⟨hash, n⟩)
  constructor
  · intro hash e he
    rw [lookup_markOutputs, Option.map_eq_some_iff] at he
    obtain ⟨e, he, rfl⟩ := he
    obtain ⟨tx, nHeight, h⟩ := hR.entry hash e he
    refine ⟨tx, nHeight, ?_, h.hash_eq, by rw [CTxIndex.markAll_vSpent_length, h.length_eq], ?_,
      fun n => ?_⟩
    · rw [← h.read, ChainView.readPrev, ChainView.readPrev, CTxIndex.markAll_pos]
    · rw [CTxIndex.markAll_pos]
      exact h.placed
    · simp only [spend, hmem, CTxIndex.markAll_vSpent_getElem?]
      by_cases hn : (⟨hash, n⟩ : COutPoint) ∈ os
      · have hne : pos ≠ CDiskTxPos.setNull := by
          rintro rfl
          cases hpos
        simp only [if_pos hn]
        cases e.vSpent[n]? with
        | none => simp
        | some p => simp [hne]
      · simp only [if_neg hn, h.coins_eq]
  · intro hash he n
    rw [lookup_markOutputs, Option.map_eq_none_iff] at he
    rw [spend, hR.noEntry hash he n, ite_self]

/-- A transaction that is stored at its place takes a refined index to a refined index. -/
theorem Refines.applyTx {pos : CDiskTxPos} {nHeight : ℕ} (hR : Refines P v Placed m L)
    (hpos : pos.isNull = false)
    (hread : v.readPrev (tx.getHash P) (CTxIndex.ofOutputs pos tx.vout.length) = some tx)
    (hplaced : Placed pos nHeight tx) :
    Refines P v Placed (applyTx P pos m tx) (post L (tx.transfer P nHeight)) := by
  have hmark := hR.markOutputs hpos tx.spent
  constructor
  · intro hash e he
    rw [FoxCoin.applyTx, lookup_insert_eq_ite] at he
    by_cases hh : hash = tx.getHash P
    · rw [if_pos hh, Option.some.injEq] at he
      subst hh he
      refine ⟨tx, nHeight, hread, rfl, by simp [CTxIndex.ofOutputs], hplaced, fun n => ?_⟩
      rw [post, create, if_pos (by rfl)]
      by_cases hn : n < tx.vout.length
      · rw [if_pos (by simp [CTxIndex.ofOutputs, hn])]
        rfl
      · rw [if_neg (by simp [CTxIndex.ofOutputs, hn])]
        simpa [CTransaction.transfer, CTransaction.coins] using hn
    · rw [if_neg hh] at he
      obtain ⟨tx', nHeight', h⟩ := hmark.entry hash e he
      refine ⟨tx', nHeight', h.read, h.hash_eq, h.length_eq, h.placed, fun n => ?_⟩
      rw [post, create, if_neg (by exact hh), ← h.coins_eq]
      rfl
  · intro hash he n
    rw [FoxCoin.applyTx, lookup_insert_eq_ite] at he
    by_cases hh : hash = tx.getHash P
    · rw [if_pos hh] at he
      cases he
    · rw [if_neg hh] at he
      rw [post, create, if_neg (by exact hh)]
      exact hmark.noEntry hash he n

/-! ## Claims and coins -/

/-- A claimed output and a coin are the same output. -/
structure Claim.Matches (P : Params) (Placed : Placement) (o : COutPoint) (cl : Claim) (c : Coin) :
    Prop where
  unspent : (cl.txindex.vSpent.getD o.n CDiskTxPos.setNull).isNull = true
  placed : Placed cl.txindex.pos c.nHeight cl.txPrev
  hash_eq : cl.txPrev.getHash P = o.hash
  txout_eq : c.txout = cl.txout
  fCoinBase_eq : c.fCoinBase = cl.txPrev.isCoinBase

/-- An unspent output of the index is a coin of the ledger. -/
theorem Refines.exists_coin (hR : Refines P v Placed m L) {o : COutPoint} {cl : Claim}
    (hcl : v.claim? m o = some cl)
    (hnull : (cl.txindex.vSpent.getD o.n CDiskTxPos.setNull).isNull = true) :
    ∃ c, L o.coin = some c ∧ cl.Matches P Placed o c := by
  obtain ⟨he, hread, hlen, hout⟩ := ChainView.claim?_eq_some.mp hcl
  obtain ⟨tx, nHeight, h⟩ := hR.entry _ _ he
  obtain rfl : cl.txPrev = tx := by
    have := h.read
    rwa [hread, Option.some.injEq] at this
  have hspent : cl.txindex.vSpent[o.n]? = some CDiskTxPos.setNull := by
    rw [List.getD_eq_getElem?_getD, List.getElem?_eq_getElem hlen, Option.getD_some] at hnull
    rw [List.getElem?_eq_getElem hlen, CDiskTxPos.eq_setNull_of_isNull hnull]
  refine ⟨⟨cl.txout, nHeight, cl.txPrev.isCoinBase⟩, ?_, ⟨hnull, h.placed, h.hash_eq, rfl, rfl⟩⟩
  rw [COutPoint.coin, h.coins_eq, if_pos hspent, CTransaction.coins, List.getElem?_map, hout,
    Option.map_some]

/-- A coin of the ledger is an unspent output of the index. -/
theorem Refines.exists_claim (hR : Refines P v Placed m L) {o : COutPoint} {c : Coin}
    (hc : L o.coin = some c) : ∃ cl, v.claim? m o = some cl ∧ cl.Matches P Placed o c := by
  cases he : m.lookup o.hash with
  | none =>
    rw [COutPoint.coin, hR.noEntry _ he] at hc
    cases hc
  | some e =>
    obtain ⟨tx, nHeight, h⟩ := hR.entry _ _ he
    rw [COutPoint.coin, h.coins_eq, Option.ite_none_right_eq_some, CTransaction.coins,
      List.getElem?_map, Option.map_eq_some_iff] at hc
    obtain ⟨hspent, txout, hout, rfl⟩ := hc
    have hlen := (List.getElem?_eq_some_iff.mp hspent).1
    refine ⟨⟨e, tx, txout⟩, ChainView.claim?_eq_some.mpr ⟨he, h.read, hlen, hout⟩,
      ⟨?_, h.placed, h.hash_eq, rfl, rfl⟩⟩
    rw [List.getD_eq_getElem?_getD, hspent]
    rfl

/-- The maturity walk of `ConnectInputs` tells the coinbases that are too young at a height. -/
def Placement.Matures (Placed : Placement) (walk : List CBlockIndex) (nHeight : ℕ) : Prop :=
  ∀ pos h tx, Placed pos h tx → tx.isCoinBase = true →
    (immature walk pos = true ↔ nHeight < h + coinbaseMaturity)

variable {walk : List CBlockIndex} {nHeight : ℕ} {fVerify fStrict : Bool}

/-- A claimed output is payable exactly when the coin is. -/
theorem Claim.Matches.payable_iff {o : COutPoint} {cl : Claim} {c : Coin}
    (h : cl.Matches P Placed o c) (hmature : Placed.Matures walk nHeight) :
    cl.Payable walk ↔ c.Payable nHeight := by
  have hmat : (cl.txPrev.isCoinBase && immature walk cl.txindex.pos) = false ↔
      (c.fCoinBase = true → c.nHeight + coinbaseMaturity ≤ nHeight) := by
    rw [h.fCoinBase_eq, ← Bool.not_eq_true, Bool.and_eq_true, not_and]
    refine imp_congr_right fun hcb => ?_
    rw [hmature _ _ _ h.placed hcb, not_lt]
  constructor
  · rintro ⟨h1, h2, h3⟩
    exact ⟨hmat.mp h1, h.txout_eq ▸ h2, h.txout_eq ▸ h3⟩
  · rintro ⟨h1, h2, h3⟩
    exact ⟨hmat.mpr h1, h.txout_eq ▸ h2, h.txout_eq ▸ h3⟩

/-- The signature of an input is checked against the script of the coin. -/
theorem Claim.Matches.verifySignature_eq {txin : CTxIn × ℕ} (htxin : txin ∈ tx.vin.zipIdx)
    {cl : Claim} {c : Coin} (h : cl.Matches P Placed txin.1.prevout c)
    (hout : cl.txPrev.vout[txin.1.prevout.n]? = some cl.txout) :
    verifySignature P cl.txPrev tx txin.2 fStrict =
      P.verifyScript txin.1.scriptSig c.txout.scriptPubKey tx txin.2 fStrict := by
  have hvin : tx.vin[txin.2]? = some txin.1 := List.mem_zipIdx_iff_getElem?.mp htxin
  rw [verifySignature, hvin]
  simp [hout, h.hash_eq, h.txout_eq]

/-- The index and the ledger give a transaction the same value to spend. -/
theorem Refines.valueIn_eq (hR : Refines P v Placed m L)
    (hcoin : ∀ txin ∈ tx.vin, ∃ c, L txin.prevout.coin = some c) :
    v.valueIn m tx = tx.valueFrom L := by
  rw [ChainView.valueIn_eq, CTransaction.valueFrom]
  refine congrArg List.sum (List.map_congr_left fun txin htxin => ?_)
  obtain ⟨c, hc⟩ := hcoin txin htxin
  obtain ⟨cl, hcl, hmatch⟩ := hR.exists_claim hc
  rw [ChainView.valueAt, hcl, hc, Option.elim_some, Option.elim_some, hmatch.txout_eq]

/-- The index and the ledger give the same count of signature operations. -/
theorem Refines.p2shSigOps_eq (hR : Refines P v Placed m L)
    (hcoin : ∀ txin ∈ tx.vin, ∃ c, L txin.prevout.coin = some c) :
    v.p2shSigOps m tx = tx.p2shSigOpsFrom L := by
  refine congrArg List.sum (List.map_congr_left fun txin htxin => ?_)
  obtain ⟨c, hc⟩ := hcoin txin htxin
  obtain ⟨cl, hcl, hmatch⟩ := hR.exists_claim hc
  rw [hcl, hc, Option.elim_some, Option.elim_some, hmatch.txout_eq]

/-- The claims of a transaction that connects are coins of the ledger. -/
theorem Refines.exists_coin_of_connects (hR : Refines P v Placed m L)
    (hconn : tx.Connects P v m walk fVerify fStrict) {txin : CTxIn × ℕ}
    (htxin : txin ∈ tx.vin.zipIdx) :
    ∃ cl c, v.claim? m txin.1.prevout = some cl ∧ L txin.1.prevout.coin = some c ∧
      cl.Payable walk ∧ cl.Matches P Placed txin.1.prevout c ∧
      (fVerify = true → verifySignature P cl.txPrev tx txin.2 fStrict = true) := by
  obtain ⟨cl, hcl, hpay⟩ := hconn.payable _ (List.fst_mem_of_mem_zipIdx htxin)
  obtain ⟨e, txPrev, hprev, hnull, hsig⟩ := hconn.spends _ htxin
  obtain ⟨he, hread, -, -⟩ := ChainView.claim?_eq_some.mp hcl
  obtain ⟨he', hread'⟩ := ChainView.prevTx?_eq_some.mp hprev
  rw [he, Option.some.injEq] at he'
  subst he'
  rw [hread, Option.some.injEq] at hread'
  subst hread'
  obtain ⟨c, hc, hmatch⟩ := hR.exists_coin hcl hnull
  exact ⟨cl, c, hcl, hc, hpay, hmatch, hsig⟩

/-- **A transaction connects to the index exactly when the ledger admits it.** -/
theorem Refines.connects_iff (hR : Refines P v Placed m L) (hmature : Placed.Matures walk nHeight) :
    tx.Connects P v m walk fVerify fStrict ↔ tx.Admitted P L nHeight fVerify fStrict := by
  have hidx : ∀ txin ∈ tx.vin, ∃ n, (txin, n) ∈ tx.vin.zipIdx := by
    intro txin htxin
    obtain ⟨n, hn⟩ := List.mem_iff_getElem?.mp htxin
    exact ⟨n, List.mem_zipIdx_iff_getElem?.mpr hn⟩
  constructor
  · intro hconn
    have hcoin : ∀ txin ∈ tx.vin, ∃ c, L txin.prevout.coin = some c ∧ c.Payable nHeight := by
      intro txin htxin
      obtain ⟨n, hn⟩ := hidx txin htxin
      obtain ⟨cl, c, hcl, hc, hpay, hmatch, -⟩ := hR.exists_coin_of_connects hconn hn
      exact ⟨c, hc, (hmatch.payable_iff hmature).mp hpay⟩
    have hval : v.valueIn m tx = tx.valueFrom L :=
      hR.valueIn_eq fun txin htxin => (hcoin txin htxin).imp fun _ h => h.1
    refine ⟨hcoin, fun hverify txin htxin => ?_, hval ▸ hconn.valueIn_le, hval ▸ hconn.valueOut_le⟩
    obtain ⟨cl, c, hcl, hc, -, hmatch, hsig⟩ := hR.exists_coin_of_connects hconn htxin
    refine ⟨c, hc, ?_⟩
    rw [← hmatch.verifySignature_eq htxin (ChainView.claim?_eq_some.mp hcl).2.2.2]
    exact hsig hverify
  · intro hadm
    have hval : v.valueIn m tx = tx.valueFrom L :=
      hR.valueIn_eq fun txin htxin => (hadm.payable txin htxin).imp fun _ h => h.1
    refine ⟨fun txin htxin => ?_, fun txin htxin => ?_, hval ▸ hadm.valueIn_le,
      hval ▸ hadm.valueOut_le⟩
    · obtain ⟨c, hc, hpay⟩ := hadm.payable txin htxin
      obtain ⟨cl, hcl, hmatch⟩ := hR.exists_claim hc
      exact ⟨cl, hcl, (hmatch.payable_iff hmature).mpr hpay⟩
    · obtain ⟨c, hc, -⟩ := hadm.payable _ (List.fst_mem_of_mem_zipIdx htxin)
      obtain ⟨cl, hcl, hmatch⟩ := hR.exists_claim hc
      obtain ⟨he, hread, -, hout⟩ := ChainView.claim?_eq_some.mp hcl
      refine ⟨cl.txindex, cl.txPrev, ChainView.prevTx?_eq_some.mpr ⟨he, hread⟩, hmatch.unspent,
        fun hverify => ?_⟩
      obtain ⟨c', hc', hsig⟩ := hadm.signed hverify txin htxin
      rw [hc, Option.some.injEq] at hc'
      subst hc'
      rw [hmatch.verifySignature_eq htxin hout]
      exact hsig

/-- The duplicate rule holds exactly when the ledger has no coin of the transaction. -/
theorem Refines.overwritesNothing_iff (hR : Refines P v Placed m L) {hash : Uint256} :
    overwritesNothing m hash = true ↔ ∀ n, L (hash, n) = none := by
  unfold overwritesNothing
  cases he : m.lookup hash with
  | none => simpa using hR.noEntry hash he
  | some e =>
    obtain ⟨tx, nHeight, h⟩ := hR.entry _ _ he
    simp only [List.all_eq_true, Bool.not_eq_true', h.coins_eq]
    constructor
    · intro hall n
      refine if_neg fun hn => ?_
      simpa using hall _ (List.mem_of_getElem? hn)
    · intro hnone pos hpos
      obtain ⟨n, hn⟩ := List.mem_iff_getElem?.mp hpos
      by_contra hnull
      rw [Bool.not_eq_false] at hnull
      have hlt : n < tx.vout.length := by
        rw [← h.length_eq]
        exact (List.getElem?_eq_some_iff.mp hn).1
      have := hnone n
      rw [if_pos (by rw [hn, CDiskTxPos.eq_setNull_of_isNull hnull]), CTransaction.coins] at this
      simp only [List.getElem?_eq_none_iff, List.length_map] at this
      omega

/-! ## Blocks -/

/-- The rules a block is connected under: its height, and which checks its time and the checkpoints
switch on. -/
structure LedgerContext where
  nHeight : ℕ
  fVerify : Bool
  fEnforceBIP30 : Bool
  fStrictPayToScriptHash : Bool

/-- The ledger, the fees and the signature operations in the middle of a block. -/
structure LedgerState where
  coins : CoinLedger
  nFees : ℤ
  nSigOps : ℕ

/-- The signature operations of a transaction on a ledger. -/
def CTransaction.sigOpsFrom (tx : CTransaction) (k : LedgerContext) (L : CoinLedger) : ℕ :=
  tx.getLegacySigOpCount +
    if !tx.isCoinBase && k.fStrictPayToScriptHash then tx.p2shSigOpsFrom L else 0

/-- The state after a transaction. -/
def LedgerState.next (P : Params) (k : LedgerContext) (s : LedgerState) (tx : CTransaction) :
    LedgerState where
  coins := post s.coins (tx.transfer P k.nHeight)
  nFees := if tx.isCoinBase then s.nFees else int64 (s.nFees + (tx.valueFrom s.coins - tx.valueOut))
  nSigOps := s.nSigOps + tx.sigOpsFrom k s.coins

/-- A block whose ledger was `L₀` admits a transaction. -/
structure LedgerState.Admits (P : Params) (k : LedgerContext) (L₀ : CoinLedger) (s : LedgerState)
    (tx : CTransaction) : Prop where
  overwrites : k.fEnforceBIP30 = true → ∀ n, L₀ (tx.getHash P, n) = none
  sigOps_le : s.nSigOps + tx.sigOpsFrom k s.coins ≤ maxBlockSigops
  inputs : tx.isCoinBase = false →
    tx.Admitted P s.coins k.nHeight k.fVerify k.fStrictPayToScriptHash

/-- A block whose ledger was `L₀` admits a list of transactions, one after the other. -/
def LedgerState.AdmitsAll (P : Params) (k : LedgerContext) (L₀ : CoinLedger) :
    LedgerState → List CTransaction → Prop
  | _, [] => True
  | s, tx :: vtx => s.Admits P k L₀ tx ∧ (s.next P k tx).AdmitsAll P k L₀ vtx

/-- A ledger admits a block: its transactions one after the other, and its coinbase. -/
structure CBlock.Admitted (P : Params) (k : LedgerContext) (L : CoinLedger) (block : CBlock) :
    Prop where
  transactions : (⟨L, 0, 0⟩ : LedgerState).AdmitsAll P k L block.vtx
  coinbase_le : block.coinbaseOut ≤
    getBlockValue k.nHeight (block.vtx.foldl (LedgerState.next P k) ⟨L, 0, 0⟩).nFees

/-- The state of the transaction loop refines a state of the ledger. -/
structure IndexState.RefinesTo (P : Params) (v : ChainView) (Placed : Placement) (s : IndexState)
    (s' : LedgerState) : Prop where
  index : Refines P v Placed s.index s'.coins
  nFees_eq : s.nFees = s'.nFees
  nSigOps_eq : s.nSigOps = s'.nSigOps

/-- A position holds a transaction: it can be read back from there. -/
structure CDiskTxPos.Holds (P : Params) (v : ChainView) (Placed : Placement) (pos : CDiskTxPos)
    (nHeight : ℕ) (tx : CTransaction) : Prop where
  notNull : pos.isNull = false
  read : v.readPrev (tx.getHash P) (CTxIndex.ofOutputs pos tx.vout.length) = some tx
  placed : Placed pos nHeight tx

section Loop

variable {txdb : TxIndexMap} {L₀ : CoinLedger} {c : ConnectContext} {k : LedgerContext}
  {s : IndexState} {s' : LedgerState}

/-- The rules of a block in the source are the rules of a ledger context. -/
structure ConnectContext.Agrees (P : Params) (v : ChainView) (Placed : Placement)
    (c : ConnectContext) (k : LedgerContext) : Prop where
  matures : Placed.Matures c.walk k.nHeight
  fVerify_eq : k.fVerify = v.fVerify P true
  fEnforceBIP30_eq : k.fEnforceBIP30 = c.fEnforceBIP30
  fStrict_eq : k.fStrictPayToScriptHash = c.fStrictPayToScriptHash

/-- The counts of signature operations agree on a transaction that connects. -/
theorem IndexState.RefinesTo.sigOps_eq (hR : s.RefinesTo P v Placed s') (hc : c.Agrees P v Placed k)
    (hcoin : tx.isCoinBase = false → ∀ txin ∈ tx.vin, ∃ c, s'.coins txin.prevout.coin = some c) :
    v.sigOps c s.index tx = tx.sigOpsFrom k s'.coins := by
  rw [ChainView.sigOps, CTransaction.sigOpsFrom, hc.fStrict_eq]
  cases hcb : tx.isCoinBase with
  | true => simp
  | false => rw [hR.index.p2shSigOps_eq (hcoin hcb)]

/-- A round of the transaction loop succeeds exactly when the ledger admits the transaction. -/
theorem IndexState.RefinesTo.connects_iff (hR : s.RefinesTo P v Placed s')
    (h₀ : Refines P v Placed txdb L₀) (hc : c.Agrees P v Placed k) :
    s.Connects P v txdb c tx ↔ s'.Admits P k L₀ tx := by
  have hinputs : (tx.isCoinBase = false → tx.Connects P v s.index c.walk (v.fVerify P true)
        c.fStrictPayToScriptHash) ↔ (tx.isCoinBase = false →
      tx.Admitted P s'.coins k.nHeight k.fVerify k.fStrictPayToScriptHash) := by
    rw [hc.fVerify_eq, hc.fStrict_eq]
    exact imp_congr_right fun _ => hR.index.connects_iff hc.matures
  have hcoin : (tx.isCoinBase = false →
        tx.Admitted P s'.coins k.nHeight k.fVerify k.fStrictPayToScriptHash) →
      tx.isCoinBase = false → ∀ txin ∈ tx.vin, ∃ c, s'.coins txin.prevout.coin = some c :=
    fun h hcb txin htxin => ((h hcb).payable txin htxin).imp fun _ h => h.1
  constructor
  · rintro ⟨h30, hops, hin⟩
    have hin' := hinputs.mp hin
    refine ⟨fun h => ?_, ?_, hin'⟩
    · exact h₀.overwritesNothing_iff.mp (h30 (hc.fEnforceBIP30_eq ▸ h))
    · rw [← hR.sigOps_eq hc (hcoin hin'), ← hR.nSigOps_eq]
      exact hops
  · rintro ⟨h30, hops, hin⟩
    refine ⟨fun h => ?_, ?_, hinputs.mpr hin⟩
    · exact h₀.overwritesNothing_iff.mpr (h30 (hc.fEnforceBIP30_eq ▸ h))
    · rw [hR.sigOps_eq hc (hcoin hin), hR.nSigOps_eq]
      exact hops

/-- A round of the transaction loop keeps the refinement. -/
theorem IndexState.RefinesTo.next (hR : s.RefinesTo P v Placed s') (hc : c.Agrees P v Placed k)
    (hadm : s'.Admits P k L₀ tx) (hpos : (c.posThisTx s.nTxPos).Holds P v Placed k.nHeight tx) :
    (s.next P v c tx).RefinesTo P v Placed (s'.next P k tx) := by
  have hcoin : tx.isCoinBase = false → ∀ txin ∈ tx.vin, ∃ c, s'.coins txin.prevout.coin = some c :=
    fun hcb txin htxin => ((hadm.inputs hcb).payable txin htxin).imp fun _ h => h.1
  refine ⟨hR.index.applyTx hpos.notNull hpos.read hpos.placed, ?_, ?_⟩
  · cases hcb : tx.isCoinBase with
    | true => simp [IndexState.next, LedgerState.next, hcb, hR.nFees_eq]
    | false => simp [IndexState.next, LedgerState.next, hcb, hR.nFees_eq,
        hR.index.valueIn_eq (hcoin hcb)]
  · simp only [IndexState.next, LedgerState.next, hR.nSigOps_eq, hR.sigOps_eq hc hcoin]

/-- **The transaction loop succeeds exactly when the ledger admits the transactions**, provided each
of them can be read back from its place; the state then refines the ledger afterwards. -/
theorem IndexState.RefinesTo.connectsAll_iff {vtx : List CTransaction}
    (hR : s.RefinesTo P v Placed s') (h₀ : Refines P v Placed txdb L₀) (hc : c.Agrees P v Placed k)
    (hpos : ∀ p ∈ txPositions s.nTxPos vtx, (c.posThisTx p.1).Holds P v Placed k.nHeight p.2) :
    (s.ConnectsAll P v txdb c vtx ↔ s'.AdmitsAll P k L₀ vtx) ∧
      (s'.AdmitsAll P k L₀ vtx → (vtx.foldl (IndexState.next P v c) s).RefinesTo P v Placed
        (vtx.foldl (LedgerState.next P k) s')) := by
  induction vtx generalizing s s' with
  | nil => exact ⟨Iff.rfl, fun _ => hR⟩
  | cons tx vtx ih =>
    obtain ⟨htx, hvtx⟩ := List.forall_mem_cons.mp hpos
    have hnext := fun hadm : s'.Admits P k L₀ tx => ih (hR.next hc hadm htx) hvtx
    constructor
    · constructor
      · rintro ⟨hconn, hrest⟩
        have hadm := (hR.connects_iff h₀ hc).mp hconn
        exact ⟨hadm, (hnext hadm).1.mp hrest⟩
      · rintro ⟨hadm, hrest⟩
        exact ⟨(hR.connects_iff h₀ hc).mpr hadm, (hnext hadm).1.mpr hrest⟩
    · rintro ⟨hadm, hrest⟩
      exact (hnext hadm).2 hrest

end Loop

end FoxCoin
