import FoxCoin.Chain

/-! # Spending along a chain

Along every chain of connected blocks, an output is spent after it was created, at most once, and a
coinbase output not before it is mature. -/

namespace FoxCoin

open Checked Ledger

variable {P : Params} {chain : List (ChainBlock P)} {index : TxIndexMap}

/-- A transaction at a height spends distinct coins of a ledger, which are mature. -/
structure SpendsMature (L : CoinLedger) (t : ℕ × CTransaction) : Prop where
  nodup : t.2.spent.Nodup
  mature : ∀ o ∈ t.2.spent, ∃ c, L o.coin = some c ∧
    (c.fCoinBase = true → c.nHeight + coinbaseMaturity ≤ t.1)

/-- Every transaction of a history spends coins that are mature when its turn comes. -/
def SpendsMatureAll (P : Params) : CoinLedger → List (ℕ × CTransaction) → Prop
  | _, [] => True
  | L, t :: txs => SpendsMature L t ∧ SpendsMatureAll P (post L (t.2.transfer P t.1)) txs

theorem spendsMatureAll_append {L : CoinLedger} {txs txs' : List (ℕ × CTransaction)} :
    SpendsMatureAll P L (txs ++ txs') ↔
      SpendsMatureAll P L txs ∧ SpendsMatureAll P (postAll L (transfers P txs)) txs' := by
  induction txs generalizing L with
  | nil => simp [SpendsMatureAll, transfers]
  | cons t txs ih =>
    simp only [List.cons_append, SpendsMatureAll, ih, and_assoc]
    rfl

/-- A history that spends mature coins is valid. -/
theorem SpendsMatureAll.valid {L : CoinLedger} {txs : List (ℕ × CTransaction)}
    (h : SpendsMatureAll P L txs) : Valid L (transfers P txs) := by
  induction txs generalizing L with
  | nil => trivial
  | cons t txs ih =>
    refine ⟨fun o ho => ?_, ih h.2⟩
    obtain ⟨o', ho', rfl⟩ := List.mem_map.mp ho
    obtain ⟨c, hc, -⟩ := h.1.mature o' ho'
    exact ⟨c, hc⟩

/-- The transactions of an admitted block spend mature coins. -/
theorem LedgerState.AdmitsAll.spendsMatureAll {k : LedgerContext} {L₀ : CoinLedger}
    {s : LedgerState} {vtx : List CTransaction} (hchk : ∀ tx ∈ vtx, tx.Checked)
    (h : s.AdmitsAll P k L₀ vtx) :
    SpendsMatureAll P s.coins (vtx.map fun tx => (k.nHeight, tx)) := by
  induction vtx generalizing s with
  | nil => trivial
  | cons tx vtx ih =>
    obtain ⟨htx, hvtx⟩ := List.forall_mem_cons.mp hchk
    refine ⟨?_, ih hvtx h.2⟩
    cases hcb : tx.isCoinBase with
    | true =>
      have hnone : tx.spent = [] := by rw [CTransaction.spent, if_pos hcb]
      exact ⟨by simp [hnone], by simp [hnone]⟩
    | false =>
      have hspent : tx.spent = tx.prevouts := by rw [CTransaction.spent, if_neg (by simp [hcb])]
      refine ⟨by rw [hspent]; exact htx.prevouts_nodup, fun o ho => ?_⟩
      rw [hspent] at ho
      obtain ⟨txin, htxin, rfl⟩ := List.mem_map.mp ho
      obtain ⟨c, hc, hpay⟩ := (h.1.inputs hcb).payable txin htxin
      exact ⟨c, hc, hpay.mature⟩

/-- The transactions of a chain spend mature coins. -/
theorem ConnectedChain.spendsMatureAll (h : ConnectedChain P chain index) :
    SpendsMatureAll P Ledger.empty (chainTxs chain) := by
  induction h with
  | genesis b => trivial
  | @connect chain b db db' v io hchain hextends hstored hconnect ih =>
    obtain ⟨hcheck, hconn, -, -⟩ := connectBlock_eq_ok.mp hconnect
    have hadm := (hchain.connects_iff hextends hstored).mp hconn
    rw [chainTxs_cons b hchain.ne_nil, spendsMatureAll_append]
    exact ⟨ih, hadm.transactions.spendsMatureAll (CBlock.checked_of_checkBlock hcheck).tx_checked⟩

/-- The coins of a transaction at a height. -/
theorem getElem?_coins_eq_some {tx : CTransaction} {nHeight n : ℕ} {c : Coin}
    (h : (tx.coins nHeight)[n]? = some c) :
    n < tx.vout.length ∧ c.nHeight = nHeight ∧ c.fCoinBase = tx.isCoinBase := by
  rw [CTransaction.coins, List.getElem?_map, Option.map_eq_some_iff] at h
  obtain ⟨txout, hout, rfl⟩ := h
  exact ⟨(List.getElem?_eq_some_iff.mp hout).1, rfl, rfl⟩

/-- **Spending along a chain.** In a chain in which no transaction hash is reused, a transaction
spends distinct outputs; each is an output of an earlier transaction, no earlier transaction has
spent it, and it is mature when a coinbase created it. -/
theorem ConnectedChain.spent_of_split (h : ConnectedChain P chain index)
    (hnodup : ((chainTxs chain).map fun t => t.2.getHash P).Nodup)
    {before after : List (ℕ × CTransaction)} {nHeight : ℕ} {tx : CTransaction}
    (hsplit : chainTxs chain = before ++ (nHeight, tx) :: after) :
    tx.spent.Nodup ∧ ∀ o ∈ tx.spent,
      (∃ t ∈ before, t.2.getHash P = o.hash ∧ o.n < t.2.vout.length ∧
        (t.2.isCoinBase = true → t.1 + coinbaseMaturity ≤ nHeight)) ∧
      ∀ t ∈ before, o ∉ t.2.spent := by
  have hall := h.spendsMatureAll
  have hvalid := hall.valid
  have hkeys : ((transfers P (chainTxs chain)).map Transfer.key).Nodup := by
    simpa [transfers, Function.comp_def, CTransaction.transfer] using hnodup
  rw [hsplit, transfers_append] at hvalid hkeys
  rw [hsplit, spendsMatureAll_append] at hall
  obtain ⟨-, hspends, -⟩ := hall
  refine ⟨hspends.nodup, fun o ho => ?_⟩
  obtain ⟨c, hc, hmature⟩ := hspends.mature o ho
  obtain ⟨c', hc', ⟨u, hu, hkey, hcreates⟩, hunspent⟩ :=
    spends_of_valid hvalid hkeys (List.mem_map_of_mem ho)
  obtain rfl : c = c' := Option.some.inj (hc.symm.trans hc')
  obtain ⟨t, ht, rfl⟩ := List.mem_map.mp hu
  obtain ⟨hlt, hheight, hcb⟩ := getElem?_coins_eq_some hcreates
  refine ⟨⟨t, ht, hkey, hlt, fun ht => ?_⟩, fun t ht hmem => ?_⟩
  · rw [← hheight]
    exact hmature (hcb ▸ ht)
  · exact hunspent _ (List.mem_map_of_mem ht) (List.mem_map_of_mem hmem)

/-- The last transaction of the example: it spends an output of its own block and a coinbase. -/
def lastSpend : CTransaction := exampleTx 19 [⟨exampleHash 18, 0⟩, ⟨exampleHash 2, 1⟩] [75]

/-- A chain whose block at height 16 spends the coinbase of height 1 and an output of its own. -/
def spendingChain : List (ChainBlock exampleParams) :=
  placeBlocks exampleParams <|
    (List.range 16).map (fun n => exampleBlock (n + 1) n (1400000000 + 300 * n)
      [exampleCoinbase (n.toUInt8 + 1) [50, 60]]) ++
    [exampleBlock 17 16 1400004800
      [exampleCoinbase 17 [10], exampleTx 18 [⟨exampleHash 2, 0⟩] [20, 30], lastSpend]]

/-- A node that has stored the chain. -/
def spendingChainView : ChainView where
  mapTx := ∅
  nBestHeight := 16
  nAdjustedTime := 1400004800
  files := ⟨[spendingChain.reverse.map ChainBlock.block]⟩

/-- The chain of the example is connected. -/
theorem exists_connectedChain_spendingChain : ∃ index, ConnectedChain exampleParams spendingChain index := by
  have hsome : (replay spendingChainView Io.reliable spendingChain).isSome = true := by
    decide +kernel
  obtain ⟨index, hindex⟩ := Option.isSome_iff_exists.mp hsome
  exact ⟨index, connectedChain_of_replay hindex⟩

/-- The last transaction of the example spends earlier outputs that nothing has spent. -/
theorem spent_of_split_spendingChain :
    lastSpend.spent.Nodup ∧ ∀ o ∈ lastSpend.spent,
      (∃ t ∈ (chainTxs spendingChain).take 17, t.2.getHash exampleParams = o.hash ∧
        o.n < t.2.vout.length ∧ (t.2.isCoinBase = true → t.1 + coinbaseMaturity ≤ 16)) ∧
      ∀ t ∈ (chainTxs spendingChain).take 17, o ∉ t.2.spent := by
  obtain ⟨index, hchain⟩ := exists_connectedChain_spendingChain
  have hsplit : chainTxs spendingChain =
      (chainTxs spendingChain).take 17 ++ (16, lastSpend) :: [] := by decide +kernel
  exact hchain.spent_of_split (by decide +kernel) hsplit

end FoxCoin
