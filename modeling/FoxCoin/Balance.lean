import FoxCoin.Accounts

/-! # The balance of a wallet

`getbalance` without an account sums up the outputs that are not spent, and `getbalance "*"` what
was received less what was sent. A comment in the source says that the two should always return the
same number. -/

namespace FoxCoin

/-- What `GetBalance` reads besides: the transactions a wallet transaction brings along, each with
its `fMerkleVerified`, and one more cached amount. -/
structure BalanceView (P : Params) extends AccountView P where
  vtxPrev : Uint256 → List (CWalletTx × Bool)
  fAvailableCreditCached : Uint256 → Bool
  nAvailableCreditCached : Uint256 → ℤ

namespace BalanceView

variable {P : Params} (v : BalanceView P)

/-! ## GetBalance -/

/-- The search of `IsConfirmed` from a transaction, with the transactions it may step to in
`mapPrev`. The number of steps is bounded by theirs; a cycle of hashes would keep the source from
returning. -/
def confirmedFrom (vtxPrev : List (CWalletTx × Bool)) : ℕ → CWalletTx × Bool → Bool
  | 0, _ => false
  | nFuel + 1, (tx, fMerkleVerified) =>
    v.isFinal tx && (decide (1 ≤ v.node.getDepthInMainChain P tx fMerkleVerified) ||
      decide (0 < v.getDebitTx tx.tx) && tx.tx.vin.all fun txin =>
        -- a later transaction with the same hash takes the place in `mapPrev`
        match vtxPrev.reverse.find? fun prev => prev.1.tx.getHash P == txin.prevout.hash with
        | none => false
        | some prev => confirmedFrom vtxPrev nFuel prev)

/-- `CWalletTx::IsConfirmed`. -/
def isConfirmed (hash : Uint256) (wtx : CWalletTx) : Bool :=
  if !v.isFinal wtx then false
  else if v.getDepth hash wtx ≥ 1 then true
  else if !decide (0 < v.getDebit hash wtx) then false
  else v.confirmedFrom (v.vtxPrev hash) ((v.vtxPrev hash).length + 1)
    (wtx, (v.txInfo hash).fMerkleVerified)

/-- The loop of `GetAvailableCredit` from the output `i`. -/
def availableLoop (wtx : CWalletTx) : ℕ → List CTxOut → ℤ
  | _, [] => 0
  | i, txout :: vout =>
    (if !wtx.isSpent i && v.wallet.isMine txout.scriptPubKey then txout.nValue else 0) +
      availableLoop wtx (i + 1) vout

/-- `CWalletTx::GetAvailableCredit`. -/
def getAvailableCredit (hash : Uint256) (wtx : CWalletTx) : ℤ :=
  if wtx.tx.isCoinBase && decide (0 < v.getBlocksToMaturity hash wtx) then 0
  else if v.fAvailableCreditCached hash then v.nAvailableCreditCached hash
  else v.availableLoop wtx 0 wtx.tx.vout

/-- What `GetBalance` adds for a wallet transaction. -/
def balanceTally (entry : Uint256 × CWalletTx) : ℤ :=
  if v.isFinal entry.2 && v.isConfirmed entry.1 entry.2 then v.getAvailableCredit entry.1 entry.2 else 0

/-- `CWallet::GetBalance`, which is `getbalance` without parameters. -/
def getBalance : ℤ := (v.wallet.inOrder.map v.balanceTally).sum

/-! ## Where the two balances part -/

/-- The wallet has signed a transaction, as its cached debit tells. -/
def isOwn (entry : Uint256 × CWalletTx) : Bool :=
  v.isFinal entry.2 && !entry.2.tx.isCoinBase && decide (0 < v.getDebit entry.1 entry.2)

/-- What an own transaction has spent. -/
def debit (entry : Uint256 × CWalletTx) : ℤ :=
  if v.isOwn entry then v.getDebit entry.1 entry.2 else 0

/-- The wallet's outputs of a final transaction in a block that are known to be spent. -/
def spentValue (entry : Uint256 × CWalletTx) : ℤ :=
  if v.isFinal entry.2 && decide (1 ≤ v.getDepth entry.1 entry.2) then
    (if entry.2.tx.isCoinBase then v.getCredit entry.1 entry.2 else v.getCreditTx entry.2.tx) -
      v.getAvailableCredit entry.1 entry.2
  else 0

/-- The change of an own transaction that is in no block, less what `GetBalance` counts of it. -/
def pendingChange (entry : Uint256 × CWalletTx) : ℤ :=
  if v.isOwn entry && !decide (1 ≤ v.getDepth entry.1 entry.2) then
    (entry.2.tx.vout.map fun txout => if v.isChange txout then txout.nValue else 0).sum -
      if v.isConfirmed entry.1 entry.2 then v.getAvailableCredit entry.1 entry.2 else 0
  else 0

/-- The change of an own transaction in a block that the wallet cannot spend. -/
def foreignChange (entry : Uint256 × CWalletTx) : ℤ :=
  if v.isOwn entry && decide (1 ≤ v.getDepth entry.1 entry.2) then
    (entry.2.tx.vout.map fun txout =>
      if v.isChange txout && !v.wallet.isMine txout.scriptPubKey then txout.nValue else 0).sum
  else 0

variable {v} {hash : Uint256} {wtx : CWalletTx}

theorem amountsLoop_own {nDebit : ℤ} (hown : 0 < nDebit) (vout : List CTxOut) :
    ((v.amountsLoop nDebit vout).1.map Prod.snd).sum -
        ((v.amountsLoop nDebit vout).2.map Prod.snd).sum + (vout.map CTxOut.nValue).sum =
      (vout.map fun txout => if v.wallet.isMine txout.scriptPubKey then txout.nValue else 0).sum +
        (vout.map fun txout =>
          if v.isChange txout && !v.wallet.isMine txout.scriptPubKey then txout.nValue else 0).sum := by
  induction vout with
  | nil => rfl
  | cons txout vout ih =>
    rw [AccountView.amountsLoop]
    simp only [List.map_cons, List.sum_cons]
    cases hchange : v.isChange txout with
    | true =>
      rw [if_pos ⟨hown, rfl⟩]
      cases hmine : v.wallet.isMine txout.scriptPubKey with
      | true =>
        simp only [Bool.not_true, Bool.and_false, Bool.false_eq_true, if_true, if_false]
        linarith
      | false =>
        simp only [Bool.not_false, Bool.and_true, Bool.false_eq_true, if_true, if_false]
        linarith
    | false =>
      rw [if_neg (fun h => Bool.false_ne_true h.2)]
      cases hmine : v.wallet.isMine txout.scriptPubKey with
      | true =>
        simp only [hown, Bool.false_and, Bool.false_eq_true, if_true, if_false, List.map_cons,
          List.sum_cons]
        linarith
      | false =>
        simp only [hown, Bool.false_and, Bool.false_eq_true, if_true, if_false, List.map_cons,
          List.sum_cons]
        linarith

theorem amountsLoop_sent {nDebit : ℤ} (hown : 0 < nDebit) (vout : List CTxOut) :
    (vout.map CTxOut.nValue).sum - ((v.amountsLoop nDebit vout).2.map Prod.snd).sum =
      (vout.map fun txout => if v.isChange txout then txout.nValue else 0).sum := by
  induction vout with
  | nil => rfl
  | cons txout vout ih =>
    rw [AccountView.amountsLoop]
    simp only [List.map_cons, List.sum_cons]
    by_cases hchange : v.isChange txout = true
    · rw [if_pos ⟨hown, hchange⟩, if_pos hchange]
      linarith
    · rw [if_neg (fun h => hchange h.2), if_neg hchange]
      simp only [hown, if_true, List.map_cons, List.sum_cons]
      linarith

theorem amountsLoop_foreign {nDebit : ℤ} (hown : ¬0 < nDebit) (vout : List CTxOut) :
    ((v.amountsLoop nDebit vout).1.map Prod.snd).sum =
        (vout.map fun txout => if v.wallet.isMine txout.scriptPubKey then txout.nValue else 0).sum ∧
      (v.amountsLoop nDebit vout).2 = [] := by
  induction vout with
  | nil => exact ⟨rfl, rfl⟩
  | cons txout vout ih =>
    rw [AccountView.amountsLoop]
    simp only [List.map_cons, List.sum_cons]
    rw [if_neg (fun h => hown h.1)]
    simp only [hown, if_false]
    refine ⟨?_, ih.2⟩
    cases v.wallet.isMine txout.scriptPubKey <;> simp [ih.1]

theorem isConfirmed_of_depth (hfinal : v.isFinal wtx = true) (hdepth : 1 ≤ v.getDepth hash wtx) :
    v.isConfirmed hash wtx = true := by
  rw [isConfirmed, hfinal, if_neg (by simp), if_pos hdepth]

theorem isConfirmed_of_foreign (hdepth : ¬1 ≤ v.getDepth hash wtx) (hown : ¬0 < v.getDebit hash wtx) :
    v.isConfirmed hash wtx = false := by
  simp [isConfirmed, hdepth, hown]

/-- A coinbase of which some blocks are missing is worth nothing yet. -/
theorem immature (hcoinbase : wtx.tx.isCoinBase = true) (h : 0 < v.getBlocksToMaturity hash wtx) :
    v.getCredit hash wtx = 0 ∧ v.getAvailableCredit hash wtx = 0 := by
  rw [AccountView.getCredit, getAvailableCredit, hcoinbase, decide_eq_true h]
  exact ⟨rfl, rfl⟩

/-- A mature coinbase is in a block. -/
theorem one_le_depth_of_mature (hcoinbase : wtx.tx.isCoinBase = true)
    (h : ¬0 < v.getBlocksToMaturity hash wtx) : 1 ≤ v.getDepth hash wtx := by
  rw [AccountView.getBlocksToMaturity, hcoinbase, if_neg (by simp), coinbaseMaturity] at h
  omega

/-- The two balances on a coinbase. -/
theorem tallies_of_coinbase (hfinal : v.isFinal wtx = true) (hcoinbase : wtx.tx.isCoinBase = true) :
    v.totalTally 1 (hash, wtx) - v.balanceTally (hash, wtx) = v.spentValue (hash, wtx) := by
  rw [AccountView.totalTally, balanceTally, spentValue, AccountView.getAmounts]
  simp only [hfinal, hcoinbase, if_true, Bool.not_true, Bool.false_eq_true, if_false, Bool.true_and]
  by_cases hmature : 0 < v.getBlocksToMaturity hash wtx
  · obtain ⟨hcredit, havailable⟩ := immature hcoinbase hmature
    rw [if_pos hmature, hcredit, havailable]
    simp
  · have hdepth := one_le_depth_of_mature hcoinbase hmature
    rw [if_neg hmature, isConfirmed_of_depth hfinal hdepth]
    simp [hdepth]

/-- The two balances on a transaction that the wallet has not signed. -/
theorem tallies_of_foreign (hfinal : v.isFinal wtx = true) (hcoinbase : wtx.tx.isCoinBase = false)
    (hown : ¬0 < v.getDebit hash wtx) :
    v.totalTally 1 (hash, wtx) - v.balanceTally (hash, wtx) = v.spentValue (hash, wtx) := by
  obtain ⟨hreceived, hsent⟩ := amountsLoop_foreign (v := v) hown wtx.tx.vout
  rw [AccountView.totalTally, balanceTally, spentValue, AccountView.getAmounts]
  simp only [hfinal, hcoinbase, hown, Bool.not_true, Bool.false_eq_true, if_false, Bool.true_and,
    hreceived, hsent]
  by_cases hdepth : 1 ≤ v.getDepth hash wtx
  · rw [isConfirmed_of_depth hfinal hdepth]
    simp [hdepth, AccountView.getCreditTx]
  · rw [isConfirmed_of_foreign hdepth hown]
    simp [hdepth]

/-- The two balances on an own transaction. -/
theorem tallies_of_own (hfinal : v.isFinal wtx = true) (hcoinbase : wtx.tx.isCoinBase = false)
    (hown : 0 < v.getDebit hash wtx) :
    v.totalTally 1 (hash, wtx) - v.balanceTally (hash, wtx) =
      v.spentValue (hash, wtx) + v.pendingChange (hash, wtx) + v.foreignChange (hash, wtx) -
        v.getDebit hash wtx := by
  have hvalue := amountsLoop_own (v := v) hown wtx.tx.vout
  have hsent := amountsLoop_sent (v := v) hown wtx.tx.vout
  rw [AccountView.totalTally, balanceTally, spentValue, pendingChange, foreignChange, isOwn,
    AccountView.getAmounts]
  simp only [hfinal, hcoinbase, hown, decide_true, Bool.not_true, Bool.not_false, Bool.false_eq_true,
    if_true, if_false, Bool.true_and, Bool.and_true, CTransaction.valueOut]
  by_cases hdepth : 1 ≤ v.getDepth hash wtx
  · rw [isConfirmed_of_depth hfinal hdepth]
    simp only [hdepth, if_true, decide_true, Bool.not_true, Bool.false_eq_true, if_false,
      AccountView.getCreditTx]
    linarith
  · simp only [hdepth, if_false, decide_false, Bool.not_false, Bool.false_eq_true, if_true]
    linarith

/-- **Where the two balances part on one transaction.** -/
theorem totalTally_sub_balanceTally (v : BalanceView P) (entry : Uint256 × CWalletTx) :
    v.totalTally 1 entry - v.balanceTally entry =
      v.spentValue entry + v.pendingChange entry + v.foreignChange entry - v.debit entry := by
  obtain ⟨hash, wtx⟩ := entry
  by_cases hown : v.isOwn (hash, wtx) = true
  · have hparts := hown
    rw [isOwn, Bool.and_eq_true, Bool.and_eq_true, Bool.not_eq_true', decide_eq_true_eq] at hparts
    rw [tallies_of_own hparts.1.1 hparts.1.2 hparts.2, debit, if_pos hown]
  · rw [pendingChange, foreignChange, debit, if_neg hown, Bool.eq_false_of_not_eq_true hown]
    simp only [Bool.false_and, Bool.false_eq_true, if_false, add_zero, sub_zero]
    cases hfinal : v.isFinal wtx with
    | false => simp [AccountView.totalTally, balanceTally, spentValue, hfinal]
    | true =>
      cases hcoinbase : wtx.tx.isCoinBase with
      | true => exact tallies_of_coinbase hfinal hcoinbase
      | false =>
        refine tallies_of_foreign hfinal hcoinbase fun h => hown ?_
        simp [isOwn, hfinal, hcoinbase, h]

/-! ## The two balances -/

/-- The script of a key of the wallet. -/
def exampleScript : CScript := [0x76, 0xa9, 20] ++ List.replicate 20 7 ++ [0x88, 0xac]

/-- A coinbase to that key, which is spent. -/
def spentGeneration : CWalletTx :=
  { CWalletTx.ofTx { exampleCoinbase 1 [] with vout := [⟨50, exampleScript⟩] } with
    hashBlock := 11, nIndex := 0, vfSpent := [true] }

/-- The payment that spends it, to the same key. -/
def examplePayment : CWalletTx :=
  { CWalletTx.ofTx { exampleTx 2 [⟨exampleHash 1, 0⟩] [] with vout := [⟨50, exampleScript⟩] } with
    vfSpent := [false] }

/-- The wallet of both, with a label for the key. -/
def exampleBalance : BalanceView exampleParams where
  node := AccountView.fortyBlocks
  nAdjustedTime := 1400009000
  wallet := ⟨((∅ : StdMap Uint256 CWalletTx).insert (exampleHash 1) spentGeneration).insert
    (exampleHash 2) examplePayment, fun scriptPubKey => scriptPubKey == exampleScript, 0⟩
  txInfo _ := ⟨true, "", false, 0, false, 0⟩
  getID vch := vch
  haveKey id := id == List.replicate 20 7
  haveCScript _ := false
  mapAddressBook := (∅ : AList fun _ : CTxDestination => String).insert
    (.keyID (List.replicate 20 7)) "savings"
  acentries := []
  vtxPrev hash := if hash = exampleHash 2 then [(spentGeneration, true)] else []
  fAvailableCreditCached _ := false
  nAvailableCreditCached _ := 0

theorem exampleBalance_inOrder : exampleBalance.wallet.inOrder =
    [(exampleHash 1, spentGeneration), (exampleHash 2, examplePayment)] := by
  have hkeys : exampleBalance.wallet.mapWallet.keys = insert (exampleHash 1) {exampleHash 2} := by
    decide
  rw [CWallet.inOrder, hkeys, Finset.sort_insert _ (by decide) (by decide), Finset.sort_singleton]
  decide

end BalanceView

end FoxCoin
