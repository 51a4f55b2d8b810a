import FoxCoin.Lib.Postings
import FoxCoin.ListSinceBlock
import Mathlib.Data.List.AList

/-! # Account balances

Three calls tally the wallet transactions by hand: `listaccounts` posts them to a map of accounts,
`GetAccountBalance` tallies one account, and `getbalance "*"` all of them. Amounts are exact, and in
range. -/

namespace FoxCoin

open Postings

/-! ## What the calls read -/

/-- `CTxDestination`. -/
inductive CTxDestination where
  | noDestination
  | keyID (id : Valtype)
  | scriptID (id : Valtype)
  deriving DecidableEq

/-- What a wallet transaction keeps besides what blocks change: its account, and two cached
amounts. -/
structure TxInfo where
  fMerkleVerified : Bool
  strFromAccount : String
  fDebitCached : Bool
  nDebitCached : ℤ
  fCreditCached : Bool
  nCreditCached : ℤ

/-- What the calls read: the chain, the wallet with its keys and its address book, and the
accounting entries of the wallet file. -/
structure AccountView (P : Params) where
  node : NodeState
  nAdjustedTime : ℤ
  wallet : CWallet
  txInfo : Uint256 → TxInfo
  /-- `CPubKey::GetID`. -/
  getID : Valtype → Valtype
  haveKey : Valtype → Bool
  haveCScript : Valtype → Bool
  mapAddressBook : AList fun _ : CTxDestination => String
  acentries : List (String × ℤ)

/-- `ExtractDestination`. -/
def extractDestination (getID : Valtype → Valtype) (scriptPubKey : CScript) : Option CTxDestination :=
  match solver scriptPubKey with
  | none => none
  | some (.txPubkey, vSolutions) => some (.keyID (getID (vSolutions.headD [])))
  | some (.txPubkeyhash, vSolutions) => some (.keyID (vSolutions.headD []))
  | some (.txScripthash, vSolutions) => some (.scriptID (vSolutions.headD []))
  | some _ => none

/-- What `GetAmounts` returns. -/
structure Amounts where
  nGeneratedImmature : ℤ
  nGeneratedMature : ℤ
  listReceived : List (CTxDestination × ℤ)
  listSent : List (CTxDestination × ℤ)
  nFee : ℤ
  strSentAccount : String

/-! ## The calls -/

namespace AccountView

variable {P : Params} (v : AccountView P)

/-- `CWalletTx::IsFinal`. -/
def isFinal (wtx : CWalletTx) : Bool := wtx.tx.isFinal v.node.nBestHeight v.nAdjustedTime 0 0

/-- `CWalletTx::GetDepthInMainChain`. -/
def getDepth (hash : Uint256) (wtx : CWalletTx) : ℤ :=
  v.node.getDepthInMainChain P wtx (v.txInfo hash).fMerkleVerified

/-- `CWalletTx::GetBlocksToMaturity`. -/
def getBlocksToMaturity (hash : Uint256) (wtx : CWalletTx) : ℤ :=
  if !wtx.tx.isCoinBase then 0 else max 0 (coinbaseMaturity + 15 - v.getDepth hash wtx)

/-- `IsMine` of a destination. -/
def isMineDestination : CTxDestination → Bool
  | .noDestination => false
  | .keyID id => v.haveKey id
  | .scriptID id => v.haveCScript id

/-- `CWallet::GetDebit(tx)`. -/
def getDebitTx (tx : CTransaction) : ℤ := (tx.vin.map v.wallet.getDebit).sum

/-- `CWallet::GetCredit(tx)`. -/
def getCreditTx (tx : CTransaction) : ℤ :=
  (tx.vout.map fun txout => if v.wallet.isMine txout.scriptPubKey then txout.nValue else 0).sum

/-- `CWalletTx::GetDebit`. -/
def getDebit (hash : Uint256) (wtx : CWalletTx) : ℤ :=
  if wtx.tx.vin.isEmpty then 0
  else if (v.txInfo hash).fDebitCached then (v.txInfo hash).nDebitCached
  else v.getDebitTx wtx.tx

/-- `CWalletTx::GetCredit`. -/
def getCredit (hash : Uint256) (wtx : CWalletTx) : ℤ :=
  if wtx.tx.isCoinBase && decide (0 < v.getBlocksToMaturity hash wtx) then 0
  else if (v.txInfo hash).fCreditCached then (v.txInfo hash).nCreditCached
  else v.getCreditTx wtx.tx

/-- `CWallet::IsChange`. -/
def isChange (txout : CTxOut) : Bool :=
  match extractDestination v.getID txout.scriptPubKey with
  | none => false
  | some address => v.isMineDestination address && (v.mapAddressBook.lookup address).isNone

/-- The loop of `GetAmounts` over the outputs: `listReceived` and `listSent`. -/
def amountsLoop (nDebit : ℤ) :
    List CTxOut → List (CTxDestination × ℤ) × List (CTxDestination × ℤ)
  | [] => ([], [])
  | txout :: vout =>
    let address := (extractDestination v.getID txout.scriptPubKey).getD .noDestination
    let (listReceived, listSent) := amountsLoop nDebit vout
    if 0 < nDebit ∧ v.isChange txout = true then (listReceived, listSent)
    else
      (if v.wallet.isMine txout.scriptPubKey then (address, txout.nValue) :: listReceived
        else listReceived,
        if 0 < nDebit then (address, txout.nValue) :: listSent else listSent)

/-- `CWalletTx::GetAmounts`. -/
def getAmounts (hash : Uint256) (wtx : CWalletTx) : Amounts :=
  let strSentAccount := (v.txInfo hash).strFromAccount
  if wtx.tx.isCoinBase then
    if 0 < v.getBlocksToMaturity hash wtx then ⟨v.getCreditTx wtx.tx, 0, [], [], 0, strSentAccount⟩
    else ⟨0, v.getCredit hash wtx, [], [], 0, strSentAccount⟩
  else
    let nDebit := v.getDebit hash wtx
    let nFee := if 0 < nDebit then nDebit - wtx.tx.valueOut else 0
    let (listReceived, listSent) := v.amountsLoop nDebit wtx.tx.vout
    ⟨0, 0, listReceived, listSent, nFee, strSentAccount⟩

/-- The loop of `GetAccountAmounts` over `listReceived`. -/
def receivedBy (strAccount : String) (listReceived : List (CTxDestination × ℤ)) : ℤ :=
  (listReceived.map fun r =>
    match v.mapAddressBook.lookup r.1 with
    | some strName => if strName = strAccount then r.2 else 0
    | none => if strAccount = "" then r.2 else 0).sum

/-- `CWalletTx::GetAccountAmounts`: `nGenerated`, `nReceived`, `nSent` and `nFee`. -/
def getAccountAmounts (strAccount : String) (hash : Uint256) (wtx : CWalletTx) : ℤ × ℤ × ℤ × ℤ :=
  let amounts := v.getAmounts hash wtx
  let nGenerated := if strAccount = "" then amounts.nGeneratedMature else 0
  let nReceived := v.receivedBy strAccount amounts.listReceived
  if strAccount = amounts.strSentAccount then
    (nGenerated, nReceived, (amounts.listSent.map Prod.snd).sum, amounts.nFee)
  else (nGenerated, nReceived, 0, 0)

/-- `CWalletDB::GetAccountCreditDebit`. -/
def getAccountCreditDebit (strAccount : String) : ℤ :=
  ((v.acentries.filter fun entry => strAccount = "*" || entry.1 == strAccount).map Prod.snd).sum

/-- What `GetAccountBalance` adds for a wallet transaction. -/
def accountTally (strAccount : String) (nMinDepth : ℤ) (entry : Uint256 × CWalletTx) : ℤ :=
  if !v.isFinal entry.2 then 0
  else
    let (nGenerated, nReceived, nSent, nFee) := v.getAccountAmounts strAccount entry.1 entry.2
    (if nReceived ≠ 0 ∧ v.getDepth entry.1 entry.2 ≥ nMinDepth then nReceived else 0) +
      (nGenerated - nSent - nFee)

/-- `GetAccountBalance`. -/
def getAccountBalance (strAccount : String) (nMinDepth : ℤ) : ℤ :=
  (v.wallet.inOrder.map (v.accountTally strAccount nMinDepth)).sum +
    v.getAccountCreditDebit strAccount

/-- What `getbalance "*"` adds for a wallet transaction. -/
def totalTally (nMinDepth : ℤ) (entry : Uint256 × CWalletTx) : ℤ :=
  if !v.isFinal entry.2 then 0
  else
    let amounts := v.getAmounts entry.1 entry.2
    (if v.getDepth entry.1 entry.2 ≥ nMinDepth then (amounts.listReceived.map Prod.snd).sum else 0) -
      (amounts.listSent.map Prod.snd).sum - amounts.nFee + amounts.nGeneratedMature

/-- `getbalance` with an account and a minimum depth. -/
def getbalance (strAccount : String) (nMinDepth : ℤ) : ℤ :=
  if strAccount = "*" then (v.wallet.inOrder.map (v.totalTally nMinDepth)).sum
  else v.getAccountBalance strAccount nMinDepth

/-- The account of a destination in `listaccounts`. -/
def accountOf (address : CTxDestination) : String :=
  match v.mapAddressBook.lookup address with
  | some strName => strName
  | none => ""

/-- What `listaccounts` posts for a wallet transaction. -/
def postings (nMinDepth : ℤ) (entry : Uint256 × CWalletTx) : List (String × ℤ) :=
  let amounts := v.getAmounts entry.1 entry.2
  (amounts.strSentAccount, -amounts.nFee) ::
    amounts.listSent.map (fun s => (amounts.strSentAccount, -s.2)) ++
    if v.getDepth entry.1 entry.2 ≥ nMinDepth then
      ("", amounts.nGeneratedMature) :: amounts.listReceived.map fun r => (v.accountOf r.1, r.2)
    else []

/-- The accounts that `listaccounts` begins with. -/
def openAccounts : Book String :=
  v.mapAddressBook.entries.foldl (fun mapAccountBalances entry =>
    if v.isMineDestination entry.1 then mapAccountBalances.insert entry.2 0 else mapAccountBalances) ∅

/-- `listaccounts`. -/
def listaccounts (nMinDepth : ℤ) : Book String :=
  postAll (v.wallet.inOrder.foldl (fun mapAccountBalances entry =>
    postAll mapAccountBalances (v.postings nMinDepth entry)) v.openAccounts) v.acentries

/-! ## Two tallies of one transaction -/

variable {v} {a : String} {nMinDepth : ℤ}

theorem receivedBy_eq (listReceived : List (CTxDestination × ℤ)) :
    v.receivedBy a listReceived =
      amountAt a (listReceived.map fun r => (v.accountOf r.1, r.2)) := by
  induction listReceived with
  | nil => rfl
  | cons r listReceived ih =>
    rw [receivedBy] at ih ⊢
    rw [List.map_cons, List.map_cons, amountAt_cons, List.sum_cons, ih, accountOf]
    cases v.mapAddressBook.lookup r.1 with
    | none => simp only [eq_comm (a := a)]
    | some strName => rfl

theorem sum_map_neg_snd (l : List (CTxDestination × ℤ)) :
    (l.map fun s => -s.2).sum = -(l.map Prod.snd).sum := by
  induction l with
  | nil => rfl
  | cons s l ih =>
    rw [List.map_cons, List.map_cons, List.sum_cons, List.sum_cons, ih]
    ring

/-- What `listaccounts` posts to an account. -/
theorem amountAt_postings (a : String) (nMinDepth : ℤ) (entry : Uint256 × CWalletTx) :
    let amounts := v.getAmounts entry.1 entry.2
    amountAt a (v.postings nMinDepth entry) =
      (if a = amounts.strSentAccount then -amounts.nFee - (amounts.listSent.map Prod.snd).sum else 0) +
        if v.getDepth entry.1 entry.2 ≥ nMinDepth then
          (if a = "" then amounts.nGeneratedMature else 0) + v.receivedBy a amounts.listReceived
        else 0 := by
  intro amounts
  have hsent : amountAt a (amounts.listSent.map fun s => (amounts.strSentAccount, -s.2)) =
      if amounts.strSentAccount = a then -(amounts.listSent.map Prod.snd).sum else 0 := by
    rw [amountAt_map_const, sum_map_neg_snd]
  rw [postings, List.cons_append, amountAt_cons, amountAt_append, hsent]
  by_cases hdepth : v.getDepth entry.1 entry.2 ≥ nMinDepth
  · rw [if_pos hdepth, if_pos hdepth, amountAt_cons, receivedBy_eq]
    simp only [eq_comm (a := a)]
    split_ifs <;> ring
  · rw [if_neg hdepth, if_neg hdepth, amountAt_nil]
    simp only [eq_comm (a := a)]
    split_ifs <;> ring

theorem ite_ne_zero_and (n : ℤ) (c : Prop) [Decidable c] :
    (if n ≠ 0 ∧ c then n else 0) = if c then n else 0 := by
  by_cases hn : n = 0
  · rw [if_neg (fun h => h.1 hn), hn, ite_self]
  · simp only [ne_eq, hn, not_false_eq_true, true_and]

/-- What `GetAccountBalance` adds for a final transaction. -/
theorem accountTally_of_final {entry : Uint256 × CWalletTx} (hfinal : v.isFinal entry.2 = true) :
    let amounts := v.getAmounts entry.1 entry.2
    v.accountTally a nMinDepth entry =
      (if v.getDepth entry.1 entry.2 ≥ nMinDepth then v.receivedBy a amounts.listReceived else 0) +
        (if a = "" then amounts.nGeneratedMature else 0) +
        if a = amounts.strSentAccount then -amounts.nFee - (amounts.listSent.map Prod.snd).sum else 0 := by
  intro amounts
  rw [accountTally, hfinal, getAccountAmounts]
  simp only [Bool.not_true, Bool.false_eq_true, if_false, ite_ne_zero_and]
  by_cases hacc : a = amounts.strSentAccount
  · rw [if_pos (show a = (v.getAmounts entry.1 entry.2).strSentAccount from hacc), if_pos hacc]
    ring
  · rw [if_neg (show ¬a = (v.getAmounts entry.1 entry.2).strSentAccount from hacc), if_neg hacc]
    ring

/-- The mature generation of a transaction that is below the minimum depth. -/
def young (v : AccountView P) (nMinDepth : ℤ) (entry : Uint256 × CWalletTx) : ℤ :=
  if v.getDepth entry.1 entry.2 < nMinDepth then (v.getAmounts entry.1 entry.2).nGeneratedMature else 0

/-- **What the two calls add to an account for a final transaction.** They part where its mature
generation is below the minimum depth. -/
theorem accountTally_eq {entry : Uint256 × CWalletTx} (hfinal : v.isFinal entry.2 = true) :
    v.accountTally a nMinDepth entry = amountAt a (v.postings nMinDepth entry) +
      if a = "" then v.young nMinDepth entry else 0 := by
  rw [accountTally_of_final hfinal, amountAt_postings, young]
  by_cases hdepth : v.getDepth entry.1 entry.2 ≥ nMinDepth
  · rw [if_pos hdepth, if_pos hdepth, if_neg (not_lt.mpr hdepth), ite_self]
    ring
  · rw [if_neg hdepth, if_neg hdepth, if_pos (not_le.mp hdepth)]
    ring

/-- What `getbalance "*"` adds for a final transaction. -/
theorem totalTally_eq {entry : Uint256 × CWalletTx} (hfinal : v.isFinal entry.2 = true) :
    v.totalTally nMinDepth entry = amount (v.postings nMinDepth entry) + v.young nMinDepth entry := by
  rw [totalTally, hfinal, postings, young, List.cons_append, amount_cons, amount_append, amount_map,
    sum_map_neg_snd]
  simp only [Bool.not_true, Bool.false_eq_true, if_false]
  by_cases hdepth : v.getDepth entry.1 entry.2 ≥ nMinDepth
  · rw [if_pos hdepth, if_pos hdepth, if_neg (not_lt.mpr hdepth), amount_cons, amount_map]
    ring
  · rw [if_neg hdepth, if_neg hdepth, if_pos (not_le.mp hdepth), amount_nil]
    ring

/-! ## The books -/

theorem balance_openAccounts (v : AccountView P) (a : String) : balance v.openAccounts a = 0 := by
  have hzero : ∀ (l : List (Sigma fun _ : CTxDestination => String)) (book : Book String),
      balance book a = 0 → balance (l.foldl (fun mapAccountBalances entry =>
        if v.isMineDestination entry.1 then mapAccountBalances.insert entry.2 0
        else mapAccountBalances) book) a = 0 := by
    intro l
    induction l with
    | nil => exact fun _ h => h
    | cons entry l ih =>
      intro book h
      rw [List.foldl_cons]
      refine ih _ ?_
      by_cases hmine : v.isMineDestination entry.1 = true
      · rw [if_pos hmine, balance_insert, h, ite_self]
      · rw [if_neg hmine, h]
  exact hzero _ ∅ rfl

theorem sum_openAccounts (v : AccountView P) : Postings.sum v.openAccounts = 0 :=
  sum_eq_zero (balance_openAccounts v)

/-- What `listaccounts` posts, in its order. -/
def allPostings (v : AccountView P) (nMinDepth : ℤ) : List (String × ℤ) :=
  v.wallet.inOrder.flatMap (v.postings nMinDepth) ++ v.acentries

theorem listaccounts_eq (v : AccountView P) (nMinDepth : ℤ) :
    v.listaccounts nMinDepth = postAll v.openAccounts (v.allPostings nMinDepth) := by
  rw [listaccounts, foldl_postAll, allPostings, postAll_append]

/-- What `listaccounts` posts for transactions that are not final. -/
def nonFinalPostings (v : AccountView P) (nMinDepth : ℤ) : List (String × ℤ) :=
  (v.wallet.inOrder.filter fun entry => !v.isFinal entry.2).flatMap (v.postings nMinDepth)

/-- The mature generation of final transactions below the minimum depth. -/
def youngTotal (v : AccountView P) (nMinDepth : ℤ) : ℤ :=
  ((v.wallet.inOrder.filter fun entry => v.isFinal entry.2).map (v.young nMinDepth)).sum

/-- **The two balances of an account differ** by what is posted for transactions that are not final,
and by mature generation below the minimum depth. -/
theorem balance_listaccounts (ha : a ≠ "*") :
    balance (v.listaccounts nMinDepth) a =
      v.getbalance a nMinDepth + amountAt a (v.nonFinalPostings nMinDepth) -
        if a = "" then v.youngTotal nMinDepth else 0 := by
  have hentries : v.getAccountCreditDebit a = amountAt a v.acentries := by
    rw [getAccountCreditDebit, amountAt_eq_filter]
    simp only [ha, decide_false, Bool.false_or]
  have htxs : ∀ l : List (Uint256 × CWalletTx), amountAt a (l.flatMap (v.postings nMinDepth)) =
      (l.map (v.accountTally a nMinDepth)).sum +
        amountAt a ((l.filter fun entry => !v.isFinal entry.2).flatMap (v.postings nMinDepth)) -
        if a = "" then ((l.filter fun entry => v.isFinal entry.2).map (v.young nMinDepth)).sum
        else 0 := by
    intro l
    induction l with
    | nil => simp
    | cons entry l ih =>
      rw [List.flatMap_cons, amountAt_append, ih, List.map_cons, List.sum_cons]
      cases hfinal : v.isFinal entry.2 with
      | true =>
        rw [List.filter_cons_of_neg (by simp [hfinal]), List.filter_cons_of_pos (by simp [hfinal]),
          List.map_cons, List.sum_cons, accountTally_eq hfinal]
        split_ifs <;> ring
      | false =>
        rw [List.filter_cons_of_pos (by simp [hfinal]), List.filter_cons_of_neg (by simp [hfinal]),
          List.flatMap_cons, amountAt_append, accountTally, hfinal]
        simp only [Bool.not_false, if_true]
        ring
  rw [listaccounts_eq, balance_postAll, balance_openAccounts, allPostings, amountAt_append, htxs,
    getbalance, if_neg ha, getAccountBalance, hentries, nonFinalPostings, youngTotal]
  ring

/-- **The two totals differ** by the same amounts over all accounts, and by the accounting
entries. -/
theorem sum_listaccounts :
    Postings.sum (v.listaccounts nMinDepth) =
      v.getbalance "*" nMinDepth + amount (v.nonFinalPostings nMinDepth) -
        v.youngTotal nMinDepth + amount v.acentries := by
  have htxs : ∀ l : List (Uint256 × CWalletTx), amount (l.flatMap (v.postings nMinDepth)) =
      (l.map (v.totalTally nMinDepth)).sum +
        amount ((l.filter fun entry => !v.isFinal entry.2).flatMap (v.postings nMinDepth)) -
        ((l.filter fun entry => v.isFinal entry.2).map (v.young nMinDepth)).sum := by
    intro l
    induction l with
    | nil => simp
    | cons entry l ih =>
      rw [List.flatMap_cons, amount_append, ih, List.map_cons, List.sum_cons]
      cases hfinal : v.isFinal entry.2 with
      | true =>
        rw [List.filter_cons_of_neg (by simp [hfinal]), List.filter_cons_of_pos (by simp [hfinal]),
          List.map_cons, List.sum_cons, totalTally_eq hfinal]
        ring
      | false =>
        rw [List.filter_cons_of_pos (by simp [hfinal]), List.filter_cons_of_neg (by simp [hfinal]),
          List.flatMap_cons, amount_append, totalTally, hfinal]
        simp only [Bool.not_false, if_true]
        ring
  rw [listaccounts_eq, sum_postAll, sum_openAccounts, allPostings, amount_append, htxs, getbalance,
    if_pos rfl, nonFinalPostings, youngTotal]
  ring

/-- **`listaccounts` and `getbalance` agree** exactly where the transactions that are not final add
to every account what `listaccounts` leaves out of mature generation, which belongs to the account
`""`, and in total the accounting entries make up the rest. -/
theorem listaccounts_agrees_iff (v : AccountView P) (nMinDepth : ℤ) :
    ((∀ a, a ≠ "*" → balance (v.listaccounts nMinDepth) a = v.getbalance a nMinDepth) ∧
        Postings.sum (v.listaccounts nMinDepth) = v.getbalance "*" nMinDepth) ↔
      (∀ a, a ≠ "*" → amountAt a (v.nonFinalPostings nMinDepth) =
          if a = "" then v.youngTotal nMinDepth else 0) ∧
        amount (v.nonFinalPostings nMinDepth) + amount v.acentries = v.youngTotal nMinDepth := by
  have haccount : ∀ a, a ≠ "*" → (balance (v.listaccounts nMinDepth) a = v.getbalance a nMinDepth ↔
      amountAt a (v.nonFinalPostings nMinDepth) =
        if a = "" then v.youngTotal nMinDepth else 0) := by
    intro a ha
    rw [balance_listaccounts ha]
    constructor
    · intro h
      linarith
    · intro h
      rw [h]
      ring
  have htotal : Postings.sum (v.listaccounts nMinDepth) = v.getbalance "*" nMinDepth ↔
      amount (v.nonFinalPostings nMinDepth) + amount v.acentries = v.youngTotal nMinDepth := by
    rw [sum_listaccounts]
    constructor
    · intro h
      linarith
    · intro h
      linarith
  exact and_congr (forall₂_congr haccount) htotal

/-! ## A coinbase below the minimum depth -/

/-- A coinbase of the wallet in the first block. -/
def exampleGeneration : CWalletTx :=
  { CWalletTx.ofTx (exampleCoinbase 1 [50]) with hashBlock := 11, nIndex := 0 }

/-- A chain of forty blocks above the genesis block, as far as the calls read it: its tip, and the
first block. -/
def fortyBlocks : NodeState :=
  let pindexFirst : CBlockIndex := ⟨11, some 10, 1, 0, 1, 2, 1, 0, 0, 0, 0⟩
  let pindexBest : CBlockIndex := ⟨50, some 49, 1, 0, 40, 41, 1, 0, 0, 0, 0⟩
  { NodeState.empty [] with
    mapBlockIndex := ((∅ : StdMap Uint256 CBlockIndex).insert 11 pindexFirst).insert 50 pindexBest
    pnext := (∅ : StdMap Uint256 Uint256).insert 11 12
    pindexBest := some pindexBest
    nBestHeight := 40 }

/-- The wallet of the coinbase, whose key has no label. -/
def exampleView : AccountView exampleParams where
  node := fortyBlocks
  nAdjustedTime := 1400009000
  wallet := ⟨(∅ : StdMap Uint256 CWalletTx).insert (exampleHash 1) exampleGeneration, fun _ => true, 0⟩
  txInfo _ := ⟨true, "", false, 0, false, 0⟩
  getID vch := vch
  haveKey _ := true
  haveCScript _ := false
  mapAddressBook := ∅
  acentries := []

theorem exampleView_inOrder : exampleView.wallet.inOrder = [(exampleHash 1, exampleGeneration)] := by
  have hkeys : exampleView.wallet.mapWallet.keys.sort (· ≤ ·) = [exampleHash 1] :=
    Finset.sort_singleton _ _
  rw [CWallet.inOrder, hkeys]
  rfl

/-- **A mature coinbase below the minimum depth** is in the balance of `getbalance`, for its account
and in total, and not in those of `listaccounts`. -/
theorem not_forall_listaccounts_agrees :
    ¬∀ (v : AccountView exampleParams) (nMinDepth : ℤ),
      (∀ a, a ≠ "*" → balance (v.listaccounts nMinDepth) a = v.getbalance a nMinDepth) ∧
        Postings.sum (v.listaccounts nMinDepth) = v.getbalance "*" nMinDepth := by
  intro h
  have htotal := (h exampleView 100).2
  have hlist : Postings.sum (exampleView.listaccounts 100) = 0 := by
    rw [listaccounts, exampleView_inOrder]
    decide +kernel
  have hget : exampleView.getbalance "*" 100 = 50 := by
    rw [getbalance, if_pos rfl, exampleView_inOrder]
    decide +kernel
  rw [hlist, hget] at htotal
  exact absurd htotal (by decide)

end AccountView

end FoxCoin
