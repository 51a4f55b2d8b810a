import FoxCoin.Balance
import FoxCoin.CoinSelection
import FoxCoin.MinFee
import FoxCoin.WalletCaches

/-! # Creating a transaction

`CreateTransaction` looks for coins that pay the payees and a fee, returns what is left over as
change, and starts again with a higher fee until the fee is enough for the size of the transaction.
Amounts are signed 64-bit numbers. -/

namespace FoxCoin

/-! ## The coins of the wallet -/

namespace BalanceView

variable {P : Params} (v : BalanceView P)

/-- The outputs of a wallet transaction that `AvailableCoins` lists. -/
def coinsOf (hash : Uint256) (wtx : CWalletTx) : List COutput :=
  wtx.tx.vout.zipIdx.filterMap fun out =>
    if !wtx.isSpent out.2 && v.wallet.isMine out.1.scriptPubKey &&
        decide (v.wallet.nMinimumInputValue ≤ out.1.nValue) then
      some ⟨hash, out.2, v.getDepth hash wtx, out.1.nValue, decide (0 < v.getDebit hash wtx)⟩
    else none

/-- `CWallet::AvailableCoins`, of confirmed transactions only. -/
def availableCoins : List COutput :=
  v.wallet.inOrder.flatMap fun entry =>
    if !v.isFinal entry.2 then []
    else if !v.isConfirmed entry.1 entry.2 then []
    else if entry.2.tx.isCoinBase && decide (0 < v.getBlocksToMaturity entry.1 entry.2) then []
    else v.coinsOf entry.1 entry.2

/-- The same wallet at another time. -/
def atTime (nAdjustedTime : ℤ) : BalanceView P := { v with nAdjustedTime := nAdjustedTime }

end BalanceView

/-- `CWallet::SelectCoins`: the coins are searched three times, for fewer and fewer
confirmations. -/
def selectCoins (R₁ R₂ R₃ : CoinChances) (nTargetValue : ℤ) (vCoins : List COutput) :
    Option Selection :=
  (selectCoinsMinConf R₁ nTargetValue 1 6 vCoins).or
    ((selectCoinsMinConf R₂ nTargetValue 1 1 vCoins).or
      (selectCoinsMinConf R₃ nTargetValue 0 1 vCoins))

/-! ## The fee loop -/

/-- What a round of the fee loop cannot know: the time, what chance decides in the three searches,
the order of the chosen coins, which are sorted by address, the key for the change and its place,
the signatures, and whether the priority is high enough for a free transaction. -/
structure RoundChances where
  nAdjustedTime : ℤ
  coins₁ : CoinChances
  coins₂ : CoinChances
  coins₃ : CoinChances
  inOrder : Finset CoinKey → List CoinKey
  inOrder_perm : ∀ s, (inOrder s).Perm s.toList
  keyID : Valtype
  getRandInt : ℕ → ℕ
  getRandInt_lt : ∀ n, 0 < n → getRandInt n < n
  sign : CTransaction → ℕ → Option CScript
  fAllowFree : Bool

/-- What a round leads to: `return false`, another round, or the transaction and its fee. -/
inductive RoundResult where
  | failed
  | again (nFeeRet : ℤ)
  | created (wtxNew : CTransaction) (nFeeRet : ℤ)

/-- The loop over the inputs that signs them; `none` when an input cannot be signed. -/
def signInputs (sign : CTransaction → ℕ → Option CScript) (wtxNew : CTransaction) :
    Option CTransaction :=
  (List.range wtxNew.vin.length).foldlM (fun tx nIn =>
    (sign tx nIn).map fun scriptSig =>
      { tx with vin := tx.vin.modify nIn fun txin => { txin with scriptSig } }) wtxNew

/-- The outputs to the payees. -/
def payeeOutputs (vecSend : List (CScript × ℤ)) : List CTxOut := vecSend.map fun s => ⟨s.2, s.1⟩

/-- What a sub-cent change adds to a fee below `MIN_TX_FEE`. -/
def moveToFee (nFeeRet nChange : ℤ) : ℤ :=
  if nFeeRet < minTxFee ∧ 0 < nChange ∧ nChange < cent then min nChange (minTxFee - nFeeRet) else 0

/-- The outputs to the payees, and the change at a random place. -/
def outputsWithChange (R : RoundChances) (vecSend : List (CScript × ℤ)) (nChange : ℤ) :
    List CTxOut :=
  if 0 < nChange then
    (payeeOutputs vecSend).insertIdx (R.getRandInt (payeeOutputs vecSend).length)
      ⟨nChange, CacheWallet.scriptForKeyID R.keyID⟩
  else payeeOutputs vecSend

/-- The inputs that claim the chosen coins. -/
def inputsOf (R : RoundChances) (setCoins : Finset CoinKey) : List CTxIn :=
  (R.inOrder setCoins).map fun coin => ⟨⟨coin.1, coin.2⟩, [], uintMax⟩

/-- The end of a round: the size is limited, and the fee is checked. -/
def checkFee (nTransactionFee : ℤ) (fAllowFree : Bool) (wtxNew : CTransaction) (nFeeRet : ℤ) :
    RoundResult :=
  let nBytes := wtxNew.getSerializeSize
  if maxBlockSizeGen / 5 ≤ nBytes then .failed
  else
    let nPayFee := int64 (nTransactionFee * (1 + (nBytes / 1000 : ℕ)))
    let nMinFee := wtxNew.getMinFee 1 fAllowFree
    if nFeeRet < max nPayFee nMinFee then .again (max nPayFee nMinFee)
    else .created wtxNew nFeeRet

section Loop

variable {P : Params} (v : BalanceView P) (nTransactionFee : ℤ) (vecSend : List (CScript × ℤ))
  (wtxNew : CTransaction)

/-- The transaction of a round and what it pays as a fee: choose coins, return the change, fill the
inputs and sign. -/
def buildTx (nValue : ℤ) (R : RoundChances) (nFeeRet : ℤ) : Option (CTransaction × ℤ) :=
  let nTotalValue := int64 (nValue + nFeeRet)
  match selectCoins R.coins₁ R.coins₂ R.coins₃ nTotalValue
    (v.atTime R.nAdjustedTime).availableCoins with
  | none => none
  | some selection =>
    let nChange := int64 (int64 (selection.nValueRet - nValue) - nFeeRet)
    -- a sub-cent change raises the fee to `MIN_TX_FEE`, or is used up
    let nMoveToFee := moveToFee nFeeRet nChange
    (signInputs R.sign { wtxNew with
        vin := inputsOf R selection.setCoinsRet
        vout := outputsWithChange R vecSend (nChange - nMoveToFee) }).map fun tx =>
      (tx, nFeeRet + nMoveToFee)

/-- A round of the fee loop, for payees of `nValue` together. -/
def createRound (nValue : ℤ) (R : RoundChances) (nFeeRet : ℤ) : RoundResult :=
  match buildTx v vecSend wtxNew nValue R nFeeRet with
  | none => .failed
  | some (tx, nFeeRet) => checkFee nTransactionFee R.fAllowFree tx nFeeRet

/-- The fee loop from a round on; `none` when it has not returned after so many rounds, and
`some none` is `return false`. -/
def feeLoop (nValue : ℤ) (R : ℕ → RoundChances) : ℕ → ℕ → ℤ → Option (Option (CTransaction × ℤ))
  | 0, _, _ => none
  | nRounds + 1, n, nFeeRet =>
    match createRound v nTransactionFee vecSend wtxNew nValue (R n) nFeeRet with
    | .failed => some none
    | .again nFeeRet => feeLoop nValue R nRounds (n + 1) nFeeRet
    | .created wtxNew nFeeRet => some (some (wtxNew, nFeeRet))

/-- The sum of the amounts of the payees, with the checks of the loop. -/
def payeesTotal : ℤ → List (CScript × ℤ) → Option ℤ
  | nValue, [] => if nValue < 0 then none else some nValue
  | nValue, s :: vecSend => if nValue < 0 then none else payeesTotal (int64 (nValue + s.2)) vecSend

/-- `CWallet::CreateTransaction` within a number of rounds. The transaction is handed in and keeps
its version and lock time. -/
def createTransaction (R : ℕ → RoundChances) (nRounds : ℕ) : Option (Option (CTransaction × ℤ)) :=
  match payeesTotal 0 vecSend with
  | none => some none
  | some nValue =>
    if vecSend.isEmpty then some none
    else feeLoop v nTransactionFee vecSend wtxNew nValue R nRounds 0 nTransactionFee

/-- The rounds that the loop gets to, with the fee they start with. -/
inductive RoundReached (nValue : ℤ) (R : ℕ → RoundChances) : ℕ → ℤ → Prop
  | first : RoundReached nValue R 0 nTransactionFee
  | again {n : ℕ} {nFeeRet nFeeRet' : ℤ} (h : RoundReached nValue R n nFeeRet)
      (hround : createRound v nTransactionFee vecSend wtxNew nValue (R n) nFeeRet = .again nFeeRet') :
      RoundReached nValue R (n + 1) nFeeRet'

/-- The amounts of the payees together, whatever their sum. -/
def payeesValue : ℤ := (vecSend.map Prod.snd).sum

/-- **The numbers of a round fit 64 bits**: the payees, the fee and `CENT`, the coins of the wallet,
and the transaction fee times the size. -/
structure RoundFits (nValue : ℤ) (R : RoundChances) (nFeeRet : ℤ) : Prop where
  total : payeesValue vecSend + nFeeRet + cent < 2 ^ 63
  coins : valueOfCoins (v.atTime R.nAdjustedTime).availableCoins < int64Max
  payFee : ∀ tx nFee, buildTx v vecSend wtxNew nValue R nFeeRet = some (tx, nFee) →
    tx.getSerializeSize < maxBlockSizeGen / 5 →
    nTransactionFee * (1 + (tx.getSerializeSize / 1000 : ℕ)) < 2 ^ 63

end Loop

/-- The amount of an output of a wallet transaction. -/
def CWallet.valueAt (wallet : CWallet) (o : COutPoint) : ℤ :=
  ((wallet.mapWallet.lookup o.hash).bind fun wtx => wtx.tx.vout[o.n]?).elim 0 CTxOut.nValue

/-- **What a transaction is that pays the payees and a fee**: its inputs are worth the payees, the
change and the fee, its outputs are those to the payees and at most one more, and the fee is enough
for the wallet and for the memory pool. -/
structure CTransaction.PaysWith (wallet : CWallet) (nTransactionFee : ℤ)
    (vecSend : List (CScript × ℤ)) (nFeeRet : ℤ) (tx : CTransaction) : Prop where
  balance : ∃ change : Option CTxOut, (payeeOutputs vecSend).Sublist tx.vout ∧
    tx.vout.Perm (change.toList ++ payeeOutputs vecSend) ∧
    (tx.prevouts.map wallet.valueAt).sum =
      payeesValue vecSend + change.elim 0 CTxOut.nValue + nFeeRet
  payFee : nTransactionFee * (1 + (tx.getSerializeSize / 1000 : ℕ)) ≤ nFeeRet
  relayFee : tx.getMinFee 1000 true ≤ nFeeRet

/-! ## The coins are outputs of the wallet -/

section Coins

variable {P : Params} {v : BalanceView P}

/-- A listed output is an output of the wallet transaction, and worth the least amount. -/
theorem BalanceView.mem_coinsOf {hash : Uint256} {wtx : CWalletTx} {output : COutput}
    (h : output ∈ v.coinsOf hash wtx) : output.tx = hash ∧
      (∃ txout, wtx.tx.vout[output.i]? = some txout ∧ txout.nValue = output.nValue) ∧
      v.wallet.nMinimumInputValue ≤ output.nValue := by
  obtain ⟨⟨txout, i⟩, hmem, hsome⟩ := List.mem_filterMap.mp h
  rw [Option.ite_none_right_eq_some] at hsome
  obtain ⟨hcond, heq⟩ := hsome
  obtain rfl := Option.some.inj heq
  rw [Bool.and_eq_true, decide_eq_true_eq] at hcond
  exact ⟨rfl, ⟨txout, List.mem_zipIdx_iff_getElem?.mp hmem, rfl⟩, hcond.2⟩

/-- The outputs of a transaction are listed once. -/
theorem BalanceView.nodup_coinsOf (hash : Uint256) (wtx : CWalletTx) :
    ((v.coinsOf hash wtx).map COutput.i).Nodup := by
  have hsub : ∀ l : List (CTxOut × ℕ), ((l.filterMap fun out =>
      if !wtx.isSpent out.2 && v.wallet.isMine out.1.scriptPubKey &&
          decide (v.wallet.nMinimumInputValue ≤ out.1.nValue) then
        some (⟨hash, out.2, v.getDepth hash wtx, out.1.nValue,
          decide (0 < v.getDebit hash wtx)⟩ : COutput)
      else none).map COutput.i).Sublist (l.map Prod.snd) := by
    intro l
    induction l with
    | nil => exact .slnil
    | cons out l ih =>
      rw [List.filterMap_cons, List.map_cons]
      split
      · exact ih.cons _
      · next hsome =>
        rw [Option.ite_none_right_eq_some] at hsome
        obtain rfl := Option.some.inj hsome.2
        exact ih.cons_cons _
  refine List.Nodup.sublist (hsub _) ?_
  rw [List.zipIdx_map_snd]
  exact List.nodup_range'

/-- A listed coin comes from a wallet transaction. -/
theorem BalanceView.mem_availableCoins {output : COutput} (h : output ∈ v.availableCoins) :
    ∃ wtx, v.wallet.mapWallet.lookup output.tx = some wtx ∧ output ∈ v.coinsOf output.tx wtx := by
  obtain ⟨⟨hash, wtx⟩, hentry, hmem⟩ := List.mem_flatMap.mp h
  dsimp only at hmem
  split_ifs at hmem
  · cases hmem
  · cases hmem
  · cases hmem
  · obtain ⟨rfl, -, -⟩ := BalanceView.mem_coinsOf hmem
    exact ⟨wtx, CWallet.mem_inOrder.mp hentry, hmem⟩

/-- No output is listed twice. -/
theorem BalanceView.nodup_availableCoins : (v.availableCoins.map COutput.key).Nodup := by
  rw [availableCoins, List.map_flatMap]
  refine List.nodup_flatMap.mpr ⟨fun entry _ => ?_, ?_⟩
  · split_ifs
    · exact List.nodup_nil
    · exact List.nodup_nil
    · exact List.nodup_nil
    · refine List.Nodup.of_map Prod.snd ?_
      rw [List.map_map]
      exact BalanceView.nodup_coinsOf _ _
  · have hkeys := List.pairwise_map.mp v.wallet.nodup_inOrder
    refine hkeys.imp fun {a b} hne => ?_
    refine List.disjoint_left.mpr fun key ha hb => hne ?_
    have hfst : ∀ {entry : Uint256 × CWalletTx}, key ∈ List.map COutput.key
        (if !v.isFinal entry.2 then []
        else if !v.isConfirmed entry.1 entry.2 then []
        else if entry.2.tx.isCoinBase && decide (0 < v.getBlocksToMaturity entry.1 entry.2) then []
        else v.coinsOf entry.1 entry.2) → key.1 = entry.1 := by
      intro entry hmem
      obtain ⟨output, houtput, rfl⟩ := List.mem_map.mp hmem
      split_ifs at houtput
      · cases houtput
      · cases houtput
      · cases houtput
      · exact (BalanceView.mem_coinsOf houtput).1
    exact (hfst ha).symm.trans (hfst hb)

/-- What a coin is worth is what the wallet has in its transaction. -/
theorem BalanceView.valueAt_key {output : COutput} (h : output ∈ v.availableCoins) :
    v.wallet.valueAt ⟨output.tx, output.i⟩ = output.nValue := by
  obtain ⟨wtx, hlookup, hmem⟩ := BalanceView.mem_availableCoins h
  obtain ⟨-, ⟨txout, hout, hvalue⟩, -⟩ := BalanceView.mem_coinsOf hmem
  rw [CWallet.valueAt, hlookup, Option.bind_some, hout, Option.elim_some, hvalue]

end Coins

/-! ## What the choice of coins returns -/

/-- The chosen coins are coins of the list, worth what is said, and enough. -/
structure Selection.Covers (nTargetValue : ℤ) (vCoins : List COutput) (selection : Selection) :
    Prop where
  subset : selection.setCoinsRet ⊆ (vCoins.map COutput.key).toFinset
  nValueRet : selection.nValueRet =
    valueOfCoins (vCoins.filter fun output => decide (output.key ∈ selection.setCoinsRet))
  enough : nTargetValue ≤ selection.nValueRet

section Select

variable {nTargetValue : ℤ} {vCoins : List COutput} {selection : Selection}

theorem selectCoinsMinConf_covers {R : CoinChances} {nConfMine nConfTheirs : ℤ}
    (hkeys : (vCoins.map COutput.key).Nodup) (hafford : Affordable nTargetValue vCoins)
    (h : selectCoinsMinConf R nTargetValue nConfMine nConfTheirs vCoins = some selection) :
    selection.Covers nTargetValue vCoins := by
  have hpays := (selectCoinsMinConf_spec R nConfMine nConfTheirs hkeys hafford).2 selection h
  have hsub : (eligibleCoins nConfMine nConfTheirs vCoins).Sublist vCoins := List.filter_sublist
  refine ⟨fun key hkey => ?_, ?_, hpays.enough⟩
  · have hmem := List.mem_toFinset.mp (hpays.subset hkey)
    exact List.mem_toFinset.mpr ((hsub.map COutput.key).subset hmem)
  · -- a coin of a chosen key is an eligible coin
    rw [hpays.nValueRet, eligibleCoins, List.filter_filter]
    refine congrArg valueOfCoins (List.filter_congr fun output houtput => ?_)
    by_cases hkey : output.key ∈ selection.setCoinsRet
    · obtain ⟨other, hother, heq⟩ := List.mem_map.mp (List.mem_toFinset.mp (hpays.subset hkey))
      have hsame := List.inj_on_of_nodup_map hkeys (hsub.subset hother) houtput heq
      rw [hsame] at hother
      rw [(List.mem_filter.mp hother).2, Bool.and_true]
    · rw [decide_eq_false hkey, Bool.false_and]

/-- **What `SelectCoins` returns is enough.** -/
theorem selectCoins_covers {R₁ R₂ R₃ : CoinChances} (hkeys : (vCoins.map COutput.key).Nodup)
    (hafford : Affordable nTargetValue vCoins)
    (h : selectCoins R₁ R₂ R₃ nTargetValue vCoins = some selection) :
    selection.Covers nTargetValue vCoins := by
  rcases Option.or_eq_some_iff.mp h with h | ⟨-, h⟩
  · exact selectCoinsMinConf_covers hkeys hafford h
  rcases Option.or_eq_some_iff.mp h with h | ⟨-, h⟩
  · exact selectCoinsMinConf_covers hkeys hafford h
  · exact selectCoinsMinConf_covers hkeys hafford h

/-- A list of the chosen keys, in any order, lists the chosen coins. -/
theorem Selection.Covers.keys_perm (hkeys : (vCoins.map COutput.key).Nodup)
    (h : selection.Covers nTargetValue vCoins) {l : List CoinKey}
    (hl : l.Perm selection.setCoinsRet.toList) :
    l.Perm ((vCoins.filter fun output => decide (output.key ∈ selection.setCoinsRet)).map
      COutput.key) := by
  refine (List.perm_ext_iff_of_nodup (hl.nodup_iff.mpr (Finset.nodup_toList _))
    (hkeys.sublist (List.filter_sublist.map _))).mpr fun key => ?_
  rw [hl.mem_iff, Finset.mem_toList, List.mem_map]
  constructor
  · intro hkey
    obtain ⟨output, houtput, rfl⟩ := List.mem_map.mp (List.mem_toFinset.mp (h.subset hkey))
    exact ⟨output, List.mem_filter.mpr ⟨houtput, decide_eq_true hkey⟩, rfl⟩
  · rintro ⟨output, houtput, rfl⟩
    exact of_decide_eq_true (List.mem_filter.mp houtput).2

end Select

/-! ## What a round builds -/

theorem map_prevout_modify (vin : List CTxIn) (nIn : ℕ) (scriptSig : CScript) :
    (vin.modify nIn fun txin => { txin with scriptSig }).map CTxIn.prevout =
      vin.map CTxIn.prevout := by
  refine List.ext_getElem? fun i => ?_
  rw [List.getElem?_map, List.getElem?_map, List.getElem?_modify]
  cases vin[i]? with
  | none => rfl
  | some txin => by_cases heq : nIn = i <;> simp [heq]

/-- Signing leaves the outputs and what the inputs claim alone. -/
theorem signInputs_eq_some {sign : CTransaction → ℕ → Option CScript} {wtxNew tx : CTransaction}
    (h : signInputs sign wtxNew = some tx) : tx.prevouts = wtxNew.prevouts ∧ tx.vout = wtxNew.vout := by
  have hloop : ∀ (l : List ℕ) (start : CTransaction), (l.foldlM (fun tx nIn =>
      (sign tx nIn).map fun scriptSig =>
        { tx with vin := tx.vin.modify nIn fun txin => { txin with scriptSig } }) start) = some tx →
      tx.prevouts = start.prevouts ∧ tx.vout = start.vout := by
    intro l
    induction l with
    | nil =>
      intro start hstart
      obtain rfl := Option.some.inj hstart
      exact ⟨rfl, rfl⟩
    | cons nIn l ih =>
      intro start hstart
      rw [List.foldlM_cons] at hstart
      obtain ⟨next, hnext, hrest⟩ := Option.bind_eq_some_iff.mp hstart
      obtain ⟨scriptSig, -, rfl⟩ := Option.map_eq_some_iff.mp hnext
      obtain ⟨hprevouts, hvout⟩ := ih _ hrest
      refine ⟨hprevouts.trans ?_, hvout⟩
      exact map_prevout_modify _ _ _
  exact hloop _ _ h

/-- The outputs of a round are those to the payees and the change. -/
theorem outputsWithChange_spec {R : RoundChances} {vecSend : List (CScript × ℤ)} (nChange : ℤ)
    (hne : vecSend ≠ []) (hlow : 0 ≤ nChange) :
    ∃ change : Option CTxOut, (payeeOutputs vecSend).Sublist (outputsWithChange R vecSend nChange) ∧
      (outputsWithChange R vecSend nChange).Perm (change.toList ++ payeeOutputs vecSend) ∧
      change.elim 0 CTxOut.nValue = nChange := by
  unfold outputsWithChange
  split_ifs with hpos
  · refine ⟨some ⟨nChange, CacheWallet.scriptForKeyID R.keyID⟩, ?_, ?_, rfl⟩
    · exact List.sublist_insertIdx _ _ _
    · refine List.perm_insertIdx _ _ ?_
      have hlen : 0 < (payeeOutputs vecSend).length := by
        rw [payeeOutputs, List.length_map]
        exact List.length_pos_iff.mpr hne
      exact (R.getRandInt_lt _ hlen).le
  · exact ⟨none, .refl _, .refl _, by rw [Option.elim_none]; omega⟩

/-- A 64-bit variable holds a value of its type. -/
theorem int64_range (x : ℤ) : -2 ^ 63 ≤ int64 x ∧ int64 x < 2 ^ 63 := by
  have hlow := Int.le_bmod (x := x) (m := 2 ^ 64) (by decide)
  have hhigh := Int.bmod_lt (x := x) (m := 2 ^ 64) (by decide)
  unfold int64
  constructor <;> omega

/-- A value just above the range turns negative. -/
theorem int64_eq_sub {x : ℤ} (hlow : 2 ^ 63 ≤ x) (hhigh : x < 2 ^ 64) : int64 x = x - 2 ^ 64 := by
  rw [int64, Int.bmod_def]
  omega

/-- What is moved to the fee is part of the change. -/
theorem moveToFee_bounds (nFeeRet : ℤ) {nChange : ℤ} (h : 0 ≤ nChange) :
    0 ≤ moveToFee nFeeRet nChange ∧ moveToFee nFeeRet nChange ≤ nChange := by
  unfold moveToFee
  split_ifs with hmove
  · exact ⟨le_min h (by omega), min_le_left _ _⟩
  · exact ⟨le_rfl, h⟩

section Round

variable {P : Params} {v : BalanceView P} {nTransactionFee : ℤ} {vecSend : List (CScript × ℤ)}
  {wtxNew tx : CTransaction} {R : RoundChances} {nFeeRet nFee : ℤ}

/-- The coins of the wallet can be added up, when their sum fits. -/
theorem BalanceView.affordable (hmin : 0 ≤ v.wallet.nMinimumInputValue) {nTargetValue : ℤ}
    (htarget : 0 ≤ nTargetValue) (hfits : nTargetValue + cent < 2 ^ 63)
    (hcoins : valueOfCoins v.availableCoins < int64Max) :
    Affordable nTargetValue v.availableCoins := by
  have hnonneg : ∀ output ∈ v.availableCoins, 0 ≤ output.nValue := by
    intro output houtput
    obtain ⟨wtx, -, hmem⟩ := BalanceView.mem_availableCoins houtput
    exact hmin.trans (BalanceView.mem_coinsOf hmem).2.2
  have hle : ∀ output ∈ v.availableCoins, output.nValue ≤ valueOfCoins v.availableCoins := by
    intro output houtput
    refine List.single_le_sum (fun n hn => ?_) _ (List.mem_map_of_mem houtput)
    obtain ⟨other, hother, rfl⟩ := List.mem_map.mp hn
    exact hnonneg other hother
  refine ⟨hnonneg, fun output houtput => (hle output houtput).trans_lt hcoins, ?_, htarget, hfits⟩
  unfold int64Max at hcoins
  omega

/-- The inputs of the chosen coins are worth what the choice says. -/
theorem sum_inputsOf {nTargetValue : ℤ} {selection : Selection}
    (h : selection.Covers nTargetValue v.availableCoins) :
    (((inputsOf R selection.setCoinsRet).map CTxIn.prevout).map v.wallet.valueAt).sum =
      selection.nValueRet := by
  have hperm := h.keys_perm BalanceView.nodup_availableCoins (R.inOrder_perm selection.setCoinsRet)
  rw [h.nValueRet, inputsOf, List.map_map, List.map_map, (hperm.map _).sum_eq, List.map_map]
  refine congrArg List.sum (List.map_congr_left fun output houtput => ?_)
  exact BalanceView.valueAt_key (List.mem_of_mem_filter houtput)

/-- **The transaction of a round balances**, when the numbers fit. -/
theorem balance_of_buildTx (hmin : 0 ≤ v.wallet.nMinimumInputValue) (hne : vecSend ≠ [])
    (hpayees : 0 ≤ payeesValue vecSend) (hfee : 0 ≤ nFeeRet)
    (htotal : payeesValue vecSend + nFeeRet + cent < 2 ^ 63)
    (hcoins : valueOfCoins (v.atTime R.nAdjustedTime).availableCoins < int64Max)
    (h : buildTx v vecSend wtxNew (payeesValue vecSend) R nFeeRet = some (tx, nFee)) :
    ∃ change : Option CTxOut, (payeeOutputs vecSend).Sublist tx.vout ∧
      tx.vout.Perm (change.toList ++ payeeOutputs vecSend) ∧
      (tx.prevouts.map v.wallet.valueAt).sum =
        payeesValue vecSend + change.elim 0 CTxOut.nValue + nFee := by
  have hcent : 0 ≤ cent := by decide
  have htarget : int64 (payeesValue vecSend + nFeeRet) = payeesValue vecSend + nFeeRet :=
    int64_eq_self (by omega) (by omega)
  have hafford := BalanceView.affordable (v := v.atTime R.nAdjustedTime) hmin
    (show 0 ≤ payeesValue vecSend + nFeeRet by omega) htotal hcoins
  unfold buildTx at h
  dsimp only at h
  rw [htarget] at h
  cases hselect : selectCoins R.coins₁ R.coins₂ R.coins₃ (payeesValue vecSend + nFeeRet)
      (v.atTime R.nAdjustedTime).availableCoins with
  | none => simp [hselect] at h
  | some selection =>
    rw [hselect] at h
    obtain ⟨signed, hsign, heq⟩ := Option.map_eq_some_iff.mp h
    obtain ⟨rfl, rfl⟩ := Prod.mk.inj heq
    have hcovers := selectCoins_covers BalanceView.nodup_availableCoins hafford hselect
    have henough := hcovers.enough
    have hle := (hafford.valueOfCoins_le (l := (v.atTime R.nAdjustedTime).availableCoins.filter
      fun output => decide (output.key ∈ selection.setCoinsRet)) List.filter_sublist).2
    rw [← hcovers.nValueRet] at hle
    unfold int64Max at hcoins
    -- the amounts are small enough for the change to be exact
    have hchange : int64 (int64 (selection.nValueRet - payeesValue vecSend) - nFeeRet) =
        selection.nValueRet - payeesValue vecSend - nFeeRet := by
      rw [int64_eq_self (x := selection.nValueRet - payeesValue vecSend) (by omega) (by omega),
        int64_eq_self (by omega) (by omega)]
    rw [hchange] at hsign ⊢
    have hmove := moveToFee_bounds nFeeRet
      (show 0 ≤ selection.nValueRet - payeesValue vecSend - nFeeRet by omega)
    obtain ⟨hprevouts, hvout⟩ := signInputs_eq_some hsign
    obtain ⟨change, hsub, hperm, hvalue⟩ := outputsWithChange_spec (R := R) _ hne
      (show 0 ≤ selection.nValueRet - payeesValue vecSend - nFeeRet -
        moveToFee nFeeRet (selection.nValueRet - payeesValue vecSend - nFeeRet) by omega)
    refine ⟨change, by rw [hvout]; exact hsub, by rw [hvout]; exact hperm, ?_⟩
    have hsum := sum_inputsOf (v := v.atTime R.nAdjustedTime) (R := R) hcovers
    rw [hprevouts, CTransaction.prevouts, hvalue]
    refine hsum.trans ?_
    ring

/-- A round never lowers the fee. -/
theorem le_of_buildTx {nValue : ℤ}
    (h : buildTx v vecSend wtxNew nValue R nFeeRet = some (tx, nFee)) : nFeeRet ≤ nFee := by
  unfold buildTx at h
  dsimp only at h
  cases hselect : selectCoins R.coins₁ R.coins₂ R.coins₃ (int64 (nValue + nFeeRet))
      (v.atTime R.nAdjustedTime).availableCoins with
  | none => simp [hselect] at h
  | some selection =>
    rw [hselect] at h
    obtain ⟨signed, -, heq⟩ := Option.map_eq_some_iff.mp h
    obtain ⟨-, rfl⟩ := Prod.mk.inj heq
    unfold moveToFee
    split_ifs <;> omega

/-! ## The fee -/

/-- **The fee of the wallet is enough for the memory pool**, whatever the priority. -/
theorem getMinFee_relay_le (tx : CTransaction) (fAllowFree : Bool)
    (hsize : tx.getSerializeSize < maxBlockSizeGen / 5) :
    tx.getMinFee 1000 true ≤ tx.getMinFee 1 fAllowFree := by
  have hgen : maxBlockSizeGen = 500000 := rfl
  have hdust := dustFee_nonneg tx.vout
  have hsizeFee : tx.sizeFee 1000 true ≤ tx.sizeFee 1 fAllowFree := by
    unfold CTransaction.sizeFee CTransaction.inFreeArea minRelayTxFee
    rw [if_neg (show ¬1000 = 1 by decide), if_pos rfl]
    simp only [Bool.true_and, decide_eq_true_eq, Bool.and_eq_true]
    split_ifs <;> omega
  have hfactor : fullFactor (1000 + tx.getSerializeSize) = 1 := if_neg (by omega)
  have hlow := (tx.sizeFee_bounds 1000 true).1
  have hrelay : tx.getMinFee 1000 true = clampMoney (tx.sizeFee 1000 true + dustFee tx.vout) := by
    rw [CTransaction.getMinFee_eq, if_neg (by omega), if_pos (by decide), hfactor, mul_one]
  have hsend : tx.getMinFee 1 fAllowFree = clampMoney (tx.sizeFee 1 fAllowFree + dustFee tx.vout) := by
    rw [CTransaction.getMinFee_eq, if_neg (by simp), if_neg (by simp), mul_one]
  rw [hrelay, hsend, clampMoney_eq (by omega), clampMoney_eq (by omega)]
  exact min_le_min_right _ (by omega)

/-- A fee that is checked is enough. -/
theorem fees_of_checkFee {fAllowFree : Bool} {tx' : CTransaction} {nFee' : ℤ}
    (hpay : tx.getSerializeSize < maxBlockSizeGen / 5 →
      nTransactionFee * (1 + (tx.getSerializeSize / 1000 : ℕ)) < 2 ^ 63)
    (hlow : 0 ≤ nTransactionFee) (h : checkFee nTransactionFee fAllowFree tx nFee = .created tx' nFee') :
    tx' = tx ∧ nFee' = nFee ∧
      nTransactionFee * (1 + (tx.getSerializeSize / 1000 : ℕ)) ≤ nFee ∧ tx.getMinFee 1000 true ≤ nFee := by
  unfold checkFee at h
  dsimp only at h
  split_ifs at h with hsize hfee
  obtain ⟨rfl, rfl⟩ := RoundResult.created.inj h
  have hsmall : tx.getSerializeSize < maxBlockSizeGen / 5 := by omega
  have hfits := hpay hsmall
  have hproduct : 0 ≤ nTransactionFee * (1 + ((tx.getSerializeSize / 1000 : ℕ) : ℤ)) := by positivity
  rw [int64_eq_self (by omega) hfits] at hfee
  have hrelay := getMinFee_relay_le tx fAllowFree hsmall
  exact ⟨rfl, rfl, by omega, by omega⟩

/-- Another round starts with a higher fee, which still fits. -/
theorem lt_of_checkFee {fAllowFree : Bool} {nFee' : ℤ}
    (h : checkFee nTransactionFee fAllowFree tx nFee = .again nFee') : nFee < nFee' ∧ nFee' < 2 ^ 63 := by
  unfold checkFee at h
  dsimp only at h
  split_ifs at h with hsize hfee
  obtain rfl := RoundResult.again.inj h
  refine ⟨hfee, max_lt ?_ ?_⟩
  · exact (int64_range _).2
  · have hmax : maxMoney < 2 ^ 63 := by decide
    have := (tx.getMinFee_range 1 fAllowFree).2
    omega

/-! ## The payees -/

/-- A sum that leaves the range comes back negative, and the loop over the payees sees it. -/
theorem payeesTotal_eq_some {nValue n : ℤ} (hlow : 0 ≤ nValue) (hhigh : nValue < 2 ^ 63)
    (hsend : ∀ s ∈ vecSend, 0 ≤ s.2 ∧ s.2 ≤ maxMoney) (h : payeesTotal nValue vecSend = some n) :
    n = nValue + payeesValue vecSend ∧ nValue + payeesValue vecSend < 2 ^ 63 := by
  have hmax : maxMoney < 2 ^ 62 := by decide
  induction vecSend generalizing nValue with
  | nil =>
    rw [payeesTotal, if_neg (by omega)] at h
    rw [payeesValue, List.map_nil, List.sum_nil, add_zero]
    exact ⟨(Option.some.inj h).symm, hhigh⟩
  | cons s vecSend ih =>
    obtain ⟨hs, hrest⟩ := List.forall_mem_cons.mp hsend
    rw [payeesTotal, if_neg (by omega)] at h
    have hvalue : payeesValue (s :: vecSend) = s.2 + payeesValue vecSend := by
      rw [payeesValue, payeesValue, List.map_cons, List.sum_cons]
    by_cases hfits : nValue + s.2 < 2 ^ 63
    · rw [int64_eq_self (by omega) hfits] at h
      have hnext := ih (by omega) hfits hrest h
      rw [hvalue]
      omega
    · -- the variable turns negative, and every later check fails
      have hneg : int64 (nValue + s.2) < 0 := by
        rw [int64_eq_sub (by omega) (by omega)]
        omega
      cases vecSend with
      | nil => simp [payeesTotal, hneg] at h
      | cons s' vecSend => simp [payeesTotal, hneg] at h

end Round

/-! ## The loop -/

section FeeLoop

variable {P : Params} {v : BalanceView P} {nTransactionFee : ℤ} {vecSend : List (CScript × ℤ)}
  {wtxNew : CTransaction} {nValue : ℤ} {R : ℕ → RoundChances}

/-- **Every round starts with a higher fee than the one before**, which fits 64 bits. -/
theorem lt_of_createRound {R : RoundChances} {nFeeRet nFeeRet' : ℤ}
    (h : createRound v nTransactionFee vecSend wtxNew nValue R nFeeRet = .again nFeeRet') :
    nFeeRet < nFeeRet' ∧ nFeeRet' < 2 ^ 63 := by
  unfold createRound at h
  cases hbuild : buildTx v vecSend wtxNew nValue R nFeeRet with
  | none => simp [hbuild] at h
  | some built =>
    obtain ⟨tx, nFee⟩ := built
    rw [hbuild] at h
    obtain ⟨hlt, hfits⟩ := lt_of_checkFee h
    exact ⟨(le_of_buildTx hbuild).trans_lt hlt, hfits⟩

/-- **The loop returns**: the room above the fee bounds the number of rounds. -/
theorem feeLoop_isSome {nRounds n : ℕ} {nFeeRet : ℤ} (hfits : nFeeRet < 2 ^ 63)
    (hrounds : 2 ^ 63 - nFeeRet ≤ nRounds) :
    (feeLoop v nTransactionFee vecSend wtxNew nValue R nRounds n nFeeRet).isSome = true := by
  induction nRounds generalizing n nFeeRet with
  | zero =>
    push_cast at hrounds
    omega
  | succ nRounds ih =>
    rw [feeLoop]
    cases hround : createRound v nTransactionFee vecSend wtxNew nValue (R n) nFeeRet with
    | failed => rfl
    | created tx nFee => rfl
    | again nFeeRet' =>
      obtain ⟨hlt, hfits'⟩ := lt_of_createRound hround
      push_cast at hrounds
      exact ih hfits' (by omega)

/-- What the loop returns was created in a round that it got to. -/
theorem exists_round_of_feeLoop {nRounds n : ℕ} {nFeeRet nFee : ℤ} {tx : CTransaction}
    (hreached : RoundReached v nTransactionFee vecSend wtxNew nValue R n nFeeRet)
    (h : feeLoop v nTransactionFee vecSend wtxNew nValue R nRounds n nFeeRet = some (some (tx, nFee))) :
    ∃ m nFeeRet', RoundReached v nTransactionFee vecSend wtxNew nValue R m nFeeRet' ∧
      createRound v nTransactionFee vecSend wtxNew nValue (R m) nFeeRet' = .created tx nFee := by
  induction nRounds generalizing n nFeeRet with
  | zero => cases h
  | succ nRounds ih =>
    rw [feeLoop] at h
    cases hround : createRound v nTransactionFee vecSend wtxNew nValue (R n) nFeeRet with
    | failed => simp [hround] at h
    | again nFeeRet' =>
      rw [hround] at h
      exact ih (hreached.again hround) h
    | created tx' nFee' =>
      rw [hround] at h
      obtain ⟨rfl, rfl⟩ := Prod.mk.inj (Option.some.inj (Option.some.inj h))
      exact ⟨n, nFeeRet, hreached, hround⟩

theorem RoundReached.nonneg {n : ℕ} {nFeeRet : ℤ}
    (h : RoundReached v nTransactionFee vecSend wtxNew nValue R n nFeeRet)
    (hfee : 0 ≤ nTransactionFee) : 0 ≤ nFeeRet := by
  induction h with
  | first => exact hfee
  | again _ hround ih => exact ih.trans (lt_of_createRound hround).1.le

/-- The fees that the loop gets to are bounded by those of the largest transaction. -/
theorem RoundReached.le_max {n : ℕ} {nFeeRet : ℤ}
    (h : RoundReached v nTransactionFee vecSend wtxNew nValue R n nFeeRet)
    (hfee : 0 ≤ nTransactionFee) (hpay : nTransactionFee * 100 < 2 ^ 63) :
    nFeeRet ≤ max (nTransactionFee * 100) maxMoney := by
  cases h with
  | first => exact le_max_of_le_left (by omega)
  | again _ hround =>
    unfold createRound at hround
    split at hround
    · cases hround
    · next tx nFee _ =>
      unfold checkFee at hround
      dsimp only at hround
      split_ifs at hround with hsize hlt
      obtain rfl := RoundResult.again.inj hround
      have hgen : maxBlockSizeGen / 5 = 100000 := rfl
      have hfactor : (1 + ((tx.getSerializeSize / 1000 : ℕ) : ℤ)) ≤ 100 := by omega
      have hproduct := mul_le_mul_of_nonneg_left hfactor hfee
      have hlow : 0 ≤ nTransactionFee * (1 + ((tx.getSerializeSize / 1000 : ℕ) : ℤ)) := by positivity
      rw [int64_eq_self (by omega) (by omega)]
      exact max_le_max hproduct (tx.getMinFee_range 1 _).2

/-- **Amounts that are far from the limit fit in every round.** -/
theorem roundFits_of_inputs {n : ℕ} {nFeeRet : ℤ}
    (h : RoundReached v nTransactionFee vecSend wtxNew nValue R n nFeeRet)
    (hfee : 0 ≤ nTransactionFee) (hpay : nTransactionFee * 100 < 2 ^ 63)
    (hsum : payeesValue vecSend + max (nTransactionFee * 100) maxMoney + cent < 2 ^ 63)
    (hcoins : valueOfCoins (v.atTime (R n).nAdjustedTime).availableCoins < int64Max) :
    RoundFits v nTransactionFee vecSend wtxNew nValue (R n) nFeeRet := by
  have hle := h.le_max hfee hpay
  refine ⟨by omega, hcoins, fun tx nFee _ hsize => ?_⟩
  have hgen : maxBlockSizeGen / 5 = 100000 := rfl
  have hfactor : (1 + ((tx.getSerializeSize / 1000 : ℕ) : ℤ)) ≤ 100 := by omega
  have hproduct := mul_le_mul_of_nonneg_left hfactor hfee
  omega

end FeeLoop

/-! ## A payment -/

/-- Chance that orders coins by their keys, puts the change first and signs with nothing. -/
def exampleRound : RoundChances where
  nAdjustedTime := 1400009000
  coins₁ := exampleChances
  coins₂ := exampleChances
  coins₃ := exampleChances
  inOrder s := Finset.sort (α := ℕ ×ₗ ℕ) s (· ≤ ·)
  inOrder_perm s := Finset.sort_perm_toList (α := ℕ ×ₗ ℕ) s (· ≤ ·)
  keyID := List.replicate 20 7
  getRandInt _ := 0
  getRandInt_lt _ h := h
  sign _ _ := some []
  fAllowFree := true

/-- A wallet with one coinbase, which is mature. -/
def oneCoin : BalanceView exampleParams :=
  { BalanceView.exampleBalance with
    wallet := ⟨(∅ : StdMap Uint256 CWalletTx).insert (exampleHash 1)
      { CWalletTx.ofTx (exampleCoinbase 1 [5 * cent]) with hashBlock := 11, nIndex := 0 },
      fun _ => true, 0⟩ }

theorem availableCoins_oneCoin : (oneCoin.atTime exampleRound.nAdjustedTime).availableCoins =
    [⟨exampleHash 1, 0, 40, 5 * cent, false⟩] := by
  have hkeys : (oneCoin.atTime exampleRound.nAdjustedTime).wallet.mapWallet.keys = {exampleHash 1} := by
    decide
  rw [BalanceView.availableCoins, CWallet.inOrder, hkeys, Finset.sort_singleton]
  decide +kernel

/-- A search among no coins for a negative amount succeeds with nothing. -/
theorem selectCoinsMinConf_nil {nTargetValue : ℤ} (hneg : nTargetValue < 0) (R : CoinChances)
    (nConfMine nConfTheirs : ℤ) :
    selectCoinsMinConf R nTargetValue nConfMine nConfTheirs [] = some ⟨∅, 0⟩ := by
  have hshuffle : R.shuffle [] = [] := (R.shuffle_perm []).eq_nil
  have hsort : R.sort [] = [] := (R.sort_perm []).eq_nil
  -- without coins, no repetition changes the best subset
  have hbest : ∀ (n : ℤ) (bits : ℕ → ℕ → Bool) (is : List ℕ) (st : SubsetState),
      st.vfBest = [] → st.nBest = 0 →
      (is.foldl (fun st nRep => if st.nBest ≠ n then subsetRep [] n (bits nRep) st else st)
          st).vfBest = [] ∧
        (is.foldl (fun st nRep => if st.nBest ≠ n then subsetRep [] n (bits nRep) st else st)
          st).nBest = 0 := by
    intro n bits is
    induction is with
    | nil => exact fun st hflags hvalue => ⟨hflags, hvalue⟩
    | cons nRep is ih =>
      intro st hflags hvalue
      rw [List.foldl_cons]
      refine ih _ ?_ ?_
      · split_ifs
        · exact hflags
        · exact hflags
      · split_ifs
        · exact hvalue
        · exact hvalue
  have hsubset : ∀ (n : ℤ) (bits : ℕ → ℕ → Bool) (iterations : ℕ),
      approximateBestSubset [] 0 n bits iterations = ([], 0) := by
    intro n bits iterations
    obtain ⟨hflags, hvalue⟩ := hbest n bits (List.range iterations) ⟨[], 0, false, [], 0⟩ rfl rfl
    exact Prod.ext hflags hvalue
  have hsearch : searchSubset R nTargetValue 0 [] = ([], 0) := by
    unfold searchSubset
    simp only [hsubset, ite_self]
  rw [selectCoinsMinConf, hshuffle, scanCoins]
  dsimp only
  rw [if_neg (by omega), if_neg (by omega), hsort, List.map_nil, hsearch]
  rfl

/-- A wallet without transactions. -/
def noCoins : BalanceView exampleParams :=
  { BalanceView.exampleBalance with wallet := ⟨∅, fun _ => false, 0⟩ }

theorem availableCoins_noCoins (nAdjustedTime : ℤ) :
    (noCoins.atTime nAdjustedTime).availableCoins = [] := by
  have hkeys : (noCoins.atTime nAdjustedTime).wallet.mapWallet.keys = ∅ := rfl
  rw [BalanceView.availableCoins, CWallet.inOrder, hkeys, Finset.sort_empty]
  rfl

/-- Payees whose amounts are valid and nearly overflow together. -/
def manyPayees : List (CScript × ℤ) := List.replicate 92 ([], maxMoney)

/-- The transaction that is created for them: no inputs, and a change that comes from nowhere. -/
def createdFromNothing : CTransaction :=
  { exampleTx 1 [] [] with
    vout := ⟨2 ^ 64 - 93 * maxMoney, CacheWallet.scriptForKeyID exampleRound.keyID⟩ ::
      payeeOutputs manyPayees }

/-- **A wallet without coins pays**: the payees and the fee overflow. -/
theorem createTransaction_noCoins :
    createTransaction noCoins maxMoney manyPayees (exampleTx 1 [] []) (fun _ => exampleRound) 1 =
      some (some (createdFromNothing, maxMoney)) := by
  have htotal : payeesTotal 0 manyPayees = some (92 * maxMoney) := by decide +kernel
  have hneg : int64 (92 * maxMoney + maxMoney) = 93 * maxMoney - 2 ^ 64 := by decide +kernel
  have hselect : selectCoins exampleChances exampleChances exampleChances
      (int64 (92 * maxMoney + maxMoney)) [] = some ⟨∅, 0⟩ := by
    rw [selectCoins, hneg, selectCoinsMinConf_nil (by decide), Option.some_or]
  have hbuild : buildTx noCoins manyPayees (exampleTx 1 [] []) (92 * maxMoney) exampleRound maxMoney =
      some (createdFromNothing, maxMoney) := by
    unfold buildTx
    dsimp only
    rw [show exampleRound.coins₁ = exampleChances from rfl,
      show exampleRound.coins₂ = exampleChances from rfl,
      show exampleRound.coins₃ = exampleChances from rfl, availableCoins_noCoins, hselect]
    decide +kernel
  unfold createTransaction
  rw [htotal]
  dsimp only
  rw [if_neg (by decide), feeLoop, createRound, hbuild]
  have hcheck : checkFee maxMoney exampleRound.fAllowFree createdFromNothing maxMoney =
      .created createdFromNothing maxMoney := by
    have hsize : createdFromNothing.getSerializeSize = 872 := by decide +kernel
    have hmin : createdFromNothing.getMinFee 1 exampleRound.fAllowFree ≤ maxMoney :=
      (createdFromNothing.getMinFee_range 1 _).2
    have hpay : int64 (maxMoney * (1 + (872 / 1000 : ℕ))) = maxMoney := by decide +kernel
    unfold checkFee
    dsimp only
    rw [hsize, hpay, if_neg (by decide), if_neg (by omega)]
  dsimp only
  rw [hcheck]

end FoxCoin
