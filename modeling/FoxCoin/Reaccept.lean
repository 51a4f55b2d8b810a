import FoxCoin.Lib.Repeat
import FoxCoin.ListSinceBlock
import FoxCoin.SpendOrder
import FoxCoin.WalletRollback

/-! # Reaccepting wallet transactions

At startup `ReacceptWalletTransactions` compares the wallet with the transaction index: an output of
the wallet that the index records as spent is marked. When marks were missing the chain is scanned
for transactions of the wallet, and as long as that finds some the wallet is gone through again.

The loop ends for every wallet. A coinbase whose first output is marked is skipped, however many
outputs it has, so its other outputs are marked only where the scan meets what spends them. -/

namespace FoxCoin

open Checked Overlay Ledger Repeat

/-! ## The scan -/

/-- What a scan reads of the node. -/
structure ScanView where
  mapTxIndex : TxIndexMap
  mapBlockIndex : StdMap Uint256 CBlockIndex
  pnext : StdMap Uint256 Uint256
  pindexGenesisBlock : Option CBlockIndex
  files : BlockFiles

/-- `pindex->pnext`. -/
def ScanView.next (v : ScanView) (pindex : CBlockIndex) : Option CBlockIndex :=
  (v.pnext.lookup pindex.phashBlock).bind v.mapBlockIndex.lookup

/-- The indexes that `while (pindex)` visits, when they are at most `n`. -/
def ScanView.visits (v : ScanView) : ℕ → Option CBlockIndex → Option (List CBlockIndex)
  | _, none => some []
  | 0, some _ => none
  | n + 1, some pindex => (v.visits n (v.next pindex)).map fun walk => pindex :: walk

section Scan

variable (P : Params) (nAdjustedTime : ℤ)

/-- `IsSpent` throws for the output that an input of `WalletUpdateSpent` spends. -/
def CWallet.spendsOutOfRange (wallet : CWallet) (txin : CTxIn) : Bool :=
  (wallet.mapWallet.lookup txin.prevout.hash).any fun wtx =>
    decide (wtx.tx.vout.length ≤ txin.prevout.n)

/-- A round of the loop of `WalletUpdateSpent`, `none` when it throws. -/
def CWallet.updateSpentInput? (wallet : CWallet) (txin : CTxIn) : Option CWallet :=
  if wallet.spendsOutOfRange txin then none else some (wallet.updateSpentInput txin)

/-- `CWallet::WalletUpdateSpent`, `none` when it throws. -/
def CWallet.walletUpdateSpent? (wallet : CWallet) (tx : CTransaction) : Option CWallet :=
  tx.vin.foldlM CWallet.updateSpentInput? wallet

/-- `CWallet::AddToWallet`, `none` when it throws. -/
def CWallet.addToWallet? (wallet : CWallet) (wtxIn : CWalletTx) : Option CWallet :=
  let hash := wtxIn.tx.getHash P
  let wtx := match wallet.mapWallet.lookup hash with
    | none => { wtxIn with nTimeReceived := nAdjustedTime }
    | some wtx => wtx.merge wtxIn
  CWallet.walletUpdateSpent? { wallet with mapWallet := wallet.mapWallet.insert hash wtx } wtx.tx

/-- `CWallet::AddToWalletIfInvolvingMe` for a transaction of a block, with what it returns, and
`none` when it throws. -/
def CWallet.addToWalletIfInvolvingMe? (fUpdate : Bool) (block : CBlock) (wallet : CWallet)
    (tx : CTransaction) : Option (CWallet × Bool) :=
  let fExisted := decide (tx.getHash P ∈ wallet.mapWallet)
  if fExisted && !fUpdate then some (wallet, false)
  else if fExisted || wallet.isMineTx tx || wallet.isFromMe tx then
    (wallet.addToWallet? P nAdjustedTime ((CWalletTx.ofTx tx).setMerkleBranch P block)).map
      fun wallet => (wallet, true)
  else (wallet.walletUpdateSpent? tx).map fun wallet => (wallet, false)

/-- A transaction of the scan: the wallet, and the count of `ret`. -/
def CWallet.scanTx (fUpdate : Bool) (block : CBlock) (st : CWallet × ℕ) (tx : CTransaction) :
    Option (CWallet × ℕ) :=
  (st.1.addToWalletIfInvolvingMe? P nAdjustedTime fUpdate block tx).map fun r =>
    (r.1, if r.2 then st.2 + 1 else st.2)

/-- A block of the scan. `ReadFromDisk` may fail, and leaves what there is to read. -/
def CWallet.scanBlock (v : ScanView) (fUpdate : Bool) (st : CWallet × ℕ) (pindex : CBlockIndex) :
    Option (CWallet × ℕ) :=
  match v.files.block? pindex.nFile pindex.nBlockPos with
  | none => some st
  | some block => block.vtx.foldlM (CWallet.scanTx P nAdjustedTime fUpdate block) st

/-- `CWallet::ScanForWalletTransactions` over the indexes it visits. -/
def CWallet.scanForWalletTransactions (v : ScanView) (fUpdate : Bool) (walk : List CBlockIndex)
    (wallet : CWallet) : Option (CWallet × ℕ) :=
  walk.foldlM (CWallet.scanBlock P nAdjustedTime v fUpdate) (wallet, 0)

end Scan

/-! ## The loop -/

section Loop

variable (P : Params)

/-- The loop over the outputs of a transaction, with the positions for `vMissingTx`. -/
def CWallet.findSpent (wallet : CWallet) (vSpent : List CDiskTxPos)
    (st : CWalletTx × List CDiskTxPos) (i : ℕ) : CWalletTx × List CDiskTxPos :=
  if st.1.isSpent i then st
  else
    let pos := vSpent.getD i CDiskTxPos.setNull
    if !pos.isNull && (st.1.tx.vout[i]?).any fun txout => wallet.isMine txout.scriptPubKey then
      (st.1.markSpent i, st.2 ++ [pos])
    else st

/-- A transaction of the wallet, `none` when `IsSpent(0)` throws. What `AcceptWalletTransaction`
puts into the memory pool changes no wallet. -/
def CWallet.reacceptTx (index : TxIndexMap) (wallet : CWallet) (wtx : CWalletTx) :
    Option (CWalletTx × List CDiskTxPos) :=
  if wtx.tx.isCoinBase = true ∧ wtx.tx.vout = [] then none
  else if wtx.tx.isCoinBase = true ∧ wtx.isSpent 0 = true then some (wtx, [])
  else
    match index.lookup (wtx.tx.getHash P) with
    | none => some (wtx, [])
    | some txindex =>
      if txindex.vSpent.length ≠ wtx.tx.vout.length then some (wtx, [])
      else some ((List.range txindex.vSpent.length).foldl (wallet.findSpent txindex.vSpent)
        (wtx, []))

/-- An entry of `mapWallet` is gone through. -/
def CWallet.reacceptEntry (index : TxIndexMap) (st : CWallet × List CDiskTxPos)
    (item : Uint256 × CWalletTx) : Option (CWallet × List CDiskTxPos) :=
  (st.1.reacceptTx P index item.2).map fun r =>
    ({ st.1 with mapWallet := st.1.mapWallet.insert item.1 r.1 }, st.2 ++ r.2)

/-- The loop over `mapWallet`, with `vMissingTx`. -/
def CWallet.reacceptAll (index : TxIndexMap) (wallet : CWallet) :
    Option (CWallet × List CDiskTxPos) :=
  wallet.inOrder.foldlM (CWallet.reacceptEntry P index) (wallet, [])

/-- A round of `while (fRepeat)`. -/
def CWallet.reacceptRound (v : ScanView) (nAdjustedTime : ℕ → ℤ) (walk : List CBlockIndex) (k : ℕ)
    (wallet : CWallet) : Repeat.Round CWallet :=
  match wallet.reacceptAll P v.mapTxIndex with
  | none => .failed
  | some (wallet, vMissingTx) =>
    if vMissingTx.isEmpty then .done wallet
    else
      match wallet.scanForWalletTransactions P (nAdjustedTime k) v false walk with
      | none => .failed
      | some (wallet, ret) => if ret ≠ 0 then .again wallet else .done wallet

/-- `CWallet::ReacceptWalletTransactions`: `none` when it is still running after `n` rounds and `n`
blocks of a scan, and `some none` when it throws. -/
def CWallet.reacceptWalletTransactions (v : ScanView) (nAdjustedTime : ℕ → ℤ) (n : ℕ)
    (wallet : CWallet) : Option (Option CWallet) :=
  (v.visits n v.pindexGenesisBlock).bind fun walk =>
    loop (CWallet.reacceptRound P v nAdjustedTime walk) n 0 wallet

end Loop

variable {P : Params} {wallet w w' w'' : CWallet} {o : COutPoint} {tx : CTransaction} {hash : Uint256}
  {index : TxIndexMap}

/-! ## What a wallet has marked -/

/-- The transaction that a wallet has under a hash. -/
def CWallet.tx? (wallet : CWallet) (hash : Uint256) : Option CTransaction :=
  (wallet.mapWallet.lookup hash).map CWalletTx.tx

/-- An output of a transaction is the wallet's own. -/
def CWallet.Owns (wallet : CWallet) (tx : CTransaction) (i : ℕ) : Prop :=
  ∃ txout, tx.vout[i]? = some txout ∧ wallet.isMine txout.scriptPubKey = true

/-- An outpoint is an own output of a transaction of the wallet. -/
def CWallet.HasOwn (wallet : CWallet) (o : COutPoint) : Prop :=
  ∃ tx, wallet.tx? o.hash = some tx ∧ wallet.Owns tx o.n

/-- An outpoint is an output of a transaction of the wallet, and marked. -/
def CWallet.Spent (wallet : CWallet) (o : COutPoint) : Prop :=
  ∃ wtx, wallet.mapWallet.lookup o.hash = some wtx ∧ o.n < wtx.tx.vout.length ∧
    wtx.isSpent o.n = true

/-- The index records an output of a transaction as spent, in an entry of the transaction's size. -/
def RecordedSpent (P : Params) (index : TxIndexMap) (tx : CTransaction) (i : ℕ) : Prop :=
  ∃ txindex, index.lookup (tx.getHash P) = some txindex ∧
    txindex.vSpent.length = tx.vout.length ∧
    (txindex.vSpent.getD i CDiskTxPos.setNull).isNull = false

/-- **Every own output that the index records as spent is marked.** -/
def CWallet.MarksRecorded (P : Params) (index : TxIndexMap) (wallet : CWallet) : Prop :=
  ∀ hash wtx, wallet.mapWallet.lookup hash = some wtx → ∀ i, wallet.Owns wtx.tx i →
    RecordedSpent P index wtx.tx i → wtx.isSpent i = true

/-- A wallet with the keys and transactions of another one, and some more own outputs marked. -/
structure CWallet.Marks (w w' : CWallet) (news : COutPoint → Prop) : Prop where
  isMine : w'.isMine = w.isMine
  minimum : w'.nMinimumInputValue = w.nMinimumInputValue
  tx : ∀ hash, w'.tx? hash = w.tx? hash
  spent : ∀ o, w'.Spent o ↔ w.Spent o ∨ w.HasOwn o ∧ news o

theorem CWallet.tx?_eq_none : wallet.tx? hash = none ↔ hash ∉ wallet.mapWallet := by
  rw [tx?, Option.map_eq_none_iff, Finmap.lookup_eq_none]

theorem CWallet.owns_congr (hmine : w'.isMine = w.isMine) {i : ℕ} :
    w'.Owns tx i ↔ w.Owns tx i := by
  rw [Owns, Owns, hmine]

theorem CWallet.Owns.lt {i : ℕ} (h : wallet.Owns tx i) : i < tx.vout.length := by
  obtain ⟨txout, hout, -⟩ := h
  exact (List.getElem?_eq_some_iff.mp hout).1

theorem CWallet.owns_iff_any {i : ℕ} : wallet.Owns tx i ↔
    ((tx.vout[i]?).any fun txout => wallet.isMine txout.scriptPubKey) = true := by
  rw [Owns]
  cases tx.vout[i]? with
  | none => simp
  | some txout => simp

namespace CWallet.Marks

variable {news news' : COutPoint → Prop}

theorem hasOwn (h : w.Marks w' news) : w'.HasOwn o ↔ w.HasOwn o := by
  rw [HasOwn, HasOwn, h.tx]
  simp only [owns_congr h.isMine]

theorem refl (w : CWallet) : w.Marks w fun _ => False :=
  ⟨rfl, rfl, fun _ => rfl, fun o => by simp⟩

theorem trans (h : w.Marks w' news) (h' : w'.Marks w'' news') :
    w.Marks w'' fun o => news o ∨ news' o := by
  refine ⟨h'.isMine.trans h.isMine, h'.minimum.trans h.minimum,
    fun hash => (h'.tx hash).trans (h.tx hash), fun o => ?_⟩
  rw [h'.spent, h.spent, h.hasOwn]
  tauto

theorem congr (h : w.Marks w' news) (hiff : ∀ o, w.HasOwn o → (news o ↔ news' o)) :
    w.Marks w' news' := by
  refine ⟨h.isMine, h.minimum, h.tx, fun o => ?_⟩
  rw [h.spent]
  exact or_congr_right (and_congr_right (hiff o))

/-- A wallet transaction takes the place of one it agrees with, with some more marks. -/
theorem of_insert {wtx wtx' : CWalletTx} {new : ℕ → Prop}
    (hlook : w.mapWallet.lookup hash = some wtx) (htx : wtx'.tx = wtx.tx)
    (hspent : ∀ i < wtx.tx.vout.length,
      (wtx'.isSpent i = true ↔ wtx.isSpent i = true ∨ w.Owns wtx.tx i ∧ new i)) :
    w.Marks { w with mapWallet := w.mapWallet.insert hash wtx' } fun o => o.hash = hash ∧ new o.n := by
  refine ⟨rfl, rfl, fun hash' => ?_, fun o => ?_⟩
  · rw [tx?, tx?, lookup_insert_eq_ite]
    split_ifs with heq
    · rw [heq, hlook, Option.map_some, Option.map_some, htx]
    · rfl
  · obtain ⟨hash', n⟩ := o
    unfold Spent HasOwn tx?
    dsimp only
    rw [lookup_insert_eq_ite]
    split_ifs with heq
    · subst heq
      simp only [hlook, Option.some.injEq, exists_eq_left', htx, Option.map_some, true_and]
      constructor
      · rintro ⟨hlt, hs⟩
        rcases (hspent n hlt).mp hs with hs | hnew
        · exact .inl ⟨hlt, hs⟩
        · exact .inr hnew
      · rintro (⟨hlt, hs⟩ | hnew)
        · exact ⟨hlt, (hspent n hlt).mpr (.inl hs)⟩
        · exact ⟨hnew.1.lt, (hspent n hnew.1.lt).mpr (.inr hnew)⟩
    · simp [heq]

end CWallet.Marks

/-- A round of `WalletUpdateSpent` marks what its input spends. -/
theorem CWallet.marks_updateSpentInput (w : CWallet) (txin : CTxIn) :
    w.Marks (w.updateSpentInput txin) fun o => o = txin.prevout := by
  unfold updateSpentInput
  cases hlook : w.mapWallet.lookup txin.prevout.hash with
  | none =>
    refine (Marks.refl w).congr fun o hown => iff_of_false id ?_
    rintro rfl
    obtain ⟨tx, htx, -⟩ := hown
    rw [tx?, hlook] at htx
    cases htx
  | some wtx =>
    dsimp only
    split_ifs with hnews
    · have hlt := (of_isSpendNews hnews).1
      have howns : w.Owns wtx.tx txin.prevout.n := by
        rw [isSpendNews, Bool.and_eq_true] at hnews
        exact owns_iff_any.mpr hnews.2
      have hmark : ∀ i < wtx.tx.vout.length, ((wtx.markSpent txin.prevout.n).isSpent i = true ↔
          wtx.isSpent i = true ∨ w.Owns wtx.tx i ∧ i = txin.prevout.n) := by
        intro i hi
        rw [wtx.isSpent_markSpent hi hlt]
        split_ifs with heq
        · exact iff_of_true rfl (.inr ⟨heq ▸ howns, heq⟩)
        · simp [heq]
      have htx : (wtx.markSpent txin.prevout.n).tx = wtx.tx := rfl
      refine (Marks.of_insert hlook htx hmark).congr fun o _ => ?_
      obtain ⟨hash, n⟩ := o
      constructor
      · rintro ⟨rfl, rfl⟩
        rfl
      · exact fun h => ⟨congrArg COutPoint.hash h, congrArg COutPoint.n h⟩
    · -- the output is marked already, or not the wallet's
      refine ⟨rfl, rfl, fun _ => rfl, fun o => (or_iff_left_of_imp ?_).symm⟩
      rintro ⟨⟨tx, htx, howns⟩, rfl⟩
      rw [tx?, hlook] at htx
      cases htx
      rw [isSpendNews, Bool.and_eq_true, owns_iff_any.mp howns, Bool.not_eq_true', and_iff_left rfl,
        Bool.not_eq_false] at hnews
      exact ⟨wtx, hlook, howns.lt, hnews⟩

/-- **`WalletUpdateSpent` marks what a transaction spends** when it returns. -/
theorem CWallet.marks_walletUpdateSpent? (h : w.walletUpdateSpent? tx = some w') :
    w.Marks w' (· ∈ tx.prevouts) := by
  unfold walletUpdateSpent? at h
  unfold CTransaction.prevouts
  generalize tx.vin = vin at h
  induction vin generalizing w with
  | nil =>
    cases h
    exact (Marks.refl _).congr fun o _ => by simp
  | cons txin vin ih =>
    rw [List.foldlM_cons] at h
    obtain ⟨w₁, hfirst, hrest⟩ := Option.bind_eq_some_iff.mp h
    unfold updateSpentInput? at hfirst
    split_ifs at hfirst
    obtain rfl := Option.some.inj hfirst
    refine ((marks_updateSpentInput _ txin).trans (ih hrest)).congr fun o _ => ?_
    rw [List.map_cons, List.mem_cons]

/-! ## Going through the wallet -/

/-- A transaction is skipped when it is a coinbase whose first output is marked. -/
def CWalletTx.Skipped (wtx : CWalletTx) : Prop := wtx.tx.isCoinBase = true ∧ wtx.isSpent 0 = true

section Entry

variable {wtx : CWalletTx} {vSpent : List CDiskTxPos}

/-- The index has a position for an output. -/
def HasPosition (vSpent : List CDiskTxPos) (i : ℕ) : Prop :=
  (vSpent.getD i CDiskTxPos.setNull).isNull = false

/-- An own output with a position is not marked. -/
def CWallet.IsMissing (wallet : CWallet) (wtx : CWalletTx) (vSpent : List CDiskTxPos) (i : ℕ) : Prop :=
  wallet.Owns wtx.tx i ∧ HasPosition vSpent i ∧ wtx.isSpent i = false

theorem CWallet.findSpent_of_isMissing {st : CWalletTx × List CDiskTxPos} {i : ℕ}
    (h : wallet.IsMissing st.1 vSpent i) : wallet.findSpent vSpent st i =
      (st.1.markSpent i, st.2 ++ [vSpent.getD i CDiskTxPos.setNull]) := by
  obtain ⟨howns, hpos, hspent⟩ := h
  unfold HasPosition at hpos
  unfold findSpent
  dsimp only
  rw [hspent, if_neg Bool.false_ne_true, hpos, owns_iff_any.mp howns]
  rfl

theorem CWallet.findSpent_of_not_isMissing {st : CWalletTx × List CDiskTxPos} {i : ℕ}
    (h : ¬wallet.IsMissing st.1 vSpent i) : wallet.findSpent vSpent st i = st := by
  unfold findSpent
  dsimp only
  split_ifs with hspent hnew
  · rfl
  · rw [Bool.and_eq_true, Bool.not_eq_true'] at hnew
    exact absurd ⟨owns_iff_any.mpr hnew.2, hnew.1, Bool.not_eq_true _ ▸ hspent⟩ h
  · rfl

/-- The loop over the first `n` outputs marks the own ones that have a position, and lists a position
exactly when one of them was not marked. -/
theorem CWallet.foldl_findSpent (wallet : CWallet) (wtx : CWalletTx) (vSpent : List CDiskTxPos)
    {n : ℕ} (hn : n ≤ wtx.tx.vout.length) {st : CWalletTx × List CDiskTxPos}
    (hst : (List.range n).foldl (wallet.findSpent vSpent) (wtx, []) = st) :
    st.1.tx = wtx.tx ∧
      (∀ i < wtx.tx.vout.length, (st.1.isSpent i = true ↔ wtx.isSpent i = true ∨
        wallet.Owns wtx.tx i ∧ i < n ∧ HasPosition vSpent i)) ∧
      (st.2 ≠ [] ↔ ∃ i < n, wallet.IsMissing wtx vSpent i) := by
  induction n generalizing st with
  | zero =>
    subst hst
    exact ⟨rfl, by simp, by simp⟩
  | succ n ih =>
    rw [List.range_succ, List.foldl_append, List.foldl_cons, List.foldl_nil] at hst
    obtain ⟨htx, hspent, hmissing⟩ := ih (by omega) rfl
    generalize (List.range n).foldl (wallet.findSpent vSpent) (wtx, []) = st₁ at hst htx hspent hmissing
    subst hst
    -- the output `n` is as it was
    have hsame : st₁.1.isSpent n = wtx.isSpent n := by
      rw [Bool.eq_iff_iff, hspent n (by omega)]
      simp
    have hiff : wallet.IsMissing st₁.1 vSpent n ↔ wallet.IsMissing wtx vSpent n := by
      rw [IsMissing, IsMissing, htx, hsame]
    rw [Nat.exists_lt_succ_right, ← hmissing]
    by_cases hnew : wallet.IsMissing wtx vSpent n
    · rw [findSpent_of_isMissing (hiff.mpr hnew)]
      refine ⟨htx, fun i hi => ?_, by simp [hnew]⟩
      rw [st₁.1.isSpent_markSpent (htx ▸ hi) (by rw [htx]; omega)]
      split_ifs with heq
      · subst heq
        exact iff_of_true rfl (.inr ⟨hnew.1, by omega, hnew.2.1⟩)
      · rw [hspent i hi, Nat.lt_succ_iff_lt_or_eq, or_iff_left heq]
    · rw [findSpent_of_not_isMissing (mt hiff.mp hnew), or_iff_left hnew]
      refine ⟨htx, fun i hi => ?_, Iff.rfl⟩
      rw [hspent i hi, Nat.lt_succ_iff_lt_or_eq]
      by_cases heq : i = n
      · subst heq
        unfold IsMissing at hnew
        cases hs : wtx.isSpent i <;> simp_all
      · rw [or_iff_left heq]

/-- What going through a transaction has to mark: the own outputs that the index records as spent,
unless the transaction is skipped. -/
def CWalletTx.ToMark (P : Params) (index : TxIndexMap) (wtx : CWalletTx) (i : ℕ) : Prop :=
  ¬wtx.Skipped ∧ RecordedSpent P index wtx.tx i

/-- **A transaction is gone through**: what there is to mark is marked, and a position is listed
exactly when a mark was missing. -/
theorem CWallet.reacceptTx_spec {r : CWalletTx × List CDiskTxPos}
    (h : w.reacceptTx P index wtx = some r) :
    r.1.tx = wtx.tx ∧
      (∀ i < wtx.tx.vout.length, (r.1.isSpent i = true ↔
        wtx.isSpent i = true ∨ w.Owns wtx.tx i ∧ wtx.ToMark P index i)) ∧
      (r.2 ≠ [] ↔ ∃ i, w.Owns wtx.tx i ∧ wtx.ToMark P index i ∧ wtx.isSpent i = false) := by
  have hnothing : (∀ i, ¬wtx.ToMark P index i) → r = (wtx, []) → r.1.tx = wtx.tx ∧
      (∀ i < wtx.tx.vout.length, (r.1.isSpent i = true ↔
        wtx.isSpent i = true ∨ w.Owns wtx.tx i ∧ wtx.ToMark P index i)) ∧
      (r.2 ≠ [] ↔ ∃ i, w.Owns wtx.tx i ∧ wtx.ToMark P index i ∧ wtx.isSpent i = false) := by
    rintro hno rfl
    exact ⟨rfl, by simp [hno], by simp [hno]⟩
  unfold reacceptTx at h
  split_ifs at h with hthrows hskip
  · exact hnothing (fun i hi => hi.1 hskip) (Option.some.inj h).symm
  · cases hlook : index.lookup (wtx.tx.getHash P) with
    | none =>
      rw [hlook] at h
      refine hnothing (fun i hi => ?_) (Option.some.inj h).symm
      obtain ⟨-, txindex, hsome, -⟩ := hi
      rw [hlook] at hsome
      cases hsome
    | some txindex =>
      rw [hlook] at h
      dsimp only at h
      split_ifs at h with hlen
      · refine hnothing (fun i hi => ?_) (Option.some.inj h).symm
        obtain ⟨-, txindex', hsome, hlen', -⟩ := hi
        rw [hlook, Option.some.injEq] at hsome
        exact hlen (hsome ▸ hlen')
      · -- the loop over the positions of the record
        replace hlen : txindex.vSpent.length = wtx.tx.vout.length := not_not.mp hlen
        have hmark : ∀ i, wtx.ToMark P index i ↔ HasPosition txindex.vSpent i := by
          intro i
          unfold CWalletTx.ToMark RecordedSpent HasPosition
          simp only [hlook, Option.some.injEq, exists_eq_left', hlen, true_and]
          exact and_iff_right hskip
        obtain ⟨htx, hspent, hmissing⟩ :=
          w.foldl_findSpent wtx txindex.vSpent hlen.le (Option.some.inj h)
        refine ⟨htx, fun i hi => ?_, ?_⟩
        · rw [hspent i hi, hmark, hlen]
          simp [hi]
        · rw [hmissing]
          simp only [hmark]
          constructor
          · rintro ⟨i, -, hi⟩
            exact ⟨i, hi⟩
          · rintro ⟨i, hi⟩
            exact ⟨i, hlen ▸ hi.1.lt, hi⟩

/-- An own output of the wallet has to be marked, and is not. -/
def CWallet.Misses (P : Params) (index : TxIndexMap) (wallet : CWallet) : Prop :=
  ∃ hash wtx, wallet.mapWallet.lookup hash = some wtx ∧
    ∃ i, wallet.Owns wtx.tx i ∧ wtx.ToMark P index i ∧ wtx.isSpent i = false

/-- The loop over some of the entries of the wallet. -/
theorem CWallet.foldlM_reacceptEntry {l : List (Uint256 × CWalletTx)}
    (hnodup : (l.map Prod.fst).Nodup)
    (hl : ∀ item ∈ l, w.mapWallet.lookup item.1 = some item.2) {vMissingTx : List CDiskTxPos}
    {st : CWallet × List CDiskTxPos}
    (h : l.foldlM (CWallet.reacceptEntry P index) (w, vMissingTx) = some st) :
    w.Marks st.1 (fun o => ∃ item ∈ l, item.1 = o.hash ∧ item.2.ToMark P index o.n) ∧
      (st.2 ≠ [] ↔ vMissingTx ≠ [] ∨ ∃ item ∈ l, ∃ i, w.Owns item.2.tx i ∧
        item.2.ToMark P index i ∧ item.2.isSpent i = false) := by
  induction l generalizing w vMissingTx with
  | nil =>
    obtain rfl := Option.some.inj h
    exact ⟨(Marks.refl _).congr fun o _ => by simp, by simp⟩
  | cons item l ih =>
    obtain ⟨hitem, hrest⟩ := List.forall_mem_cons.mp hl
    obtain ⟨hnew, hnodup⟩ := List.nodup_cons.mp hnodup
    rw [List.foldlM_cons] at h
    obtain ⟨st₁, hfirst, h⟩ := Option.bind_eq_some_iff.mp h
    obtain ⟨r, hr, rfl⟩ := Option.map_eq_some_iff.mp hfirst
    obtain ⟨htx, hspent, hmissing⟩ := reacceptTx_spec hr
    have hmarks := Marks.of_insert hitem htx hspent
    -- the entries that are left are as they were
    obtain ⟨hmarks', hmissing'⟩ := ih hnodup (fun item' hitem' => by
      rw [lookup_insert_eq_ite, if_neg, hrest item' hitem']
      exact fun heq => hnew (heq ▸ List.mem_map_of_mem hitem')) h
    refine ⟨(hmarks.trans hmarks').congr fun o _ => ?_, ?_⟩
    · rw [List.exists_mem_cons_iff, eq_comm (a := o.hash)]
    · rw [hmissing', Ne, List.append_eq_nil_iff, not_and_or, ← Ne, ← Ne, hmissing, or_assoc]
      simp only [List.mem_cons, exists_eq_or_imp, owns_congr hmarks.isMine]

/-- **Going through the wallet** marks what there is to mark, and a position is listed exactly when
a mark was missing. -/
theorem CWallet.reacceptAll_spec {st : CWallet × List CDiskTxPos}
    (h : w.reacceptAll P index = some st) :
    w.Marks st.1 (fun o => ∃ wtx, w.mapWallet.lookup o.hash = some wtx ∧ wtx.ToMark P index o.n) ∧
      (st.2 ≠ [] ↔ w.Misses P index) := by
  obtain ⟨hmarks, hmissing⟩ := foldlM_reacceptEntry w.nodup_inOrder
    (fun item hitem => mem_inOrder.mp hitem) h
  refine ⟨hmarks.congr fun o _ => ?_, ?_⟩
  · constructor
    · rintro ⟨⟨hash, wtx⟩, hitem, rfl, hmark⟩
      exact ⟨wtx, mem_inOrder.mp hitem, hmark⟩
    · rintro ⟨wtx, hlook, hmark⟩
      exact ⟨(o.hash, wtx), mem_inOrder.mpr hlook, rfl, hmark⟩
  · rw [hmissing, or_iff_right (by simp), Misses]
    constructor
    · rintro ⟨⟨hash, wtx⟩, hitem, hmiss⟩
      exact ⟨hash, wtx, mem_inOrder.mp hitem, hmiss⟩
    · rintro ⟨hash, wtx, hlook, hmiss⟩
      exact ⟨(hash, wtx), mem_inOrder.mpr hlook, hmiss⟩

end Entry

/-! ## What a scan does -/

/-- A transaction pays to the wallet or spends from it. -/
def CWallet.involves (wallet : CWallet) (tx : CTransaction) : Bool :=
  wallet.isMineTx tx || wallet.isFromMe tx

/-- A wallet has seen a transaction that it did not have: it has taken it in if it is involved, and
has marked what it spends. -/
structure CWallet.Sees (P : Params) (w w' : CWallet) (tx : CTransaction) : Prop where
  isMine : w'.isMine = w.isMine
  minimum : w'.nMinimumInputValue = w.nMinimumInputValue
  tx_eq : ∀ hash, w'.tx? hash =
    if hash = tx.getHash P ∧ w.involves tx = true then some tx else w.tx? hash
  spent : ∀ o, w'.Spent o ↔ w.Spent o ∨ w'.HasOwn o ∧ o ∈ tx.prevouts

/-- **A wallet after a scan** over a list of transactions, and how many of them it took in. -/
inductive CWallet.Scanned (P : Params) : CWallet → List CTransaction → ℕ → CWallet → Prop
  | nil (w : CWallet) : Scanned P w [] 0 w
  | known {w w' : CWallet} {tx : CTransaction} {txs : List CTransaction} {n : ℕ}
      (hmem : tx.getHash P ∈ w.mapWallet) (h : Scanned P w txs n w') : Scanned P w (tx :: txs) n w'
  | seen {w w₁ w' : CWallet} {tx : CTransaction} {txs : List CTransaction} {n : ℕ}
      (hnew : tx.getHash P ∉ w.mapWallet) (hsees : w.Sees P w₁ tx) (h : Scanned P w₁ txs n w') :
      Scanned P w (tx :: txs) ((w.involves tx).toNat + n) w'

section Scanned

variable {nAdjustedTime : ℤ} {block : CBlock} {txs : List CTransaction} {n : ℕ}

/-- The marks that seeing a transaction sets in a wallet that does not take it in. -/
theorem CWallet.Marks.sees (h : w.Marks w' (· ∈ tx.prevouts)) (hno : w.involves tx = false) :
    w.Sees P w' tx := by
  refine ⟨h.isMine, h.minimum, fun hash => ?_, fun o => ?_⟩
  · rw [h.tx, hno, if_neg (by simp)]
  · rw [h.spent, h.hasOwn]

/-- The marks that seeing a transaction sets in a wallet that takes it in. -/
theorem CWallet.Marks.sees_insert {wtx : CWalletTx} (hnew : tx.getHash P ∉ w.mapWallet)
    (htx : wtx.tx = tx) (hunspent : wtx.vfSpent = [])
    (h : CWallet.Marks { w with mapWallet := w.mapWallet.insert (tx.getHash P) wtx } w'
      (· ∈ tx.prevouts)) (hinvolves : w.involves tx = true) : w.Sees P w' tx := by
  refine ⟨h.isMine, h.minimum, fun hash => ?_, fun o => ?_⟩
  · rw [h.tx, tx?, lookup_insert_eq_ite, hinvolves]
    split_ifs with h₁ h₂ h₂
    · rw [Option.map_some, htx]
    · exact absurd ⟨h₁, rfl⟩ h₂
    · exact absurd h₂.1 h₁
    · rfl
  · rw [h.spent, h.hasOwn]
    refine or_congr_left ?_
    unfold Spent
    rw [lookup_insert_eq_ite]
    split_ifs with heq
    · -- the new transaction has no marks
      have hnone : w.mapWallet.lookup o.hash = none := by rw [heq, Finmap.lookup_eq_none.mpr hnew]
      simp [hnone, CWalletTx.isSpent, hunspent]
    · rfl

/-- A transaction without marks that the wallet does not have is taken in. -/
theorem CWallet.sees_addToWallet? {wtxIn : CWalletTx} (hnew : wtxIn.tx.getHash P ∉ w.mapWallet)
    (hunspent : wtxIn.vfSpent = []) (h : w.addToWallet? P nAdjustedTime wtxIn = some w')
    (hinvolves : w.involves wtxIn.tx = true) : w.Sees P w' wtxIn.tx := by
  unfold addToWallet? at h
  dsimp only at h
  rw [Finmap.lookup_eq_none.mpr hnew] at h
  have hmarks := marks_walletUpdateSpent? h
  dsimp only at hmarks
  refine Marks.sees_insert hnew ?_ ?_ hmarks hinvolves
  · rfl
  · exact hunspent

theorem CWallet.vfSpent_setMerkleBranch (P : Params) (wtx : CWalletTx) (block : CBlock) :
    (wtx.setMerkleBranch P block).tx = wtx.tx ∧
      (wtx.setMerkleBranch P block).vfSpent = wtx.vfSpent := by
  unfold CWalletTx.setMerkleBranch
  cases block.txIndex wtx.tx <;> exact ⟨rfl, rfl⟩

/-- **A transaction of the scan** is one the wallet has, or is seen. -/
theorem CWallet.scanTx_cases {st st' : CWallet × ℕ}
    (h : CWallet.scanTx P nAdjustedTime false block st tx = some st') :
    (tx.getHash P ∈ st.1.mapWallet ∧ st' = st) ∨
      tx.getHash P ∉ st.1.mapWallet ∧ st.1.Sees P st'.1 tx ∧
        st'.2 = st.2 + (st.1.involves tx).toNat := by
  obtain ⟨r, hr, rfl⟩ := Option.map_eq_some_iff.mp h
  unfold addToWalletIfInvolvingMe? at hr
  by_cases hmem : tx.getHash P ∈ st.1.mapWallet
  · simp only [hmem, decide_true, Bool.not_false, Bool.and_self, if_true, Option.some.injEq] at hr
    subst hr
    exact .inl ⟨hmem, rfl⟩
  · refine .inr ⟨hmem, ?_⟩
    simp only [hmem, decide_false, Bool.false_and, Bool.false_or, Bool.false_eq_true, if_false] at hr
    change (if st.1.involves tx = true then _ else _) = _ at hr
    split_ifs at hr with hinvolves
    · obtain ⟨w₁, hadd, rfl⟩ := Option.map_eq_some_iff.mp hr
      obtain ⟨htx, hvfSpent⟩ := vfSpent_setMerkleBranch P (CWalletTx.ofTx tx) block
      have hnew : ((CWalletTx.ofTx tx).setMerkleBranch P block).tx.getHash P ∉ st.1.mapWallet := by
        rw [htx]
        exact hmem
      have hsees := sees_addToWallet? hnew hvfSpent hadd (by rw [htx]; exact hinvolves)
      rw [htx] at hsees
      exact ⟨hsees, by simp [hinvolves]⟩
    · obtain ⟨w₁, hupdate, rfl⟩ := Option.map_eq_some_iff.mp hr
      rw [Bool.not_eq_true] at hinvolves
      exact ⟨(marks_walletUpdateSpent? hupdate).sees hinvolves, by simp [hinvolves]⟩

/-- The transactions of a block are scanned. -/
theorem CWallet.scanned_block {st st' : CWallet × ℕ}
    (h : txs.foldlM (CWallet.scanTx P nAdjustedTime false block) st = some st') :
    ∃ n, CWallet.Scanned P st.1 txs n st'.1 ∧ st'.2 = st.2 + n := by
  induction txs generalizing st with
  | nil =>
    obtain rfl := Option.some.inj h
    exact ⟨0, .nil _, rfl⟩
  | cons tx txs ih =>
    rw [List.foldlM_cons] at h
    obtain ⟨st₁, hfirst, h⟩ := Option.bind_eq_some_iff.mp h
    obtain ⟨n, hscanned, hn⟩ := ih h
    rcases scanTx_cases hfirst with ⟨hmem, rfl⟩ | ⟨hnew, hsees, hcount⟩
    · exact ⟨n, .known hmem hscanned, hn⟩
    · exact ⟨_, .seen hnew hsees hscanned, by omega⟩

/-- The transactions that a scan reads at an index. -/
def ScanView.vtx (v : ScanView) (pindex : CBlockIndex) : List CTransaction :=
  ((v.files.block? pindex.nFile pindex.nBlockPos).map CBlock.vtx).getD []

theorem CWallet.Scanned.trans {txs' : List CTransaction} {n' : ℕ} (h : w.Scanned P txs n w')
    (h' : w'.Scanned P txs' n' w'') : w.Scanned P (txs ++ txs') (n + n') w'' := by
  induction h with
  | nil =>
    rw [Nat.zero_add]
    exact h'
  | known hmem _ ih => exact .known hmem (ih h')
  | seen hnew hsees _ ih =>
    rw [Nat.add_assoc]
    exact .seen hnew hsees (ih h')

/-- **`ScanForWalletTransactions`** scans the transactions of the blocks it reads. -/
theorem CWallet.scanned_scanForWalletTransactions {v : ScanView} {walk : List CBlockIndex}
    (h : w.scanForWalletTransactions P nAdjustedTime v false walk = some (w', n)) :
    w.Scanned P (walk.flatMap v.vtx) n w' := by
  have hwalk : ∀ st st' : CWallet × ℕ,
      walk.foldlM (CWallet.scanBlock P nAdjustedTime v false) st = some st' →
        ∃ n, CWallet.Scanned P st.1 (walk.flatMap v.vtx) n st'.1 ∧ st'.2 = st.2 + n := by
    intro st st' hst
    clear h
    induction walk generalizing st with
    | nil =>
      obtain rfl := Option.some.inj hst
      exact ⟨0, .nil _, rfl⟩
    | cons pindex walk ih =>
      rw [List.foldlM_cons] at hst
      obtain ⟨st₁, hfirst, hrest⟩ := Option.bind_eq_some_iff.mp hst
      obtain ⟨n, hscanned, hn⟩ := ih st₁ hrest
      have hblock : ∃ n₁, CWallet.Scanned P st.1 (v.vtx pindex) n₁ st₁.1 ∧ st₁.2 = st.2 + n₁ := by
        unfold scanBlock at hfirst
        unfold ScanView.vtx
        cases hread : v.files.block? pindex.nFile pindex.nBlockPos with
        | none =>
          rw [hread] at hfirst
          obtain rfl := Option.some.inj hfirst
          exact ⟨0, .nil _, rfl⟩
        | some block =>
          rw [hread] at hfirst
          exact scanned_block hfirst
      obtain ⟨n₁, hscanned₁, hn₁⟩ := hblock
      rw [List.flatMap_cons]
      exact ⟨n₁ + n, hscanned₁.trans hscanned, by omega⟩
  obtain ⟨n', hscanned, hn⟩ := hwalk (w, 0) (w', n) h
  obtain rfl : n = n' := by simpa using hn
  exact hscanned

/-- Some transaction of a list that the wallet does not have spends an outpoint. -/
def CWallet.SpentElsewhere (P : Params) (wallet : CWallet) (txs : List CTransaction)
    (o : COutPoint) : Prop :=
  ∃ tx ∈ txs, tx.getHash P ∉ wallet.mapWallet ∧ o ∈ tx.prevouts

/-- Transactions of one hash are the same. -/
def AgreeByHash (P : Params) (txs : List CTransaction) : Prop :=
  ∀ tx ∈ txs, ∀ tx' ∈ txs, tx.getHash P = tx'.getHash P → tx = tx'

theorem AgreeByHash.tail (h : AgreeByHash P (tx :: txs)) : AgreeByHash P txs :=
  fun tx₁ h₁ tx₂ h₂ => h tx₁ (List.mem_cons_of_mem _ h₁) tx₂ (List.mem_cons_of_mem _ h₂)

theorem AgreeByHash.append_right {txs' : List CTransaction} (h : AgreeByHash P (txs ++ txs')) :
    AgreeByHash P txs' :=
  fun tx₁ h₁ tx₂ h₂ => h tx₁ (List.mem_append_right _ h₁) tx₂ (List.mem_append_right _ h₂)

/-- The transactions of a chain: those of one hash are the same, none has the null hash, and what
spends a transaction of the list comes after it. -/
structure ChainOrdered (P : Params) (txs : List CTransaction) : Prop where
  agree : AgreeByHash P txs
  ne_null : ∀ tx ∈ txs, tx.getHash P ≠ 0
  after : ∀ before tx after, txs = before ++ tx :: after → ∀ o ∈ tx.prevouts,
    ∀ c ∈ txs, c.getHash P = o.hash → c ∈ before

theorem CWallet.getDebit_congr (hmine : w'.isMine = w.isMine) {txin : CTxIn}
    (htx : w'.tx? txin.prevout.hash = w.tx? txin.prevout.hash) : w'.getDebit txin = w.getDebit txin := by
  unfold tx? at htx
  unfold getDebit
  cases hlook : w.mapWallet.lookup txin.prevout.hash with
  | none =>
    rw [hlook, Option.map_none, Option.map_eq_none_iff] at htx
    rw [htx]
  | some prev =>
    rw [hlook, Option.map_some, Option.map_eq_some_iff] at htx
    obtain ⟨prev', hlook', htx⟩ := htx
    rw [hlook']
    dsimp only
    rw [htx, hmine]

theorem CWallet.involves_congr (hmine : w'.isMine = w.isMine)
    (hmin : w'.nMinimumInputValue = w.nMinimumInputValue)
    (htx : ∀ txin ∈ tx.vin, w'.tx? txin.prevout.hash = w.tx? txin.prevout.hash) :
    w'.involves tx = w.involves tx := by
  have hdebit : tx.vin.map w'.getDebit = tx.vin.map w.getDebit :=
    List.map_congr_left fun txin htxin => getDebit_congr hmine (htx txin htxin)
  rw [involves, involves, isMineTx, isMineTx, isFromMe, isFromMe, hmine, hmin, hdebit]

/-- The hash of what a coinbase claims is null. -/
theorem CTransaction.hash_of_isCoinBase (hcb : tx.isCoinBase = true) (ho : o ∈ tx.prevouts) :
    o.hash = 0 := by
  unfold isCoinBase at hcb
  unfold prevouts at ho
  split at hcb
  · next txin hvin =>
    rw [hvin, List.map_singleton, List.mem_singleton] at ho
    subst ho
    simp only [COutPoint.isNull, Bool.and_eq_true, beq_iff_eq] at hcb
    exact hcb.1
  · cases hcb

/-- Whether a coinbase involves a wallet depends on no transaction but one of the null hash. -/
theorem CWallet.involves_of_isCoinBase (hmine : w'.isMine = w.isMine)
    (hmin : w'.nMinimumInputValue = w.nMinimumInputValue) (hzero : w'.tx? 0 = w.tx? 0)
    (hcb : tx.isCoinBase = true) : w'.involves tx = w.involves tx := by
  refine involves_congr hmine hmin fun txin htxin => ?_
  rw [CTransaction.hash_of_isCoinBase hcb (List.mem_map_of_mem htxin)]
  exact hzero

theorem CWallet.SpentElsewhere.mono (hsub : ∀ hash, hash ∉ w'.mapWallet → hash ∉ w.mapWallet)
    (h : w'.SpentElsewhere P txs o) : w.SpentElsewhere P txs o := by
  obtain ⟨tx, htx, hnew, ho⟩ := h
  exact ⟨tx, htx, hsub _ hnew, ho⟩

theorem CWallet.hasOwn_of_tx? (hmine : w'.isMine = w.isMine)
    (htx : ∀ tx, w.tx? o.hash = some tx → w'.tx? o.hash = some tx) (h : w.HasOwn o) :
    w'.HasOwn o := by
  obtain ⟨tx, hlook, howns⟩ := h
  exact ⟨tx, htx tx hlook, (owns_congr hmine).mpr howns⟩

theorem CWallet.notMem_of_kept (hkept : ∀ tx, w.tx? hash = some tx → w'.tx? hash = some tx)
    (hnew : hash ∉ w'.mapWallet) : hash ∉ w.mapWallet := by
  intro hmem
  cases hlook : w.tx? hash with
  | none => exact tx?_eq_none.mp hlook hmem
  | some tx => exact absurd (tx?_eq_none.mpr hnew) (by rw [hkept tx hlook]; simp)

namespace CWallet.Sees

theorem kept (h : w.Sees P w' tx) (hnew : tx.getHash P ∉ w.mapWallet) {tx' : CTransaction}
    (hlook : w.tx? hash = some tx') : w'.tx? hash = some tx' := by
  rw [h.tx_eq, if_neg, hlook]
  rintro ⟨rfl, -⟩
  rw [tx?_eq_none.mpr hnew] at hlook
  cases hlook

theorem notMem (h : w.Sees P w' tx) (hnew : hash ∉ w.mapWallet) (hne : hash ≠ tx.getHash P) :
    hash ∉ w'.mapWallet := by
  rw [← tx?_eq_none, h.tx_eq, if_neg (fun h => hne h.1), tx?_eq_none.mpr hnew]

end CWallet.Sees

namespace CWallet.Scanned

theorem isMine (h : w.Scanned P txs n w') : w'.isMine = w.isMine := by
  induction h with
  | nil => rfl
  | known _ _ ih => exact ih
  | seen _ hsees _ ih => exact ih.trans hsees.isMine

theorem minimum (h : w.Scanned P txs n w') : w'.nMinimumInputValue = w.nMinimumInputValue := by
  induction h with
  | nil => rfl
  | known _ _ ih => exact ih
  | seen _ hsees _ ih => exact ih.trans hsees.minimum

/-- The transactions of the wallet stay. -/
theorem kept (h : w.Scanned P txs n w') {tx : CTransaction} (hlook : w.tx? hash = some tx) :
    w'.tx? hash = some tx := by
  induction h with
  | nil => exact hlook
  | known _ _ ih => exact ih hlook
  | seen hnew hsees _ ih => exact ih (hsees.kept hnew hlook)

/-- The marks stay. -/
theorem spent (h : w.Scanned P txs n w') (hspent : w.Spent o) : w'.Spent o := by
  induction h with
  | nil => exact hspent
  | known _ _ ih => exact ih hspent
  | seen _ hsees _ ih => exact ih ((hsees.spent o).mpr (.inl hspent))

/-- What is taken in is a transaction of the list, and involved when the scan meets it. -/
theorem added (h : w.Scanned P txs n w') {tx : CTransaction} (hnone : w.tx? hash = none)
    (hlook : w'.tx? hash = some tx) : tx ∈ txs ∧ tx.getHash P = hash ∧
      ∃ txs₁ n₁ w₁, txs₁ ⊆ txs ∧ w.Scanned P txs₁ n₁ w₁ ∧ w₁.involves tx = true := by
  induction h with
  | nil =>
    rw [hnone] at hlook
    cases hlook
  | known hmem _ ih =>
    obtain ⟨hin, hhash, txs₁, n₁, w₁, hsub, hscanned, hinvolves⟩ := ih hnone hlook
    exact ⟨List.mem_cons_of_mem _ hin, hhash, _, n₁, w₁, List.cons_subset_cons _ hsub,
      .known hmem hscanned, hinvolves⟩
  | @seen w w₂ w' tx' txs n hnew hsees hrest ih =>
    cases hlook₂ : w₂.tx? hash with
    | none =>
      obtain ⟨hin, hhash, txs₁, n₁, w₁, hsub, hscanned, hinvolves⟩ := ih hlook₂ hlook
      exact ⟨List.mem_cons_of_mem _ hin, hhash, _, _, w₁, List.cons_subset_cons _ hsub,
        .seen hnew hsees hscanned, hinvolves⟩
    | some tx₂ =>
      -- the transaction is the one that the wallet has just seen
      have heq := hrest.kept hlook₂
      rw [hlook, Option.some.injEq] at heq
      subst heq
      rw [hsees.tx_eq] at hlook₂
      split_ifs at hlook₂ with hcond
      · obtain rfl := Option.some.inj hlook₂
        exact ⟨List.mem_cons_self, hcond.1.symm, [], 0, w, List.nil_subset _, .nil w, hcond.2⟩
      · rw [hnone] at hlook₂
        cases hlook₂

/-- A mark that a scan sets is on an own output that a transaction of the list spends. -/
theorem spent_imp (h : w.Scanned P txs n w') (hspent : w'.Spent o) :
    w.Spent o ∨ w'.HasOwn o ∧ w.SpentElsewhere P txs o := by
  induction h with
  | nil => exact .inl hspent
  | known _ _ ih =>
    refine (ih hspent).imp_right (And.imp_right ?_)
    rintro ⟨tx, htx, hnew, ho⟩
    exact ⟨tx, List.mem_cons_of_mem _ htx, hnew, ho⟩
  | @seen w w₁ w' tx txs n hnew hsees hrest ih =>
    rcases ih hspent with hspent | ⟨hown, tx', htx', hnew', ho⟩
    · refine ((hsees.spent o).mp hspent).imp_right fun ⟨hown, ho⟩ => ⟨?_, tx, List.mem_cons_self, hnew, ho⟩
      exact hasOwn_of_tx? hrest.isMine (fun _ => hrest.kept) hown
    · exact .inr ⟨hown, tx', List.mem_cons_of_mem _ htx',
        notMem_of_kept (fun _ => hsees.kept hnew) hnew', ho⟩

/-- **What a transaction of the list spends is marked**, when the wallet has the output and does not
have the transaction. -/
theorem spent_of_elsewhere (h : w.Scanned P txs n w') (hagree : AgreeByHash P txs)
    (hown : w.HasOwn o) (helse : w.SpentElsewhere P txs o) : w'.Spent o := by
  obtain ⟨tx, htx, hnew, ho⟩ := helse
  induction h with
  | nil => cases htx
  | known hmem _ ih =>
    rcases List.mem_cons.mp htx with rfl | htx
    · exact absurd hmem hnew
    · exact ih hagree.tail hown htx hnew
  | @seen w w₁ w' tx' txs n hnew' hsees hrest ih =>
    have hown₁ : w₁.HasOwn o := hasOwn_of_tx? hsees.isMine (fun _ => hsees.kept hnew') hown
    by_cases heq : tx = tx'
    · subst heq
      exact hrest.spent ((hsees.spent o).mpr (.inr ⟨hown₁, ho⟩))
    · have hne := mt (hagree tx htx tx' List.mem_cons_self) heq
      exact ih hagree.tail hown₁ ((List.mem_cons.mp htx).resolve_left heq) (hsees.notMem hnew hne)

/-- A scan that takes nothing in leaves the transactions of the wallet alone. -/
theorem tx?_eq_of_count (h : w.Scanned P txs n w') (hn : n = 0) : w'.tx? hash = w.tx? hash := by
  induction h with
  | nil => rfl
  | known _ _ ih => exact ih hn
  | @seen w w₁ w' tx txs n hnew hsees _ ih =>
    rw [ih (by omega), hsees.tx_eq, if_neg]
    rintro ⟨-, hinvolves⟩
    rw [hinvolves] at hn
    simp at hn

/-- A scan that takes something in takes in a transaction of the list. -/
theorem exists_added (h : w.Scanned P txs n w') (hn : n ≠ 0) :
    ∃ tx ∈ txs, tx.getHash P ∉ w.mapWallet ∧ tx.getHash P ∈ w'.mapWallet := by
  induction h with
  | nil => exact absurd rfl hn
  | known _ _ ih =>
    obtain ⟨tx, htx, hadded⟩ := ih hn
    exact ⟨tx, List.mem_cons_of_mem _ htx, hadded⟩
  | @seen w w₁ w' tx txs n hnew hsees hrest ih =>
    cases hinvolves : w.involves tx with
    | true =>
      refine ⟨tx, List.mem_cons_self, hnew, ?_⟩
      have hlook : w₁.tx? (tx.getHash P) = some tx := by rw [hsees.tx_eq, if_pos ⟨rfl, hinvolves⟩]
      by_contra hno
      have := hrest.kept hlook
      rw [tx?_eq_none.mpr hno] at this
      cases this
    | false =>
      rw [hinvolves] at hn
      obtain ⟨tx', htx', hnew', hmem⟩ := ih (by simpa using hn)
      exact ⟨tx', List.mem_cons_of_mem _ htx',
        notMem_of_kept (fun _ => hsees.kept hnew) hnew', hmem⟩

theorem append {txs' : List CTransaction} (h : w.Scanned P (txs ++ txs') n w') :
    ∃ w₁ n₁ n₂, w.Scanned P txs n₁ w₁ ∧ w₁.Scanned P txs' n₂ w' := by
  induction txs generalizing w n with
  | nil => exact ⟨w, 0, n, .nil w, h⟩
  | cons tx txs ih =>
    cases h with
    | known hmem h =>
      obtain ⟨w₁, n₁, n₂, h₁, h₂⟩ := ih h
      exact ⟨w₁, n₁, n₂, .known hmem h₁, h₂⟩
    | seen hnew hsees h =>
      obtain ⟨w₁, n₁, n₂, h₁, h₂⟩ := ih h
      exact ⟨w₁, _, n₂, .seen hnew hsees h₁, h₂⟩

/-- No transaction of the null hash is taken in. -/
theorem tx?_zero (h : w.Scanned P txs n w') (hnull : ∀ tx ∈ txs, tx.getHash P ≠ 0) :
    w'.tx? 0 = w.tx? 0 := by
  cases hlook : w.tx? 0 with
  | some tx => exact h.kept hlook
  | none =>
    cases hlook' : w'.tx? 0 with
    | none => rfl
    | some tx =>
      obtain ⟨hin, hhash, -⟩ := h.added hlook hlook'
      exact absurd hhash (hnull tx hin)

/-- **A coinbase that involves the wallet is taken in**, and what the transactions of the list spend
of it is marked. -/
theorem takes_in (h : w.Scanned P txs n w') (hord : ChainOrdered P txs) {c : CTransaction}
    (hc : c ∈ txs) (hcb : c.isCoinBase = true) (hnew : c.getHash P ∉ w.mapWallet)
    (hinvolves : w.involves c = true) : w'.tx? (c.getHash P) = some c ∧
      ∀ i, w.Owns c i → w.SpentElsewhere P txs ⟨c.getHash P, i⟩ → w'.Spent ⟨c.getHash P, i⟩ := by
  obtain ⟨before, after, rfl, hfirst⟩ := List.eq_append_cons_of_mem hc
  obtain ⟨w₁, n₁, n₂, h₁, h₂⟩ := h.append
  -- what is in the list before the coinbase is another transaction
  have hbefore : ∀ tx ∈ before ++ c :: after, tx ∉ before → tx.getHash P ∉ w.mapWallet →
      tx.getHash P ∉ w₁.mapWallet := by
    intro tx htx hnot hnone hmem
    cases hlook : w₁.tx? (tx.getHash P) with
    | none => exact tx?_eq_none.mp hlook hmem
    | some tx' =>
      obtain ⟨hin, hhash, -⟩ := h₁.added (tx?_eq_none.mpr hnone) hlook
      exact hnot (hord.agree tx' (List.mem_append_left _ hin) tx htx hhash ▸ hin)
  have hnew₁ := hbefore c hc hfirst hnew
  cases h₂ with
  | known hmem => exact absurd hmem hnew₁
  | @seen _ w₂ _ _ _ n hnot hsees hrest =>
    have hinvolves₁ : w₁.involves c = true := by
      have hzero := h₁.tx?_zero fun tx htx => hord.ne_null tx (List.mem_append_left _ htx)
      rw [involves_of_isCoinBase h₁.isMine h₁.minimum hzero hcb]
      exact hinvolves
    have hlook : w₂.tx? (c.getHash P) = some c := by rw [hsees.tx_eq, if_pos ⟨rfl, hinvolves₁⟩]
    refine ⟨hrest.kept hlook, fun i howns helse => ?_⟩
    obtain ⟨tx, htx, hnone, ho⟩ := helse
    -- what spends the coinbase comes after it
    have hnot : tx ∉ before := by
      intro hin
      obtain ⟨l, r, rfl⟩ := List.append_of_mem hin
      have := hord.after l tx (r ++ c :: after) (by simp) _ ho c hc rfl
      exact hfirst (List.mem_append_left _ this)
    have hne : tx ≠ c := by
      rintro rfl
      exact hfirst (hord.after before tx after rfl _ ho tx hc rfl)
    have hlater : tx ∈ after := by
      rcases List.mem_append.mp htx with hin | hin
      · exact absurd hin hnot
      · exact (List.mem_cons.mp hin).resolve_left hne
    refine hrest.spent_of_elsewhere (hord.agree.append_right.tail) ⟨c, hlook, ?_⟩
      ⟨tx, hlater, hsees.notMem (hbefore tx htx hnot hnone) fun heq => hne (hord.agree tx htx c hc heq),
        ho⟩
    exact (owns_congr (hsees.isMine.trans h₁.isMine)).mpr howns

end CWallet.Scanned

end Scanned

/-! ## The rounds -/

section Rounds

variable {v : ScanView} {nAdjustedTime : ℕ → ℤ} {walk : List CBlockIndex} {txs : List CTransaction}
  {k n : ℕ}

/-- Going through the wallet marks an outpoint when the index records it as spent, unless its
transaction is a coinbase whose first output is marked. -/
def CWallet.PassMarks (P : Params) (index : TxIndexMap) (w : CWallet) (o : COutPoint) : Prop :=
  ∃ tx, w.tx? o.hash = some tx ∧ RecordedSpent P index tx o.n ∧
    ¬(tx.isCoinBase = true ∧ w.Spent ⟨o.hash, 0⟩)

theorem CWallet.skipped_iff {wtx : CWalletTx} (hlook : w.mapWallet.lookup hash = some wtx)
    (hne : 0 < wtx.tx.vout.length) :
    wtx.Skipped ↔ wtx.tx.isCoinBase = true ∧ w.Spent ⟨hash, 0⟩ := by
  unfold CWalletTx.Skipped Spent
  simp [hlook, hne]

/-- What going through the wallet marks, by the transactions and the marks of the wallet. -/
theorem CWallet.marks_reacceptAll {st : CWallet × List CDiskTxPos}
    (h : w.reacceptAll P index = some st) : w.Marks st.1 (w.PassMarks P index) := by
  refine (reacceptAll_spec h).1.congr fun o hown => ?_
  obtain ⟨tx, htx, howns⟩ := hown
  obtain ⟨wtx, hlook, rfl⟩ := Option.map_eq_some_iff.mp htx
  unfold PassMarks CWalletTx.ToMark tx?
  simp only [hlook, Option.some.injEq, exists_eq_left', Option.map_some,
    skipped_iff hlook (by have := howns.lt; omega)]
  exact and_comm

/-- **What a round does.** It goes through the wallet; when no mark was missing that is all, and
otherwise the chain is scanned, and there is another round exactly when the scan took something
in. -/
theorem CWallet.reacceptRound_cases {r : Repeat.Round CWallet}
    (h : w.reacceptRound P v nAdjustedTime walk k = r) :
    r = .failed ∨ ∃ w₁, w.Marks w₁ (w.PassMarks P v.mapTxIndex) ∧
      ((¬w.Misses P v.mapTxIndex ∧ r = .done w₁) ∨
        w.Misses P v.mapTxIndex ∧ ∃ n w₂, w₁.Scanned P (walk.flatMap v.vtx) n w₂ ∧
          r = if n ≠ 0 then .again w₂ else .done w₂) := by
  unfold reacceptRound at h
  cases hall : w.reacceptAll P v.mapTxIndex with
  | none =>
    rw [hall] at h
    exact .inl h.symm
  | some st =>
    obtain ⟨w₁, vMissingTx⟩ := st
    have hmarks := marks_reacceptAll hall
    have hmissing := (reacceptAll_spec hall).2
    rw [hall] at h
    dsimp only at h hmissing
    split_ifs at h with hempty
    · rw [List.isEmpty_iff] at hempty
      exact .inr ⟨w₁, hmarks, .inl ⟨mt hmissing.mpr (not_not.mpr hempty), h.symm⟩⟩
    · rw [List.isEmpty_iff] at hempty
      cases hscan : w₁.scanForWalletTransactions P (nAdjustedTime k) v false walk with
      | none =>
        rw [hscan] at h
        exact .inl h.symm
      | some st =>
        obtain ⟨w₂, n⟩ := st
        rw [hscan] at h
        exact .inr ⟨w₁, hmarks, .inr ⟨hmissing.mp hempty, n, w₂,
          scanned_scanForWalletTransactions hscan, h.symm⟩⟩

/-- The transactions of the scan that a wallet does not have. -/
def CWallet.missingTxs (P : Params) (txs : List CTransaction) (w : CWallet) : Finset Uint256 :=
  (txs.map (CTransaction.getHash P)).toFinset.filter fun hash => hash ∉ w.mapWallet

/-- A round that repeats leaves less for the scans to take in. -/
theorem CWallet.card_missingTxs_lt
    (h : w.reacceptRound P v nAdjustedTime walk k = .again w') :
    (w'.missingTxs P (walk.flatMap v.vtx)).card < (w.missingTxs P (walk.flatMap v.vtx)).card := by
  rcases reacceptRound_cases h with h | ⟨w₁, hmarks, ⟨-, h⟩ | ⟨-, n, w₂, hscanned, h⟩⟩
  · cases h
  · cases h
  · split_ifs at h with hn
    obtain rfl : w' = w₂ := by simpa using h
    have hkept : ∀ hash, hash ∉ w'.mapWallet → hash ∉ w.mapWallet := fun hash =>
      notMem_of_kept fun tx hlook => hscanned.kept ((hmarks.tx hash).trans hlook)
    obtain ⟨tx, htx, hnew, hmem⟩ := hscanned.exists_added hn
    refine Finset.card_lt_card (Finset.ssubset_iff_of_subset ?_ |>.mpr ⟨tx.getHash P, ?_, ?_⟩)
    · intro hash hhash
      rw [missingTxs, Finset.mem_filter] at hhash ⊢
      exact ⟨hhash.1, hkept hash hhash.2⟩
    · rw [missingTxs, Finset.mem_filter, List.mem_toFinset]
      refine ⟨List.mem_map_of_mem htx, ?_⟩
      rw [← tx?_eq_none, ← hmarks.tx, tx?_eq_none]
      exact hnew
    · rw [missingTxs, Finset.mem_filter]
      exact fun h => h.2 hmem

/-! ## What the rounds leave -/

/-- What the rounds make of a coinbase that the wallet did not have and the scan takes in: what the
transactions of the chain spend of it is marked, and nothing else once its first output is. -/
structure CWallet.Taken (P : Params) (index : TxIndexMap) (txs : List CTransaction) (w₀ w : CWallet)
    (c : CTransaction) : Prop where
  look : w.tx? (c.getHash P) = some c
  elsewhere : ∀ i, w₀.Owns c i → w₀.SpentElsewhere P txs ⟨c.getHash P, i⟩ →
    w.Spent ⟨c.getHash P, i⟩
  only : w₀.Owns c 0 → w₀.SpentElsewhere P txs ⟨c.getHash P, 0⟩ →
    ∀ i, w.Spent ⟨c.getHash P, i⟩ → w₀.SpentElsewhere P txs ⟨c.getHash P, i⟩
  first : w.Spent ⟨c.getHash P, 0⟩ →
    (w₀.Owns c 0 ∧ w₀.SpentElsewhere P txs ⟨c.getHash P, 0⟩) ∨
      ∀ i, w₀.Owns c i → RecordedSpent P index c i → w.Spent ⟨c.getHash P, i⟩

/-- A coinbase of the chain that a scan takes into the wallet. -/
structure CWallet.TakesIn (P : Params) (txs : List CTransaction) (w₀ : CWallet) (c : CTransaction) :
    Prop where
  mem : c ∈ txs
  isCoinBase : c.isCoinBase = true
  new : c.getHash P ∉ w₀.mapWallet
  involves : w₀.involves c = true

/-- **What a wallet is after a scan**, compared with the one that the loop started with. -/
structure CWallet.Rescanned (P : Params) (index : TxIndexMap) (txs : List CTransaction)
    (w₀ w : CWallet) : Prop where
  isMine : w.isMine = w₀.isMine
  minimum : w.nMinimumInputValue = w₀.nMinimumInputValue
  kept : ∀ hash tx, w₀.tx? hash = some tx → w.tx? hash = some tx
  new : ∀ hash tx, w₀.tx? hash = none → w.tx? hash = some tx → tx ∈ txs ∧ tx.getHash P = hash ∧
    (tx.isCoinBase = true → w₀.involves tx = true)
  elsewhere : ∀ o, w₀.HasOwn o → w₀.SpentElsewhere P txs o → w.Spent o
  spent : ∀ o, w₀.Spent o → w.Spent o
  passed : ∀ o, w₀.HasOwn o → w₀.PassMarks P index o → w.Spent o
  skipped : ∀ o tx, w₀.tx? o.hash = some tx → tx.isCoinBase = true → w₀.Spent ⟨o.hash, 0⟩ →
    w.Spent o → w₀.Spent o ∨ w₀.SpentElsewhere P txs o
  taken : ∀ c, w₀.TakesIn P txs c → w₀.Taken P index txs w c

namespace CWallet.Rescanned

variable {w₀ w₁ w₂ : CWallet}

theorem of_spentElsewhere (h : w₀.Rescanned P index txs w) (helse : w.SpentElsewhere P txs o) :
    w₀.SpentElsewhere P txs o :=
  helse.mono fun hash => notMem_of_kept (h.kept hash)

/-- **The first scan.** -/
theorem of_first (hord : ChainOrdered P txs) (hmarks : w₀.Marks w₁ (w₀.PassMarks P index))
    (hscanned : w₁.Scanned P txs n w₂) : w₀.Rescanned P index txs w₂ := by
  have hkept : ∀ hash tx, w₀.tx? hash = some tx → w₂.tx? hash = some tx := fun hash tx hlook =>
    hscanned.kept ((hmarks.tx hash).trans hlook)
  have hmem : ∀ hash, hash ∉ w₁.mapWallet ↔ hash ∉ w₀.mapWallet := fun hash => by
    rw [← tx?_eq_none, ← tx?_eq_none, hmarks.tx]
  have helse : ∀ o, w₁.SpentElsewhere P txs o ↔ w₀.SpentElsewhere P txs o := fun o =>
    ⟨.mono fun hash => (hmem hash).mp, .mono fun hash => (hmem hash).mpr⟩
  have hinvolves : ∀ tx, w₁.involves tx = w₀.involves tx := fun tx =>
    involves_congr hmarks.isMine hmarks.minimum fun txin _ => hmarks.tx _
  refine ⟨hscanned.isMine.trans hmarks.isMine, hscanned.minimum.trans hmarks.minimum, hkept,
    fun hash tx hnone hlook => ?_, fun o hown he => ?_, fun o hs => ?_, fun o hown hpass => ?_,
    fun o tx hlook hcb hfirst hs => ?_, fun c hc => ?_⟩
  · obtain ⟨hin, hhash, txs₁, n₁, w', hsub, hscanned₁, hinv⟩ :=
      hscanned.added ((hmarks.tx hash).trans hnone) hlook
    refine ⟨hin, hhash, fun hcb => ?_⟩
    have hzero := hscanned₁.tx?_zero fun tx htx => hord.ne_null tx (hsub htx)
    rw [← hinvolves, ← involves_of_isCoinBase hscanned₁.isMine hscanned₁.minimum hzero hcb]
    exact hinv
  · exact hscanned.spent_of_elsewhere hord.agree (hmarks.hasOwn.mpr hown) ((helse o).mpr he)
  · exact hscanned.spent ((hmarks.spent o).mpr (.inl hs))
  · exact hscanned.spent ((hmarks.spent o).mpr (.inr ⟨hown, hpass⟩))
  · rcases hscanned.spent_imp hs with hs | ⟨-, he⟩
    · -- the coinbase is skipped
      refine .inl (((hmarks.spent o).mp hs).resolve_right ?_)
      rintro ⟨-, tx', hlook', -, hno⟩
      obtain rfl := Option.some.inj (hlook.symm.trans hlook')
      exact hno ⟨hcb, hfirst⟩
    · exact .inr ((helse o).mp he)
  · obtain ⟨hlook, htaken⟩ := hscanned.takes_in hord hc.mem hc.isCoinBase ((hmem _).mpr hc.new)
      ((hinvolves c).trans hc.involves)
    -- the wallet had no mark of the coinbase
    have hunspent : ∀ i, ¬w₁.Spent ⟨c.getHash P, i⟩ := by
      rintro i ⟨wtx, hwtx, -⟩
      rw [Finmap.lookup_eq_none.mpr ((hmem _).mpr hc.new)] at hwtx
      cases hwtx
    have honly : ∀ i, w₂.Spent ⟨c.getHash P, i⟩ → w₂.HasOwn ⟨c.getHash P, i⟩ ∧
        w₀.SpentElsewhere P txs ⟨c.getHash P, i⟩ := fun i hs =>
      ((hscanned.spent_imp hs).resolve_left (hunspent i)).imp_right (helse _).mp
    refine ⟨hlook, fun i howns he => htaken i ((owns_congr hmarks.isMine).mpr howns) ((helse _).mpr he),
      fun _ _ i hs => (honly i hs).2, fun hs => .inl ⟨?_, (honly 0 hs).2⟩⟩
    obtain ⟨tx, htx, howns⟩ := (honly 0 hs).1
    obtain rfl := Option.some.inj (hlook.symm.trans htx)
    exact (owns_congr (hscanned.isMine.trans hmarks.isMine)).mp howns

/-- **Going through the wallet again.** -/
theorem pass (h : w₀.Rescanned P index txs w) (hmarks : w.Marks w₁ (w.PassMarks P index)) :
    w₀.Rescanned P index txs w₁ := by
  have hmore : ∀ o, w.Spent o → w₁.Spent o := fun o hs => (hmarks.spent o).mpr (.inl hs)
  -- nothing more of a skipped coinbase is marked
  have hskip : ∀ o tx, w.tx? o.hash = some tx → tx.isCoinBase = true → w.Spent ⟨o.hash, 0⟩ →
      w₁.Spent o → w.Spent o := by
    intro o tx hlook hcb hfirst hs
    refine ((hmarks.spent o).mp hs).resolve_right ?_
    rintro ⟨-, tx', hlook', -, hno⟩
    obtain rfl := Option.some.inj (hlook.symm.trans hlook')
    exact hno ⟨hcb, hfirst⟩
  refine ⟨hmarks.isMine.trans h.isMine, hmarks.minimum.trans h.minimum,
    fun hash tx hlook => (hmarks.tx hash).trans (h.kept hash tx hlook),
    fun hash tx hnone hlook => h.new hash tx hnone ((hmarks.tx hash).symm.trans hlook),
    fun o hown he => hmore o (h.elsewhere o hown he), fun o hs => hmore o (h.spent o hs),
    fun o hown hpass => hmore o (h.passed o hown hpass), fun o tx hlook hcb hfirst hs => ?_,
    fun c hc => ?_⟩
  · exact h.skipped o tx hlook hcb hfirst
      (hskip o tx (h.kept _ _ hlook) hcb (h.spent _ hfirst) hs)
  · have T := h.taken c hc
    refine ⟨(hmarks.tx _).trans T.look, fun i howns he => hmore _ (T.elsewhere i howns he),
      fun howns he i hs => ?_, fun hs => ?_⟩
    · exact T.only howns he i (hskip ⟨_, i⟩ c T.look hc.isCoinBase (T.elsewhere 0 howns he) hs)
    · by_cases hfirst : w.Spent ⟨c.getHash P, 0⟩
      · exact (T.first hfirst).imp_right fun hall i howns hrec => hmore _ (hall i howns hrec)
      · -- the coinbase is not skipped, and every mark it lacks is set
        refine .inr fun i howns hrec => (hmarks.spent _).mpr (.inr ⟨?_, ?_⟩)
        · exact ⟨c, T.look, (owns_congr h.isMine).mpr howns⟩
        · exact ⟨c, T.look, hrec, fun hno => hfirst hno.2⟩

/-- **Another scan.** -/
theorem scan (h : w₀.Rescanned P index txs w) (hord : ChainOrdered P txs)
    (hscanned : w.Scanned P txs n w₁) : w₀.Rescanned P index txs w₁ := by
  refine ⟨hscanned.isMine.trans h.isMine, hscanned.minimum.trans h.minimum,
    fun hash tx hlook => hscanned.kept (h.kept hash tx hlook), fun hash tx hnone hlook => ?_,
    fun o hown he => hscanned.spent (h.elsewhere o hown he),
    fun o hs => hscanned.spent (h.spent o hs),
    fun o hown hpass => hscanned.spent (h.passed o hown hpass),
    fun o tx hlook hcb hfirst hs => ?_, fun c hc => ?_⟩
  · cases hlook₁ : w.tx? hash with
    | some tx₁ =>
      obtain rfl := Option.some.inj ((hscanned.kept hlook₁).symm.trans hlook)
      exact h.new hash tx₁ hnone hlook₁
    | none =>
      obtain ⟨hin, hhash, txs₁, n₁, w', hsub, hscanned₁, hinv⟩ := hscanned.added hlook₁ hlook
      refine ⟨hin, hhash, fun hcb => ?_⟩
      have hzero : w'.tx? 0 = w₀.tx? 0 := by
        rw [hscanned₁.tx?_zero fun tx htx => hord.ne_null tx (hsub htx)]
        cases hz : w₀.tx? 0 with
        | some tx' => exact h.kept 0 tx' hz
        | none =>
          cases hz' : w.tx? 0 with
          | none => rfl
          | some tx' =>
            obtain ⟨hin', hhash', -⟩ := h.new 0 tx' hz hz'
            exact absurd hhash' (hord.ne_null tx' hin')
      rw [← involves_of_isCoinBase (hscanned₁.isMine.trans h.isMine)
        (hscanned₁.minimum.trans h.minimum) hzero hcb]
      exact hinv
  · exact (hscanned.spent_imp hs).elim (h.skipped o tx hlook hcb hfirst) fun he =>
      .inr (h.of_spentElsewhere he.2)
  · have T := h.taken c hc
    refine ⟨hscanned.kept T.look, fun i howns he => hscanned.spent (T.elsewhere i howns he),
      fun howns he i hs => ?_, fun hs => ?_⟩
    · exact (hscanned.spent_imp hs).elim (T.only howns he i) fun he' => h.of_spentElsewhere he'.2
    · rcases hscanned.spent_imp hs with hs | ⟨⟨tx, htx, howns⟩, he⟩
      · exact (T.first hs).imp_right fun hall i howns hrec => hscanned.spent (hall i howns hrec)
      · obtain rfl := Option.some.inj ((hscanned.kept T.look).symm.trans htx)
        exact .inl ⟨(owns_congr (hscanned.isMine.trans h.isMine)).mp howns, h.of_spentElsewhere he⟩

end CWallet.Rescanned

/-! ## The marks in the end -/

/-- A wallet has been gone through: an own output that the index records as spent is marked, or its
transaction was skipped. -/
def CWallet.GoneThrough (P : Params) (index : TxIndexMap) (w : CWallet) : Prop :=
  ∀ o tx, w.tx? o.hash = some tx → w.Owns tx o.n → RecordedSpent P index tx o.n →
    w.Spent o ∨ tx.isCoinBase = true ∧ w.Spent ⟨o.hash, 0⟩

/-- **When the loop marks all that the index records.** An own output of a skipped coinbase is marked
already, or the scan takes place and meets what spends it in a transaction that the wallet does not
have; and where the scan takes in a coinbase and meets what spends its first output, being the
wallet's own, it meets what spends its other own outputs. -/
structure CWallet.SkipsOnlyMarked (P : Params) (index : TxIndexMap) (txs : List CTransaction)
    (w : CWallet) : Prop where
  known : ∀ hash wtx, w.mapWallet.lookup hash = some wtx → wtx.Skipped → ∀ i, w.Owns wtx.tx i →
    RecordedSpent P index wtx.tx i → wtx.isSpent i = false →
      w.Misses P index ∧ w.SpentElsewhere P txs ⟨hash, i⟩
  new : w.Misses P index → ∀ c, w.TakesIn P txs c → w.Owns c 0 →
    w.SpentElsewhere P txs ⟨c.getHash P, 0⟩ → ∀ i, w.Owns c i → RecordedSpent P index c i →
      w.SpentElsewhere P txs ⟨c.getHash P, i⟩

/-- The marks by transactions and outpoints. -/
theorem CWallet.marksRecorded_iff : w.MarksRecorded P index ↔
    ∀ o tx, w.tx? o.hash = some tx → w.Owns tx o.n → RecordedSpent P index tx o.n → w.Spent o := by
  constructor
  · intro h o tx hlook howns hrec
    obtain ⟨wtx, hwtx, rfl⟩ := Option.map_eq_some_iff.mp hlook
    exact ⟨wtx, hwtx, howns.lt, h o.hash wtx hwtx o.n howns hrec⟩
  · intro h hash wtx hlook i howns hrec
    obtain ⟨wtx', hlook', -, hs⟩ := h ⟨hash, i⟩ wtx.tx (by rw [tx?, hlook]; rfl) howns hrec
    rw [hlook, Option.some.injEq] at hlook'
    rw [hlook']
    exact hs

/-- An own output of the wallet is marked, or it is not. -/
theorem CWallet.spent_iff {wtx : CWalletTx} {i : ℕ} (hlook : w.mapWallet.lookup hash = some wtx)
    (howns : w.Owns wtx.tx i) : w.Spent ⟨hash, i⟩ ↔ wtx.isSpent i = true := by
  unfold Spent
  simp [hlook, howns.lt]

theorem CWallet.goneThrough_of_marks (hmarks : w.Marks w' (w.PassMarks P index)) :
    w'.GoneThrough P index := by
  intro o tx hlook howns hrec
  rw [hmarks.tx] at hlook
  rw [owns_congr hmarks.isMine] at howns
  by_cases hskip : tx.isCoinBase = true ∧ w.Spent ⟨o.hash, 0⟩
  · exact .inr ⟨hskip.1, (hmarks.spent _).mpr (.inl hskip.2)⟩
  · exact .inl ((hmarks.spent o).mpr (.inr ⟨⟨tx, hlook, howns⟩, tx, hlook, hrec, hskip⟩))

theorem CWallet.GoneThrough.scan (h : w.GoneThrough P index) (hscanned : w.Scanned P txs 0 w') :
    w'.GoneThrough P index := by
  intro o tx hlook howns hrec
  rw [hscanned.tx?_eq_of_count rfl] at hlook
  rw [owns_congr hscanned.isMine] at howns
  exact (h o tx hlook howns hrec).imp hscanned.spent (And.imp_right hscanned.spent)

/-- **After a scan** the marks are complete exactly when the skipped coinbases did not need them. -/
theorem CWallet.Rescanned.marksRecorded_iff (h : w.Rescanned P index txs w')
    (hgone : w'.GoneThrough P index) (hmisses : w.Misses P index) :
    w'.MarksRecorded P index ↔ w.SkipsOnlyMarked P index txs := by
  rw [CWallet.marksRecorded_iff]
  constructor
  · intro hall
    refine ⟨fun hash wtx hlook hskip i howns hrec hunspent => ⟨hmisses, ?_⟩,
      fun _ c hc howns₀ helse₀ i howns hrec => ?_⟩
    · have htx : w.tx? hash = some wtx.tx := by rw [tx?, hlook]; rfl
      have hfirst := (skipped_iff hlook (by have := howns.lt; omega)).mp hskip
      have hs := hall ⟨hash, i⟩ wtx.tx (h.kept hash _ htx) ((owns_congr h.isMine).mpr howns) hrec
      refine (h.skipped ⟨hash, i⟩ wtx.tx htx hfirst.1 hfirst.2 hs).resolve_left fun hs => ?_
      rw [(spent_iff hlook howns).mp hs] at hunspent
      cases hunspent
    · have T := h.taken c hc
      exact T.only howns₀ helse₀ i (hall ⟨_, i⟩ c T.look ((owns_congr h.isMine).mpr howns) hrec)
  · rintro ⟨hknown, hnew⟩ o tx hlook howns hrec
    rw [owns_congr h.isMine] at howns
    refine (hgone o tx hlook ((owns_congr h.isMine).mpr howns) hrec).elim id fun ⟨hcb, hfirst⟩ => ?_
    cases hlook₀ : w.tx? o.hash with
    | some tx₀ =>
      -- a transaction of the wallet that the loop started with
      obtain rfl := Option.some.inj ((h.kept _ _ hlook₀).symm.trans hlook)
      have hown : w.HasOwn o := ⟨tx₀, hlook₀, howns⟩
      by_cases hskip : w.Spent ⟨o.hash, 0⟩
      · obtain ⟨wtx, hwtx, rfl⟩ := Option.map_eq_some_iff.mp hlook₀
        cases hspent : wtx.isSpent o.n with
        | true => exact h.spent o ((spent_iff hwtx howns).mpr hspent)
        | false =>
          have hskipped := (skipped_iff hwtx (by have := howns.lt; omega)).mpr ⟨hcb, hskip⟩
          exact h.elsewhere o hown (hknown o.hash wtx hwtx hskipped o.n howns hrec hspent).2
      · exact h.passed o hown ⟨tx₀, hlook₀, hrec, fun hno => hskip hno.2⟩
    | none =>
      -- a coinbase that a scan has taken in
      obtain ⟨hin, hhash, hinv⟩ := h.new _ tx hlook₀ hlook
      obtain ⟨hash, n⟩ := o
      obtain rfl : tx.getHash P = hash := hhash
      have hc : w.TakesIn P txs tx := ⟨hin, hcb, tx?_eq_none.mp hlook₀, hinv hcb⟩
      have T := h.taken tx hc
      rcases T.first hfirst with ⟨howns₀, helse₀⟩ | hall
      · exact T.elsewhere n howns (hnew hmisses tx hc howns₀ helse₀ n howns hrec)
      · exact hall n howns hrec

/-- **Without a scan** the marks are complete exactly when the skipped coinbases did not need
them. -/
theorem CWallet.Marks.marksRecorded_iff (hmarks : w.Marks w' (w.PassMarks P index))
    (hmisses : ¬w.Misses P index) : w'.MarksRecorded P index ↔ w.SkipsOnlyMarked P index txs := by
  rw [CWallet.marksRecorded_iff]
  constructor
  · intro hall
    refine ⟨fun hash wtx hlook hskip i howns hrec hunspent => ?_, fun h => absurd h hmisses⟩
    have htx : w.tx? hash = some wtx.tx := by rw [tx?, hlook]; rfl
    have hs := hall ⟨hash, i⟩ wtx.tx ((hmarks.tx _).trans htx) ((owns_congr hmarks.isMine).mpr howns)
      hrec
    rcases (hmarks.spent _).mp hs with hs | ⟨-, tx, htx', -, hno⟩
    · rw [(spent_iff hlook howns).mp hs] at hunspent
      cases hunspent
    · obtain rfl := Option.some.inj (htx.symm.trans htx')
      exact absurd ((skipped_iff hlook (by have := howns.lt; omega)).mp hskip) hno
  · rintro ⟨hknown, -⟩ o tx hlook howns hrec
    rw [hmarks.tx] at hlook
    rw [owns_congr hmarks.isMine] at howns
    obtain ⟨wtx, hwtx, rfl⟩ := Option.map_eq_some_iff.mp hlook
    refine (hmarks.spent o).mpr ?_
    by_cases hskip : wtx.tx.isCoinBase = true ∧ w.Spent ⟨o.hash, 0⟩
    · refine .inl ((spent_iff hwtx howns).mpr ?_)
      by_contra hunspent
      rw [Bool.not_eq_true] at hunspent
      exact hmisses (hknown o.hash wtx hwtx ((skipped_iff hwtx (by have := howns.lt; omega)).mpr hskip)
        o.n howns hrec hunspent).1
    · exact .inr ⟨⟨wtx.tx, hlook, howns⟩, wtx.tx, hlook, hrec, hskip⟩

end Rounds

/-! ## The chain that is scanned -/

section Chain

variable {chain : List (ChainBlock P)} {v : ScanView} {p : CBlockIndex}

/-- The transactions of a chain, those of the genesis block first. -/
def chainVtx (chain : List (ChainBlock P)) : List CTransaction :=
  chain.reverse.flatMap fun b => b.block.vtx

/-- **A node on a chain** of connected blocks, as a scan reads it. The transactions of the genesis
block are coinbases, and the hash function tells the transactions of the chain apart. -/
structure ScanView.OnChain (P : Params) (chain : List (ChainBlock P)) (v : ScanView) : Prop where
  connected : ConnectedChain P chain v.mapTxIndex
  genesis : ∀ b ∈ chain.getLast?, ∀ tx ∈ b.block.vtx, tx.isCoinBase = true
  agree : AgreeByHash P (chainVtx chain)
  ne_null : ∀ tx ∈ chainVtx chain, tx.getHash P ≠ 0
  stored : ∀ b ∈ chain, v.files.block? b.pindex.nFile b.pindex.nBlockPos = some b.block
  indexed : ∀ b ∈ chain, v.mapBlockIndex.lookup b.pindex.phashBlock = some b.pindex
  pnext : v.pnext = links (walk chain)
  pindexGenesisBlock : v.pindexGenesisBlock = (walk chain).getLast?

/-- A link leads from a block of a path to the block above it. -/
theorem lookup_links {above below : List CBlockIndex}
    (hdist : (above ++ p :: below).Pairwise fun p q => p.phashBlock ≠ q.phashBlock) :
    (links (above ++ p :: below)).lookup p.phashBlock =
      above.getLast?.map CBlockIndex.phashBlock := by
  induction above with
  | nil =>
    refine Finmap.lookup_eq_none.mpr fun hmem => ?_
    obtain ⟨q, hq, heq⟩ := mem_links.mp hmem
    exact (List.pairwise_cons.mp hdist).1 q hq heq.symm
  | cons q above ih =>
    rw [List.cons_append] at hdist ⊢
    have hrest := (List.pairwise_cons.mp hdist).2
    cases above with
    | nil => simp [links]
    | cons r above =>
      have hne : p.phashBlock ≠ r.phashBlock := by
        have := (List.pairwise_cons.mp hrest).1 p (by simp)
        exact Ne.symm this
      rw [List.cons_append, links, lookup_insert_eq_ite, if_neg hne]
      exact ih hrest

theorem ScanView.next_eq {above below : List CBlockIndex}
    (hdist : (above ++ p :: below).Pairwise fun p q => p.phashBlock ≠ q.phashBlock)
    (hpnext : v.pnext = links (above ++ p :: below))
    (hindexed : ∀ q ∈ above ++ p :: below, v.mapBlockIndex.lookup q.phashBlock = some q) :
    v.next p = above.getLast? := by
  rw [next, hpnext, lookup_links hdist]
  cases hlast : above.getLast? with
  | none => rfl
  | some q => exact hindexed q (List.mem_append_left _ (List.mem_of_getLast? hlast))

/-- **The walk along `pnext`** from a block of a path goes up to its tip. -/
theorem ScanView.visits_eq {above below : List CBlockIndex}
    (hdist : (above ++ p :: below).Pairwise fun p q => p.phashBlock ≠ q.phashBlock)
    (hpnext : v.pnext = links (above ++ p :: below))
    (hindexed : ∀ q ∈ above ++ p :: below, v.mapBlockIndex.lookup q.phashBlock = some q) (n : ℕ) :
    v.visits n (some p) = if above.length < n then some (p :: above.reverse) else none := by
  have hnext := next_eq hdist hpnext hindexed
  induction above using List.reverseRecOn generalizing p below n with
  | nil =>
    cases n with
    | zero => rfl
    | succ n =>
      rw [visits, hnext]
      cases n <;> rfl
  | append_singleton above q ih =>
    rw [List.append_assoc, List.singleton_append] at hdist hpnext hindexed
    cases n with
    | zero => rfl
    | succ n =>
      rw [visits, hnext, List.getLast?_concat,
        ih hdist hpnext hindexed n (next_eq hdist hpnext hindexed), List.length_append,
        List.length_singleton, List.reverse_append]
      split_ifs with h₁ h₂ h₂
      · rfl
      · omega
      · omega
      · rfl

/-- A scan visits the blocks of a chain from the genesis block up. -/
theorem ScanView.OnChain.visits (h : v.OnChain P chain) (n : ℕ) :
    v.visits n v.pindexGenesisBlock =
      if chain.length ≤ n then some (walk chain).reverse else none := by
  obtain ⟨above, b, hconcat⟩ := (List.eq_nil_or_concat chain).resolve_left h.connected.ne_nil
  rw [List.concat_eq_append] at hconcat
  subst hconcat
  have hwalk : walk (above ++ [b]) = walk above ++ [b.pindex] := List.map_append
  have hdist : (walk above ++ b.pindex :: []).Pairwise fun p q => p.phashBlock ≠ q.phashBlock := by
    rw [← hwalk, walk, List.pairwise_map]
    exact h.connected.hashes
  have hindexed : ∀ q ∈ walk above ++ b.pindex :: [],
      v.mapBlockIndex.lookup q.phashBlock = some q := by
    intro q hq
    rw [← hwalk] at hq
    obtain ⟨c, hc, rfl⟩ := List.mem_map.mp hq
    exact h.indexed c hc
  rw [h.pindexGenesisBlock, hwalk, List.getLast?_concat,
    ScanView.visits_eq hdist (by rw [h.pnext, hwalk]) hindexed, List.reverse_append,
    List.length_append, List.length_singleton, walk, List.length_map]
  split_ifs with h₁ h₂ h₂
  · rfl
  · omega
  · omega
  · rfl

/-- A scan reads the transactions of the chain. -/
theorem ScanView.OnChain.flatMap_vtx (h : v.OnChain P chain) :
    (walk chain).reverse.flatMap v.vtx = chainVtx chain := by
  rw [walk, ← List.map_reverse, List.flatMap_map, chainVtx]
  refine List.flatMap_congr fun b hb => ?_
  rw [ScanView.vtx, h.stored b (List.mem_reverse.mp hb)]
  rfl

theorem chainVtx_cons (b : ChainBlock P) : chainVtx (b :: chain) = chainVtx chain ++ b.block.vtx := by
  simp [chainVtx]

/-- The transactions of a chain are those of the genesis block and those after it. -/
theorem chainVtx_eq (hne : chain ≠ []) : ∃ b, chain.getLast? = some b ∧
    chainVtx chain = b.block.vtx ++ (chainTxs chain).map Prod.snd := by
  induction chain with
  | nil => exact absurd rfl hne
  | cons b chain ih =>
    cases chain with
    | nil => exact ⟨b, rfl, by simp [chainVtx, chainTxs]⟩
    | cons c chain =>
      obtain ⟨g, hlast, heq⟩ := ih (by simp)
      refine ⟨g, by rw [List.getLast?_cons_cons, hlast], ?_⟩
      rw [chainVtx_cons, heq, chainTxs, List.map_append, List.map_map, List.append_assoc]
      congr 2
      exact (List.map_id _).symm

/-- **The transactions of a chain are in order.** -/
theorem ScanView.OnChain.chainOrdered (h : v.OnChain P chain) : ChainOrdered P (chainVtx chain) := by
  refine ⟨h.agree, h.ne_null, fun before tx after hsplit o ho c hc hhash => ?_⟩
  have hcb : tx.isCoinBase = false := by
    cases hcb : tx.isCoinBase with
    | false => rfl
    | true => exact absurd (hhash.trans (CTransaction.hash_of_isCoinBase hcb ho)) (h.ne_null c hc)
  -- the transaction is one after the genesis block
  obtain ⟨g, hlast, heq⟩ := chainVtx_eq h.connected.ne_nil
  rw [heq] at hsplit
  have hgenesis : tx ∉ g.block.vtx := fun hmem => by
    rw [h.genesis g hlast tx hmem] at hcb
    cases hcb
  obtain ⟨l, rfl, hl⟩ : ∃ l, before = g.block.vtx ++ l ∧
      (chainTxs chain).map Prod.snd = l ++ tx :: after := by
    rcases List.append_eq_append_iff.mp hsplit with ⟨l, hbefore, hrest⟩ | ⟨l, hg, hrest⟩
    · exact ⟨l, hbefore, hrest⟩
    · cases l with
      | nil => exact ⟨[], by simpa using hg.symm, by simpa using hrest.symm⟩
      | cons tx' l =>
        obtain ⟨rfl, -⟩ := List.cons.inj hrest
        exact absurd (hg ▸ by simp) hgenesis
  obtain ⟨txs, rest, htxs, hl', hrest⟩ := List.map_eq_append_iff.mp hl
  obtain ⟨t, rest', rfl, rfl, -⟩ := List.map_eq_cons_iff.mp hrest
  -- what it spends is a coin of an earlier transaction
  have hall := h.connected.spendsMatureAll
  rw [htxs, spendsMatureAll_append] at hall
  have hspent : o ∈ t.2.spent := by rw [CTransaction.spent, if_neg (by simp [hcb])]; exact ho
  obtain ⟨coin, hcoin, -⟩ := hall.2.1.mature o hspent
  obtain ⟨u, hu, hkey, -⟩ := exists_creates_of_postAll hcoin
  obtain ⟨t', ht', rfl⟩ := List.mem_map.mp hu
  have hearlier : t'.2 ∈ l := hl' ▸ List.mem_map_of_mem ht'
  have hsame : t'.2 = c := by
    refine h.agree _ ?_ c hc (hkey.trans hhash.symm)
    rw [heq, hl]
    exact List.mem_append_right _ (List.mem_append_left _ hearlier)
  exact List.mem_append_right _ (hsame ▸ hearlier)

/-! ## The call -/

section Call

variable {nAdjustedTime : ℕ → ℤ} {k n : ℕ} {txs : List CTransaction} {index : TxIndexMap}

/-- A round that repeats starts from the wallet of the call or from one after a scan, and ends in
one. -/
theorem CWallet.rescanned_of_reached {walk : List CBlockIndex}
    (hord : ChainOrdered P (walk.flatMap v.vtx))
    (hreached : Reached (CWallet.reacceptRound P v nAdjustedTime walk) w k w') :
    w' = w ∨ w.Misses P v.mapTxIndex ∧
      w.Rescanned P v.mapTxIndex (walk.flatMap v.vtx) w' := by
  induction hreached with
  | first => exact .inl rfl
  | again _ hround ih =>
    rcases reacceptRound_cases hround with h | ⟨w₁, hmarks, ⟨-, h⟩ | ⟨hmisses, n, w₂, hscanned, h⟩⟩
    · cases h
    · cases h
    · split_ifs at h with hn
      obtain rfl := Repeat.Round.again.inj h
      rcases ih with rfl | ⟨hfirst, hrescanned⟩
      · exact .inr ⟨hmisses, .of_first hord hmarks hscanned⟩
      · exact .inr ⟨hfirst, (hrescanned.pass hmarks).scan hord hscanned⟩

/-- **`ReacceptWalletTransactions` ends on every chain, and what it returns has every own output
marked that the index records as spent exactly when the coinbases it skips did not need it.** -/
theorem CWallet.reaccept_marksRecorded_iff (h : v.OnChain P chain) (nAdjustedTime : ℕ → ℤ)
    (w : CWallet) :
    (∃ n, (w.reacceptWalletTransactions P v nAdjustedTime n).isSome = true) ∧
      ∀ n w', w.reacceptWalletTransactions P v nAdjustedTime n = some (some w') →
        (w'.MarksRecorded P v.mapTxIndex ↔
          w.SkipsOnlyMarked P v.mapTxIndex (chainVtx chain)) := by
  have hord := h.chainOrdered
  rw [← h.flatMap_vtx] at hord ⊢
  constructor
  · -- a round that repeats has taken in some of the finitely many transactions of the chain
    refine ⟨chain.length + (w.missingTxs P ((walk chain).reverse.flatMap v.vtx)).card + 1, ?_⟩
    rw [reacceptWalletTransactions, h.visits, if_pos (by omega), Option.bind_some]
    exact loop_isSome (fun w => (w.missingTxs P ((walk chain).reverse.flatMap v.vtx)).card)
      (fun _ _ _ => card_missingTxs_lt) (by omega)
  · intro n w' hresult
    rw [reacceptWalletTransactions, h.visits] at hresult
    split_ifs at hresult with hlen
    swap
    · cases hresult
    obtain ⟨k, w₁, hreached, hdone⟩ := exists_last_round .first hresult
    rcases reacceptRound_cases hdone with h | ⟨w₂, hmarks, ⟨hmisses, h⟩ | ⟨hmisses, n, w₃, hscanned, h⟩⟩
    · cases h
    · obtain rfl := Repeat.Round.done.inj h
      rcases rescanned_of_reached hord hreached with rfl | ⟨hfirst, hrescanned⟩
      · exact hmarks.marksRecorded_iff hmisses
      · exact (hrescanned.pass hmarks).marksRecorded_iff (goneThrough_of_marks hmarks) hfirst
    · split_ifs at h with hn
      obtain rfl := Repeat.Round.done.inj h
      obtain rfl := not_not.mp hn
      have hgone := (goneThrough_of_marks hmarks).scan hscanned
      rcases rescanned_of_reached hord hreached with rfl | ⟨hfirst, hrescanned⟩
      · exact (Rescanned.of_first hord hmarks hscanned).marksRecorded_iff hgone hmisses
      · exact ((hrescanned.pass hmarks).scan hord hscanned).marksRecorded_iff hgone hfirst

end Call

end Chain

/-! ## A coinbase with two outputs -/

/-- A node on the chain that spends both outputs of a coinbase. -/
def spendingScan (index : TxIndexMap) : ScanView where
  mapTxIndex := index
  mapBlockIndex := spendingChain.foldr (fun b m => m.insert b.pindex.phashBlock b.pindex) ∅
  pnext := links (walk spendingChain)
  pindexGenesisBlock := (walk spendingChain).getLast?
  files := spendingChainView.files

theorem onChain_spendingScan {index : TxIndexMap}
    (h : ConnectedChain exampleParams spendingChain index) :
    (spendingScan index).OnChain exampleParams spendingChain where
  connected := h
  genesis := by
    show ∀ b ∈ spendingChain.getLast?, ∀ tx ∈ b.block.vtx, tx.isCoinBase = true
    decide +kernel
  agree := by
    show ∀ tx ∈ chainVtx spendingChain, ∀ tx' ∈ chainVtx spendingChain, _
    decide +kernel
  ne_null := by
    show ∀ tx ∈ chainVtx spendingChain, _
    decide +kernel
  stored := by
    show ∀ b ∈ spendingChain, spendingChainView.files.block? _ _ = _
    decide +kernel
  indexed := by
    show ∀ b ∈ spendingChain, Finmap.lookup _ (spendingChain.foldr _ _) = _
    decide +kernel
  pnext := rfl
  pindexGenesisBlock := rfl

/-- The loop on a node of the chain. -/
theorem reaccept_marksRecorded_iff_spendingScan : ∃ v : ScanView, v.OnChain exampleParams spendingChain ∧
    ∀ w : CWallet, (∃ n, (w.reacceptWalletTransactions exampleParams v (fun _ => 1400009000) n).isSome =
      true) ∧ ∀ n w', w.reacceptWalletTransactions exampleParams v (fun _ => 1400009000) n =
        some (some w') → (w'.MarksRecorded exampleParams v.mapTxIndex ↔
          w.SkipsOnlyMarked exampleParams v.mapTxIndex (chainVtx spendingChain)) := by
  obtain ⟨index, h⟩ := exists_connectedChain_spendingChain
  exact ⟨spendingScan index, onChain_spendingScan h, fun w =>
    CWallet.reaccept_marksRecorded_iff (onChain_spendingScan h) _ w⟩

/-- A coinbase of the chain in a wallet from a backup: the first of its outputs is marked. -/
def restoredCoinbase : CWalletTx :=
  { CWalletTx.ofTx (exampleCoinbase 2 [50, 60]) with vfSpent := [true, false] }

/-- The wallet that was restored: both outputs are its own. -/
def restoredWallet : CWallet :=
  ⟨(∅ : StdMap Uint256 CWalletTx).insert (exampleHash 2) restoredCoinbase, fun _ => true, 0⟩

/-- The chain of the example is connected, and its index records both outputs as spent. -/
theorem exists_index_spendingChain : ∃ index, ConnectedChain exampleParams spendingChain index ∧
    ∃ txindex, index.lookup (exampleHash 2) = some txindex ∧ txindex.vSpent.length = 2 ∧
      (txindex.vSpent.getD 1 CDiskTxPos.setNull).isNull = false := by
  have hsome : ((replay spendingChainView Io.reliable spendingChain).any fun index =>
      (index.lookup (exampleHash 2)).any fun txindex => decide (txindex.vSpent.length = 2 ∧
        (txindex.vSpent.getD 1 CDiskTxPos.setNull).isNull = false)) = true := by
    decide +kernel
  cases hreplay : replay spendingChainView Io.reliable spendingChain with
  | none =>
    rw [hreplay] at hsome
    cases hsome
  | some index =>
    rw [hreplay, Option.any_some] at hsome
    cases hlook : index.lookup (exampleHash 2) with
    | none =>
      rw [hlook] at hsome
      cases hsome
    | some txindex =>
      rw [hlook, Option.any_some, decide_eq_true_iff] at hsome
      exact ⟨index, connectedChain_of_replay hreplay, txindex, hlook, hsome⟩

theorem restoredWallet_inOrder : restoredWallet.inOrder = [(exampleHash 2, restoredCoinbase)] := by
  have hkeys : restoredWallet.mapWallet.keys.sort (· ≤ ·) = [exampleHash 2] :=
    Finset.sort_singleton _ _
  rw [CWallet.inOrder, hkeys]
  rfl

/-- **The second output stays unmarked**: the coinbase is skipped because its first output is
marked, and no other mark is missing. -/
theorem not_forall_reaccept_marksRecorded :
    ¬∀ (P : Params) (chain : List (ChainBlock P)) (v : ScanView), v.OnChain P chain →
      ∀ (nAdjustedTime : ℕ → ℤ) (w : CWallet),
        (∃ n, (w.reacceptWalletTransactions P v nAdjustedTime n).isSome = true) ∧
          ∀ n w', w.reacceptWalletTransactions P v nAdjustedTime n = some (some w') →
            w'.MarksRecorded P v.mapTxIndex := by
  intro hall
  obtain ⟨index, hchain, txindex, hlook, hlen, hspent⟩ := exists_index_spendingChain
  have hview := onChain_spendingScan hchain
  obtain ⟨-, hmarks⟩ := hall exampleParams spendingChain (spendingScan index) hview
    (fun _ => 1400009000) restoredWallet
  have hpass : restoredWallet.reacceptAll exampleParams index = some (restoredWallet, []) := by
    rw [CWallet.reacceptAll, restoredWallet_inOrder]
    rfl
  have hround : restoredWallet.reacceptRound exampleParams (spendingScan index)
      (fun _ => 1400009000) (walk spendingChain).reverse 0 = .done restoredWallet := by
    rw [CWallet.reacceptRound, show (spendingScan index).mapTxIndex = index from rfl, hpass]
    rfl
  have hresult : restoredWallet.reacceptWalletTransactions exampleParams (spendingScan index)
      (fun _ => 1400009000) 17 = some (some restoredWallet) := by
    rw [CWallet.reacceptWalletTransactions, hview.visits, if_pos (by decide +kernel),
      Option.bind_some, loop, hround]
  have hspent' := hmarks 17 restoredWallet hresult (exampleHash 2) restoredCoinbase rfl 1
    ⟨⟨60, []⟩, rfl, rfl⟩ ⟨txindex, hlook, hlen, hspent⟩
  cases hspent'

end FoxCoin
