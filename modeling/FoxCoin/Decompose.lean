import FoxCoin.Accounts
import FoxCoin.AddressTable

/-! # The amounts shown to the user

`TransactionRecord::decomposeTransaction` shows a wallet transaction as a list of records, each with
a credit and a debit. Amounts are exact, and in range. -/

namespace FoxCoin

open Overlay

/-! ## The code -/

/-- `TransactionRecord::Type`. -/
inductive RecordType where
  | other
  | generated
  | sendToAddress
  | sendToOther
  | recvWithAddress
  | recvFromOther
  | sendToSelf
  deriving DecidableEq

/-- `TransactionRecord`, without its status. -/
structure TransactionRecord where
  hash : Uint256
  time : ℤ
  type : RecordType
  address : QString
  debit : ℤ
  credit : ℤ
  idx : ℕ
  deriving DecidableEq

/-- What the records take from a wallet transaction besides what the balances read. -/
structure ShownInfo where
  mapValue : StdMap QString QString
  fChangeCached : Bool
  nChangeCached : ℤ

/-- `mapValue[key]`. -/
def ShownInfo.value (info : ShownInfo) (key : String) : QString :=
  (info.mapValue.lookup key.toList).getD []

/-- `CFoxcoinAddress(address).ToString()` for a destination. -/
def CTxDestination.toText (Hash : Valtype → Valtype) (fTestNet : Bool) : CTxDestination → QString
  | .noDestination => encodeBase58Check Hash [0]
  | .keyID id => encodeBase58Check Hash (addressVersion fTestNet false :: id)
  | .scriptID id => encodeBase58Check Hash (addressVersion fTestNet true :: id)

/-- `CWallet::IsMine(txin)`. -/
def CWallet.isMineIn (wallet : CWallet) (txin : CTxIn) : Bool :=
  match wallet.mapWallet.lookup txin.prevout.hash with
  | none => false
  | some prev =>
    match prev.tx.vout[txin.prevout.n]? with
    | none => false
    | some txout => wallet.isMine txout.scriptPubKey

namespace AccountView

variable {P : Params} (v : AccountView P) (Hash : Valtype → Valtype) (info : ShownInfo)
  (hash : Uint256) (wtx : CWalletTx)

/-- `CWalletTx::GetChange`. -/
def getChange : ℤ :=
  if info.fChangeCached then info.nChangeCached
  else (wtx.tx.vout.map fun txout => if v.isChange txout then txout.nValue else 0).sum

/-- The record of an own output of a transaction that pays the wallet. -/
def creditRecord (txout : CTxOut) (idx : ℕ) : TransactionRecord :=
  let (type, address) :=
    if wtx.tx.isCoinBase then (RecordType.generated, [])
    else
      match extractDestination v.getID txout.scriptPubKey with
      | some address =>
        if v.isMineDestination address then
          (.recvWithAddress, address.toText Hash P.fTestNet)
        else (.recvFromOther, info.value "from")
      | none => (.recvFromOther, info.value "from")
  ⟨hash, wtx.nTimeReceived, type, address, 0, txout.nValue, idx⟩

/-- The loop over the outputs of a transaction that pays the wallet. -/
def creditLoop (parts : List TransactionRecord) : List CTxOut → List TransactionRecord
  | [] => parts
  | txout :: vout =>
    if v.wallet.isMine txout.scriptPubKey then
      creditLoop (parts ++ [v.creditRecord Hash info hash wtx txout parts.length]) vout
    else creditLoop parts vout

/-- The record of a foreign output of a transaction that the wallet pays. -/
def debitRecord (txout : CTxOut) (nValue : ℤ) (idx : ℕ) : TransactionRecord :=
  let (type, address) :=
    match extractDestination v.getID txout.scriptPubKey with
    | some address => (RecordType.sendToAddress, address.toText Hash P.fTestNet)
    | none => (.sendToOther, info.value "to")
  ⟨hash, wtx.nTimeReceived, type, address, -nValue, 0, idx⟩

/-- The loop over the outputs of a transaction that the wallet pays. -/
def debitLoop (nTxFee : ℤ) (parts : List TransactionRecord) : List CTxOut → List TransactionRecord
  | [] => parts
  | txout :: vout =>
    if v.wallet.isMine txout.scriptPubKey then debitLoop nTxFee parts vout
    -- the whole fee is shown with the first foreign output
    else if nTxFee > 0 then
      debitLoop 0
        (parts ++ [v.debitRecord Hash info hash wtx txout (txout.nValue + nTxFee) parts.length]) vout
    else
      debitLoop nTxFee
        (parts ++ [v.debitRecord Hash info hash wtx txout txout.nValue parts.length]) vout

/-- `fAllFromMe`. -/
def fAllFromMe : Bool := wtx.tx.vin.all v.wallet.isMineIn

/-- `fAllToMe`. -/
def fAllToMe : Bool := wtx.tx.vout.all fun txout => v.wallet.isMine txout.scriptPubKey

/-- `TransactionRecord::decomposeTransaction`. -/
def decomposeTransaction : List TransactionRecord :=
  let nTime := wtx.nTimeReceived
  let nCredit := v.getCredit hash wtx
  let nDebit := v.getDebit hash wtx
  let nNet := nCredit - nDebit
  if nNet > 0 ∨ wtx.tx.isCoinBase = true then v.creditLoop Hash info hash wtx [] wtx.tx.vout
  else if v.fAllFromMe wtx && v.fAllToMe wtx then
    let nChange := v.getChange info wtx
    [⟨hash, nTime, .sendToSelf, [], -(nDebit - nChange), nCredit - nChange, 0⟩]
  else if v.fAllFromMe wtx then
    v.debitLoop Hash info hash wtx (nDebit - wtx.tx.valueOut) [] wtx.tx.vout
  else [⟨hash, nTime, .other, [], nNet, 0, 0⟩]

/-! ## What the records show -/

/-- The sum of the credits and debits of the records. -/
def shown (parts : List TransactionRecord) : ℤ := (parts.map fun part => part.credit + part.debit).sum

/-- The value of the foreign outputs. -/
def foreignOut : ℤ :=
  (wtx.tx.vout.map fun txout => if v.wallet.isMine txout.scriptPubKey then 0 else txout.nValue).sum

/-- **The records add up to the net change**: where the net change is positive, there is no debit in
it; where the wallet pays all of a transaction with a foreign output, no more is paid out than in. The
two amounts are those of the caches. -/
structure AddsUp : Prop where
  credit : v.getDebit hash wtx < v.getCredit hash wtx →
    v.getCreditTx wtx.tx = v.getCredit hash wtx - v.getDebit hash wtx
  fee : v.getCredit hash wtx ≤ v.getDebit hash wtx → v.fAllFromMe wtx = true →
    v.fAllToMe wtx = false → wtx.tx.valueOut ≤ v.getDebit hash wtx →
      v.getCreditTx wtx.tx = v.getCredit hash wtx
  noFee : v.getCredit hash wtx ≤ v.getDebit hash wtx → v.fAllFromMe wtx = true →
    v.fAllToMe wtx = false → v.getDebit hash wtx < wtx.tx.valueOut →
      v.foreignOut wtx = v.getDebit hash wtx - v.getCredit hash wtx

variable {v Hash info hash wtx} {parts : List TransactionRecord}

@[simp] theorem shown_nil : shown [] = 0 := rfl

@[simp] theorem shown_append (parts' : List TransactionRecord) :
    shown (parts ++ parts') = shown parts + shown parts' := by
  rw [shown, List.map_append, List.sum_append, shown, shown]

@[simp] theorem shown_singleton (part : TransactionRecord) :
    shown [part] = part.credit + part.debit := by
  rw [shown, List.map_singleton, List.sum_singleton]

/-- The loop shows the own outputs. -/
theorem shown_creditLoop (vout : List CTxOut) :
    shown (v.creditLoop Hash info hash wtx parts vout) = shown parts +
      (vout.map fun txout => if v.wallet.isMine txout.scriptPubKey then txout.nValue else 0).sum := by
  induction vout generalizing parts with
  | nil => simp [creditLoop]
  | cons txout vout ih =>
    rw [creditLoop, List.map_cons, List.sum_cons]
    by_cases hmine : v.wallet.isMine txout.scriptPubKey = true
    · rw [if_pos hmine, if_pos hmine, ih, shown_append, shown_singleton]
      simp only [creditRecord]
      ring
    · rw [if_neg hmine, if_neg hmine, ih, zero_add]

/-- The loop shows the foreign outputs, and the fee with the first of them. -/
theorem shown_debitLoop (nTxFee : ℤ) (vout : List CTxOut) :
    shown (v.debitLoop Hash info hash wtx nTxFee parts vout) = shown parts -
      (vout.map fun txout => if v.wallet.isMine txout.scriptPubKey then 0 else txout.nValue).sum -
      if vout.all (fun txout => v.wallet.isMine txout.scriptPubKey) then 0 else max nTxFee 0 := by
  induction vout generalizing nTxFee parts with
  | nil => simp [debitLoop]
  | cons txout vout ih =>
    rw [debitLoop, List.map_cons, List.sum_cons, List.all_cons]
    by_cases hmine : v.wallet.isMine txout.scriptPubKey = true
    · rw [if_pos hmine, if_pos hmine, ih, hmine, Bool.true_and, zero_add]
    · rw [if_neg hmine, if_neg hmine, Bool.eq_false_iff.mpr hmine, Bool.false_and,
        if_neg Bool.false_ne_true]
      by_cases hfee : nTxFee > 0
      · -- the outputs behind this one are shown without a fee
        rw [if_pos hfee, ih, shown_append, shown_singleton, max_eq_left hfee.le, max_self, ite_self]
        simp only [debitRecord]
        ring
      · have hmax : max nTxFee 0 = 0 := max_eq_right (not_lt.mp hfee)
        rw [if_neg hfee, ih, shown_append, shown_singleton, hmax, ite_self]
        simp only [debitRecord]
        ring

/-- The outputs are the own ones and the foreign ones. -/
theorem valueOut_eq (v : AccountView P) (wtx : CWalletTx) :
    wtx.tx.valueOut = v.getCreditTx wtx.tx + v.foreignOut wtx := by
  rw [CTransaction.valueOut, getCreditTx, foreignOut, ← List.sum_map_add]
  congr 1
  refine List.map_congr_left fun txout _ => ?_
  split_ifs <;> ring

/-- What the records of a payment show. -/
theorem shown_decomposeTransaction (hcoin : wtx.tx.isCoinBase = false) :
    shown (v.decomposeTransaction Hash info hash wtx) =
      if v.getDebit hash wtx < v.getCredit hash wtx then v.getCreditTx wtx.tx
      else if v.fAllFromMe wtx = true ∧ v.fAllToMe wtx = false then
        -v.foreignOut wtx - max (v.getDebit hash wtx - wtx.tx.valueOut) 0
      else v.getCredit hash wtx - v.getDebit hash wtx := by
  rw [decomposeTransaction]
  simp only [hcoin, Bool.false_eq_true, or_false, gt_iff_lt, sub_pos]
  by_cases hnet : v.getDebit hash wtx < v.getCredit hash wtx
  · rw [if_pos hnet, if_pos hnet, shown_creditLoop, shown_nil, zero_add, getCreditTx]
  · rw [if_neg hnet, if_neg hnet]
    cases hfrom : v.fAllFromMe wtx with
    | false => simp
    | true =>
      cases hto : v.fAllToMe wtx with
      | true => simp
      | false =>
        rw [fAllToMe] at hto
        rw [if_neg (by decide), if_pos rfl, if_pos ⟨rfl, rfl⟩, shown_debitLoop, shown_nil, hto,
          if_neg Bool.false_ne_true, zero_sub, foreignOut]

/-- The records of a payment add up to the net change exactly under the condition. -/
theorem shown_eq_net_iff (hcoin : wtx.tx.isCoinBase = false) :
    shown (v.decomposeTransaction Hash info hash wtx) =
        v.getCredit hash wtx - v.getDebit hash wtx ↔ v.AddsUp hash wtx := by
  have hout := v.valueOut_eq wtx
  rw [shown_decomposeTransaction hcoin]
  by_cases hnet : v.getDebit hash wtx < v.getCredit hash wtx
  · rw [if_pos hnet]
    exact ⟨fun h => ⟨fun _ => h, fun hle => absurd hnet (not_lt.mpr hle),
      fun hle => absurd hnet (not_lt.mpr hle)⟩, fun h => h.credit hnet⟩
  · rw [if_neg hnet]
    by_cases hcase : v.fAllFromMe wtx = true ∧ v.fAllToMe wtx = false
    · -- the foreign outputs and the fee are shown, but a fee below zero is not
      rw [if_pos hcase]
      by_cases hfee : wtx.tx.valueOut ≤ v.getDebit hash wtx
      · rw [max_eq_left (by omega)]
        refine ⟨fun h => ⟨fun hlt => absurd hlt hnet, fun _ _ _ _ => by omega,
          fun _ _ _ hlt => absurd hlt (not_lt.mpr hfee)⟩, fun h => ?_⟩
        have := h.fee (not_lt.mp hnet) hcase.1 hcase.2 hfee
        omega
      · rw [max_eq_right (by omega)]
        refine ⟨fun h => ⟨fun hlt => absurd hlt hnet, fun _ _ _ hle => absurd hle hfee,
          fun _ _ _ _ => by omega⟩, fun h => ?_⟩
        have := h.noFee (not_lt.mp hnet) hcase.1 hcase.2 (not_le.mp hfee)
        omega
    · -- the one record shows the net change itself
      rw [if_neg hcase]
      exact ⟨fun _ => ⟨fun hlt => absurd hlt hnet, fun _ hfrom hto => absurd ⟨hfrom, hto⟩ hcase,
        fun _ hfrom hto => absurd ⟨hfrom, hto⟩ hcase⟩, fun _ => rfl⟩

/-- The caches of the two amounts, where they are set, are right. -/
structure CachesRight (v : AccountView P) (hash : Uint256) (wtx : CWalletTx) : Prop where
  debit : (v.txInfo hash).fDebitCached = true → (v.txInfo hash).nDebitCached = v.getDebitTx wtx.tx
  credit : (v.txInfo hash).fCreditCached = true →
    (v.txInfo hash).nCreditCached = v.getCreditTx wtx.tx

theorem CachesRight.getDebit_eq (h : v.CachesRight hash wtx) :
    v.getDebit hash wtx = v.getDebitTx wtx.tx := by
  rw [getDebit]
  split_ifs with hempty hcached
  · rw [getDebitTx, List.isEmpty_iff.mp hempty]
    rfl
  · exact h.debit hcached
  · rfl

theorem CachesRight.getCredit_eq (h : v.CachesRight hash wtx) (hcoin : wtx.tx.isCoinBase = false) :
    v.getCredit hash wtx = v.getCreditTx wtx.tx := by
  rw [getCredit, hcoin, Bool.false_and, if_neg Bool.false_ne_true]
  split_ifs with hcached
  · exact h.credit hcached
  · rfl

/-- With right caches, the condition is that a transaction with a positive net change has no debit,
and that one the wallet pays all of pays no more out than in. -/
theorem CachesRight.addsUp_iff (h : v.CachesRight hash wtx) (hcoin : wtx.tx.isCoinBase = false) :
    v.AddsUp hash wtx ↔
      (v.getDebitTx wtx.tx < v.getCreditTx wtx.tx → v.getDebitTx wtx.tx = 0) ∧
      (v.getCreditTx wtx.tx ≤ v.getDebitTx wtx.tx → v.fAllFromMe wtx = true →
        v.fAllToMe wtx = false → wtx.tx.valueOut ≤ v.getDebitTx wtx.tx) := by
  have hdebit := h.getDebit_eq
  have hcredit := h.getCredit_eq hcoin
  have hout := v.valueOut_eq wtx
  constructor
  · intro hadds
    refine ⟨fun hlt => ?_, fun hle hfrom hto => ?_⟩
    · have := hadds.credit (by omega)
      omega
    · -- were more paid out than in, the foreign outputs alone would be the net change
      by_contra hfee
      have := hadds.noFee (by omega) hfrom hto (by omega)
      omega
  · rintro ⟨hcase, hfee⟩
    refine ⟨fun hlt => ?_, fun _ _ _ _ => hcredit.symm, fun hle hfrom hto hlt => ?_⟩
    · have := hcase (by omega)
      omega
    · have := hfee (by omega) hfrom hto
      omega

/-- **The amounts shown to the user add up to the net change exactly when** nothing is paid by the
wallet in a transaction with a positive net change, and no more is paid out than in where the wallet
pays it all; the amounts are those of the caches. -/
theorem shown_decomposeTransaction_eq_iff (v : AccountView P) (Hash : Valtype → Valtype)
    (info : ShownInfo) (hash : Uint256) (wtx : CWalletTx) (hcoin : wtx.tx.isCoinBase = false) :
    (shown (v.decomposeTransaction Hash info hash wtx) =
        v.getCredit hash wtx - v.getDebit hash wtx ↔ v.AddsUp hash wtx) ∧
    (v.CachesRight hash wtx →
      (shown (v.decomposeTransaction Hash info hash wtx) =
          v.getCredit hash wtx - v.getDebit hash wtx ↔
        (v.getDebitTx wtx.tx < v.getCreditTx wtx.tx → v.getDebitTx wtx.tx = 0) ∧
        (v.getCreditTx wtx.tx ≤ v.getDebitTx wtx.tx → v.fAllFromMe wtx = true →
          v.fAllToMe wtx = false → wtx.tx.valueOut ≤ v.getDebitTx wtx.tx))) :=
  ⟨shown_eq_net_iff hcoin, fun h => (shown_eq_net_iff hcoin).trans (h.addsUp_iff hcoin)⟩

/-! ## A transaction with inputs of two parties -/

/-- A wallet with all keys and a coinbase of 10. -/
def sharedView : AccountView exampleParams where
  __ := exampleView
  wallet := ⟨(∅ : StdMap Uint256 CWalletTx).insert 1 (CWalletTx.ofTx (exampleCoinbase 1 [10])),
    fun _ => true, 0⟩

/-- The 10 go back to the wallet, less one for the fee. -/
def returnedTx : CWalletTx :=
  CWalletTx.ofTx ⟨1, [⟨⟨1, 0⟩, [], uintMax⟩], [⟨9, []⟩], 0⟩

/-- Another party pays the wallet 40, and the 10 go back with them. -/
def sharedTx : CWalletTx :=
  CWalletTx.ofTx ⟨1, [⟨⟨1, 0⟩, [], uintMax⟩, ⟨⟨2, 0⟩, [], uintMax⟩], [⟨50, []⟩], 0⟩

theorem shown_decomposeTransaction_returnedTx :
    shown (sharedView.decomposeTransaction id ⟨∅, false, 0⟩ 3 returnedTx) =
      sharedView.getCredit 3 returnedTx - sharedView.getDebit 3 returnedTx :=
  ((shown_decomposeTransaction_eq_iff sharedView id ⟨∅, false, 0⟩ 3 returnedTx rfl).2
    ⟨by decide, by decide⟩).mpr ⟨by decide +kernel, by decide +kernel⟩

/-- The transaction of the two parties is shown as 50, and the wallet gains 40. -/
theorem not_forall_shown_eq_net :
    ¬∀ (v : AccountView exampleParams) (Hash : Valtype → Valtype) (info : ShownInfo) (hash : Uint256)
      (wtx : CWalletTx), wtx.tx.isCoinBase = false →
        shown (v.decomposeTransaction Hash info hash wtx) =
          v.getCredit hash wtx - v.getDebit hash wtx := by
  intro hall
  -- the own output is shown as income, and the own input that paid for a part of it is not
  have hnet := hall sharedView id ⟨∅, false, 0⟩ 3 sharedTx rfl
  rw [shown_decomposeTransaction rfl] at hnet
  exact absurd hnet (by decide +kernel)

end AccountView

end FoxCoin
