import FoxCoin.Accounts
import FoxCoin.Lib.Memo
import FoxCoin.Lib.Runs
import FoxCoin.WalletRollback

/-! # Cached amounts

A wallet transaction keeps its debit, its credit, its available credit and its change once they have
been asked for. The amounts depend on the transactions it spends, on the keys and the scripts of the
wallet, on the address book and on the spent marks. Most operations that change one of these leave
the cached amounts of other transactions alone. -/

namespace FoxCoin

open Memo Runs

/-! ## Ownership -/

/-- What decides whose an output is: the ids of the keys (plain or encrypted), the redeem scripts
and the address book. -/
structure Ownership where
  setKeys : Finset Valtype
  mapScripts : StdMap Valtype CScript
  mapAddressBook : StdMap CTxDestination String

namespace Ownership

/-- `IsMine` of a script, where `hash160` is `Hash160`. A script hash leads to the redeem script,
whose depth the number of scripts bounds as long as no hash leads back to itself. -/
def isMineScript (hash160 : Valtype → Valtype) (o : Ownership) : ℕ → CScript → Bool
  | 0, _ => false
  | nFuel + 1, scriptPubKey =>
    match solver scriptPubKey with
    | none => false
    | some (.txPubkey, vSolutions) => decide (hash160 (vSolutions.headD []) ∈ o.setKeys)
    | some (.txPubkeyhash, vSolutions) => decide (vSolutions.headD [] ∈ o.setKeys)
    | some (.txScripthash, vSolutions) =>
      match o.mapScripts.lookup (vSolutions.headD []) with
      | none => false
      | some subscript => isMineScript hash160 o nFuel subscript
    | some (.txMultisig, vSolutions) =>
      -- all the keys, not just enough of them
      vSolutions.tail.dropLast.all fun key => decide (hash160 key ∈ o.setKeys)

variable (hash160 : Valtype → Valtype) (o : Ownership)

/-- `CWallet::IsMine(txout)`. -/
def isMine (txout : CTxOut) : Bool :=
  o.isMineScript hash160 (o.mapScripts.keys.card + 1) txout.scriptPubKey

/-- `IsMine` of a destination. -/
def isMineDestination : CTxDestination → Bool
  | .noDestination => false
  | .keyID id => decide (id ∈ o.setKeys)
  | .scriptID id => decide (id ∈ o.mapScripts)

/-- `CWallet::IsChange`. -/
def isChange (txout : CTxOut) : Bool :=
  match extractDestination hash160 txout.scriptPubKey with
  | none => false
  | some address => o.isMineDestination address && decide (address ∉ o.mapAddressBook)

/-- `CWallet::GetCredit(txout)`. -/
def getCredit (txout : CTxOut) : ℤ := if o.isMine hash160 txout then txout.nValue else 0

/-- `CWallet::GetChange(txout)`. -/
def getChange (txout : CTxOut) : ℤ := if o.isChange hash160 txout then txout.nValue else 0

/-- `CCryptoKeyStore::AddKey`, as far as ownership depends on it. -/
def addKey (id : Valtype) : Ownership := { o with setKeys := insert id o.setKeys }

/-- `CBasicKeyStore::AddCScript`. -/
def addCScript (redeemScript : CScript) : Ownership :=
  { o with mapScripts := o.mapScripts.insert (hash160 redeemScript) redeemScript }

/-- `CWallet::SetAddressBookName`. -/
def setAddressBookName (address : CTxDestination) (strName : String) : Ownership :=
  { o with mapAddressBook := o.mapAddressBook.insert address strName }

end Ownership

/-! ## Wallets with cached amounts -/

/-- A wallet transaction with its cached amounts; `none` where the flag of the cache is not set. -/
structure CachedTx extends CWalletTx where
  nDebitCached : Option ℤ
  nCreditCached : Option ℤ
  nAvailableCreditCached : Option ℤ
  nChangeCached : Option ℤ

/-- `CWalletTx::MarkDirty`, which is what `BindWallet` does. -/
def CachedTx.markDirty (e : CachedTx) : CachedTx := ⟨e.toCWalletTx, none, none, none, none⟩

/-- `CWalletTx::MarkSpent`, which throws when there is no such output. -/
def CachedTx.markSpent (e : CachedTx) (nOut : ℕ) : CachedTx :=
  if e.tx.vout.length ≤ nOut then e
  else { e with
    toCWalletTx := e.toCWalletTx.markSpent nOut
    nAvailableCreditCached := if e.isSpent nOut then e.nAvailableCreditCached else none }

/-- The wallet, as far as the amounts depend on it. -/
structure CacheWallet extends Ownership where
  mapWallet : StdMap Uint256 CachedTx
  vchDefaultKey : Valtype
  nMinimumInputValue : ℤ

namespace CacheWallet

variable (hash160 : Valtype → Valtype) (w : CacheWallet)

/-- The output that an input claims, when its transaction is in the wallet. -/
def prevOut (txin : CTxIn) : Option CTxOut :=
  (w.mapWallet.lookup txin.prevout.hash).bind fun prev => prev.tx.vout[txin.prevout.n]?

/-- `CWallet::GetDebit(txin)`. -/
def getDebitIn (txin : CTxIn) : ℤ :=
  match w.prevOut txin with
  | none => 0
  | some txout => if w.isMine hash160 txout then txout.nValue else 0

/-- `CWallet::GetDebit(tx)`. -/
def getDebitTx (tx : CTransaction) : ℤ := (tx.vin.map (w.getDebitIn hash160)).sum

/-- `CWallet::GetCredit(tx)`. -/
def getCreditTx (tx : CTransaction) : ℤ := (tx.vout.map (w.getCredit hash160)).sum

/-- `CWallet::GetChange(tx)`. -/
def getChangeTx (tx : CTransaction) : ℤ := (tx.vout.map (w.getChange hash160)).sum

/-- The loop of `CWalletTx::GetAvailableCredit` from the output `i`. -/
def availableLoop (wtx : CWalletTx) : ℕ → List CTxOut → ℤ
  | _, [] => 0
  | i, txout :: vout =>
    (if wtx.isSpent i then 0 else w.getCredit hash160 txout) + availableLoop wtx (i + 1) vout

/-- The sum of `CWalletTx::GetAvailableCredit`. -/
def getAvailable (wtx : CWalletTx) : ℤ := w.availableLoop hash160 wtx 0 wtx.tx.vout

/-! ### The cached reads -/

/-- `CWalletTx::GetDebit`. -/
def getDebit (e : CachedTx) : ℤ × CachedTx :=
  if e.tx.vin.isEmpty then (0, e)
  else
    let (nDebit, memo) := ask e.nDebitCached (w.getDebitTx hash160 e.tx)
    (nDebit, { e with nDebitCached := memo })

/-- `CWalletTx::GetCredit`, where `fImmature` says that `GetBlocksToMaturity` is positive. -/
def getCreditCached (fImmature fUseCache : Bool) (e : CachedTx) : ℤ × CachedTx :=
  if e.tx.isCoinBase && fImmature then (0, e)
  else
    let (nCredit, memo) := ask (if fUseCache then e.nCreditCached else none)
      (w.getCreditTx hash160 e.tx)
    (nCredit, { e with nCreditCached := memo })

/-- `CWalletTx::GetAvailableCredit`. -/
def getAvailableCredit (fImmature fUseCache : Bool) (e : CachedTx) : ℤ × CachedTx :=
  if e.tx.isCoinBase && fImmature then (0, e)
  else
    let (nCredit, memo) := ask (if fUseCache then e.nAvailableCreditCached else none)
      (w.getAvailable hash160 e.toCWalletTx)
    (nCredit, { e with nAvailableCreditCached := memo })

/-- `CWalletTx::GetChange`. -/
def getChangeCached (e : CachedTx) : ℤ × CachedTx :=
  let (nChange, memo) := ask e.nChangeCached (w.getChangeTx hash160 e.tx)
  (nChange, { e with nChangeCached := memo })

/-! ### The operations -/

/-- Change a transaction of the wallet. -/
def modify (hash : Uint256) (f : CachedTx → CachedTx) : CacheWallet :=
  match w.mapWallet.lookup hash with
  | none => w
  | some e => { w with mapWallet := w.mapWallet.insert hash (f e) }

/-- `CWallet::MarkDirty`. -/
def markDirty : CacheWallet :=
  (w.mapWallet.keys.sort (· ≤ ·)).foldl (fun w hash => w.modify hash CachedTx.markDirty) w

/-- The loop of `WalletUpdateSpent`. The amount it prints is the cached credit; `IsSpent` throws
when there is no such output, which ends the loop. -/
def updateSpentLoop (fImmature : Uint256 → Bool) : List CTxIn → CacheWallet → CacheWallet
  | [], w => w
  | txin :: vin, w =>
    match w.mapWallet.lookup txin.prevout.hash with
    | none => updateSpentLoop fImmature vin w
    | some wtx =>
      match wtx.tx.vout[txin.prevout.n]? with
      | none => w
      | some txout =>
        if !wtx.isSpent txin.prevout.n && w.isMine hash160 txout then
          updateSpentLoop fImmature vin (w.modify txin.prevout.hash fun e =>
            (w.getCreditCached hash160 (fImmature txin.prevout.hash) true e).2.markSpent
              txin.prevout.n)
        else updateSpentLoop fImmature vin w

/-- `CWallet::WalletUpdateSpent`. -/
def walletUpdateSpent (fImmature : Uint256 → Bool) (tx : CTransaction) : CacheWallet :=
  updateSpentLoop hash160 fImmature tx.vin w

/-- The script that pays to the id of a key: `CScript::SetDestination`. -/
def scriptForKeyID (id : Valtype) : CScript := [0x76, 0xa9, 20] ++ id ++ [0x88, 0xac]

/-- A new default key from the pool, which may have been topped up with new keys; `none` when the
pool has none to give. -/
def newDefaultKey (drawn : List Valtype × Option Valtype) : CacheWallet :=
  let o := drawn.1.foldl (fun o vchPubKey => o.addKey (hash160 vchPubKey)) w.toOwnership
  match drawn.2 with
  | none => { w with toOwnership := o }
  | some vchPubKey => { w with
      toOwnership := o.setAddressBookName (.keyID (hash160 vchPubKey)) ""
      vchDefaultKey := vchPubKey }

/-- The loop of `AddToWallet` that replaces the default key when an output pays to it. -/
def replaceDefaultKey (scriptDefaultKey : CScript) :
    List (List Valtype × Option Valtype) → List CTxOut → CacheWallet → CacheWallet
  | _, [], w => w
  | pool, txout :: vout, w =>
    if txout.scriptPubKey = scriptDefaultKey then
      replaceDefaultKey scriptDefaultKey pool.tail vout
        (w.newDefaultKey hash160 (pool.headD ([], none)))
    else replaceDefaultKey scriptDefaultKey pool vout w

/-- The transaction that `AddToWallet` leaves in the wallet, bound to it. -/
def addedTx (P : Params) (nAdjustedTime : ℤ) (wtxIn : CWalletTx) : CachedTx :=
  match w.mapWallet.lookup (wtxIn.tx.getHash P) with
  | none => ⟨{ wtxIn with nTimeReceived := nAdjustedTime }, none, none, none, none⟩
  | some e => ⟨e.toCWalletTx.merge wtxIn, none, none, none, none⟩

/-- What a call finds outside the wallet: the adjusted time, which coinbases are immature, and what
the key pool gives. -/
structure CallEnv where
  nAdjustedTime : ℤ
  fImmature : Uint256 → Bool
  pool : List (List Valtype × Option Valtype)

/-- The wallet of `AddToWallet` before it looks for coins that have been spent. -/
def insertTx (P : Params) (env : CallEnv) (wtxIn : CWalletTx) : CacheWallet :=
  let wtx := w.addedTx P env.nAdjustedTime wtxIn
  replaceDefaultKey hash160 (scriptForKeyID (hash160 w.vchDefaultKey)) env.pool wtx.tx.vout
    { w with mapWallet := w.mapWallet.insert (wtxIn.tx.getHash P) wtx }

/-- `CWallet::AddToWallet`. -/
def addToWallet (P : Params) (env : CallEnv) (wtxIn : CWalletTx) : CacheWallet :=
  (w.insertTx hash160 P env wtxIn).walletUpdateSpent hash160 env.fImmature
    (w.addedTx P env.nAdjustedTime wtxIn).tx

/-- The test of `AddToWalletIfInvolvingMe`. -/
def involvesMe (P : Params) (tx : CTransaction) : Bool :=
  decide (tx.getHash P ∈ w.mapWallet) ||
    (tx.vout.any fun txout => w.isMine hash160 txout && decide (w.nMinimumInputValue ≤ txout.nValue)) ||
    decide (0 < w.getDebitTx hash160 tx)

/-- `CWallet::AddToWalletIfInvolvingMe` for a transaction of a connected block. -/
def addToWalletIfInvolvingMe (P : Params) (env : CallEnv) (block : CBlock) (tx : CTransaction) :
    CacheWallet :=
  if w.involvesMe hash160 P tx then
    w.addToWallet hash160 P env ((CWalletTx.ofTx tx).setMerkleBranch P block)
  else w.walletUpdateSpent hash160 env.fImmature tx

end CacheWallet

/-! ## When a cached amount is right -/

/-- Each cached amount of a transaction is the amount the wallet gives now. -/
structure CachedTx.Correct (hash160 : Valtype → Valtype) (w : CacheWallet) (e : CachedTx) : Prop where
  debit : Fresh e.nDebitCached (w.getDebitTx hash160 e.tx)
  credit : Fresh e.nCreditCached (w.getCreditTx hash160 e.tx)
  available : Fresh e.nAvailableCreditCached (w.getAvailable hash160 e.toCWalletTx)
  change : Fresh e.nChangeCached (w.getChangeTx hash160 e.tx)

namespace CacheWallet

variable {hash160 : Valtype → Valtype} {w w' : CacheWallet} {e : CachedTx} {hash : Uint256}

/-- Every cached amount of the wallet is right. -/
def CachesCorrect (hash160 : Valtype → Valtype) (w : CacheWallet) : Prop :=
  ∀ hash e, w.mapWallet.lookup hash = some e → e.Correct hash160 w

/-- Two wallets that give the same amounts to every transaction. -/
structure SameAmounts (w w' : CacheWallet) : Prop where
  owner : w'.toOwnership = w.toOwnership
  prevOut : ∀ txin, w'.prevOut txin = w.prevOut txin

theorem SameAmounts.refl (w : CacheWallet) : w.SameAmounts w := ⟨rfl, fun _ => rfl⟩

theorem SameAmounts.getDebitTx (h : w.SameAmounts w') (tx : CTransaction) :
    w'.getDebitTx hash160 tx = w.getDebitTx hash160 tx := by
  unfold CacheWallet.getDebitTx CacheWallet.getDebitIn
  simp only [h.owner, h.prevOut]

theorem availableLoop_congr (howner : w'.toOwnership = w.toOwnership) (wtx : CWalletTx) (i : ℕ)
    (vout : List CTxOut) : w'.availableLoop hash160 wtx i vout = w.availableLoop hash160 wtx i vout := by
  induction vout generalizing i with
  | nil => rfl
  | cons txout vout ih => rw [availableLoop, availableLoop, ih, howner]

/-- **Whether the cached amounts are right depends only on what gives the amounts.** -/
theorem SameAmounts.correct (h : w.SameAmounts w') (he : e.Correct hash160 w) :
    e.Correct hash160 w' where
  debit := he.debit.of_eq fun _ => h.getDebitTx e.tx
  credit := he.credit.of_eq fun _ => by unfold getCreditTx; rw [h.owner]
  available := he.available.of_eq fun _ => availableLoop_congr h.owner _ 0 _
  change := he.change.of_eq fun _ => by unfold getChangeTx; rw [h.owner]

/-! ### Changing one transaction -/

theorem lookup_modify (f : CachedTx → CachedTx) (hash' : Uint256) :
    (w.modify hash f).mapWallet.lookup hash' =
      (w.mapWallet.lookup hash').map fun e => if hash' = hash then f e else e := by
  unfold modify
  cases hlookup : w.mapWallet.lookup hash with
  | none =>
    rcases eq_or_ne hash' hash with rfl | hne
    · simp [hlookup]
    · simp [hne]
  | some e =>
    rcases eq_or_ne hash' hash with rfl | hne
    · simp [hlookup]
    · simp [hne, Finmap.lookup_insert_of_ne]

/-- Only the data that the wallet keeps with a transaction change, not the transaction. -/
theorem sameAmounts_modify {f : CachedTx → CachedTx} (htx : ∀ e, (f e).tx = e.tx) :
    w.SameAmounts (w.modify hash f) where
  owner := by
    unfold modify
    cases w.mapWallet.lookup hash <;> rfl
  prevOut txin := by
    unfold CacheWallet.prevOut
    rw [lookup_modify]
    cases w.mapWallet.lookup txin.prevout.hash with
    | none => rfl
    | some e =>
      rw [Option.map_some, Option.bind_some, Option.bind_some]
      split_ifs
      · rw [htx]
      · rfl

/-- **Changing one transaction keeps the cached amounts right** when its own stay right. -/
theorem CachesCorrect.modify {f : CachedTx → CachedTx} (hw : w.CachesCorrect hash160)
    (htx : ∀ e, (f e).tx = e.tx) (hf : ∀ e, e.Correct hash160 w → (f e).Correct hash160 w) :
    (w.modify hash f).CachesCorrect hash160 := by
  intro hash' e' hlookup
  rw [lookup_modify] at hlookup
  obtain ⟨e, he, rfl⟩ := Option.map_eq_some_iff.mp hlookup
  refine (sameAmounts_modify htx).correct ?_
  split_ifs
  · exact hf e (hw hash' e he)
  · exact hw hash' e he

/-! ### The reads -/

theorem correct_getDebit (he : e.Correct hash160 w) :
    (w.getDebit hash160 e).2.Correct hash160 w := by
  unfold getDebit
  split
  · exact he
  · exact ⟨he.debit.ask, he.credit, he.available, he.change⟩

@[simp] theorem tx_getDebit (e : CachedTx) : (w.getDebit hash160 e).2.tx = e.tx := by
  unfold getDebit
  split <;> rfl

/-- A memo that may be passed over is fresh all the same. -/
theorem fresh_ite {memo : Option ℤ} {value : ℤ} (h : Fresh memo value) (fUseCache : Bool) :
    Fresh (if fUseCache then memo else none) value := by
  cases fUseCache
  · exact fresh_none value
  · exact h

theorem correct_getCreditCached (he : e.Correct hash160 w) (fImmature fUseCache : Bool) :
    (w.getCreditCached hash160 fImmature fUseCache e).2.Correct hash160 w := by
  unfold getCreditCached
  split
  · exact he
  · exact ⟨he.debit, (fresh_ite he.credit fUseCache).ask, he.available, he.change⟩

@[simp] theorem tx_getCreditCached (fImmature fUseCache : Bool) (e : CachedTx) :
    (w.getCreditCached hash160 fImmature fUseCache e).2.tx = e.tx := by
  unfold getCreditCached
  split <;> rfl

theorem correct_getAvailableCredit (he : e.Correct hash160 w) (fImmature fUseCache : Bool) :
    (w.getAvailableCredit hash160 fImmature fUseCache e).2.Correct hash160 w := by
  unfold getAvailableCredit
  split
  · exact he
  · exact ⟨he.debit, he.credit, (fresh_ite he.available fUseCache).ask, he.change⟩

@[simp] theorem tx_getAvailableCredit (fImmature fUseCache : Bool) (e : CachedTx) :
    (w.getAvailableCredit hash160 fImmature fUseCache e).2.tx = e.tx := by
  unfold getAvailableCredit
  split <;> rfl

theorem correct_getChangeCached (he : e.Correct hash160 w) :
    (w.getChangeCached hash160 e).2.Correct hash160 w :=
  ⟨he.debit, he.credit, he.available, he.change.ask⟩

/-! ### Spent marks and dirty marks -/

theorem correct_markDirty (e : CachedTx) : e.markDirty.Correct hash160 w :=
  ⟨fresh_none _, fresh_none _, fresh_none _, fresh_none _⟩

@[simp] theorem tx_markSpent (e : CachedTx) (nOut : ℕ) : (e.markSpent nOut).tx = e.tx := by
  unfold CachedTx.markSpent
  split <;> rfl

/-- The available credit depends on the spent marks of the outputs that are there. -/
theorem availableLoop_congr_spent {wtx wtx' : CWalletTx} (i : ℕ) (vout : List CTxOut)
    (h : ∀ j, j < vout.length → wtx'.isSpent (i + j) = wtx.isSpent (i + j)) :
    w.availableLoop hash160 wtx' i vout = w.availableLoop hash160 wtx i vout := by
  induction vout generalizing i with
  | nil => rfl
  | cons txout vout ih =>
    have hhead := h 0 (by simp)
    rw [Nat.add_zero] at hhead
    rw [availableLoop, availableLoop, hhead, ih]
    intro j hj
    have := h (j + 1) (by simpa using hj)
    rwa [show i + (j + 1) = i + 1 + j by omega] at this

theorem correct_markSpent (he : e.Correct hash160 w) (nOut : ℕ) :
    (e.markSpent nOut).Correct hash160 w := by
  unfold CachedTx.markSpent
  split
  · exact he
  rename_i hnOut
  refine ⟨he.debit, he.credit, ?_, he.change⟩
  cases hspent : e.isSpent nOut with
  | false => exact fresh_none _
  | true =>
    -- the mark was there, and no other one changes
    refine he.available.of_eq fun _ => availableLoop_congr_spent 0 _ fun j hj => ?_
    rw [Nat.zero_add, e.toCWalletTx.isSpent_markSpent hj (not_le.mp hnOut)]
    split_ifs with heq
    · rw [heq, hspent]
    · rfl

theorem CachesCorrect.markDirty (hw : w.CachesCorrect hash160) :
    w.markDirty.CachesCorrect hash160 := by
  unfold CacheWallet.markDirty
  induction w.mapWallet.keys.sort (· ≤ ·) generalizing w with
  | nil => exact hw
  | cons hash l ih => exact ih (hw.modify (fun _ => rfl) fun e _ => correct_markDirty e)

/-- **`WalletUpdateSpent` keeps the cached amounts right.** -/
theorem CachesCorrect.walletUpdateSpent (hw : w.CachesCorrect hash160)
    (fImmature : Uint256 → Bool) (tx : CTransaction) :
    (w.walletUpdateSpent hash160 fImmature tx).CachesCorrect hash160 := by
  unfold CacheWallet.walletUpdateSpent
  induction tx.vin generalizing w with
  | nil => exact hw
  | cons txin vin ih =>
    rw [updateSpentLoop]
    split
    · exact ih hw
    split
    · exact hw
    split
    · refine ih (hw.modify (fun e => ?_) fun e he => ?_)
      · rw [tx_markSpent, tx_getCreditCached]
      · exact correct_markSpent (correct_getCreditCached he _ _) _
    · exact ih hw

/-! ### Ownership and new transactions -/

/-- A change of ownership passes by the cached amounts of a transaction: no output of a value that
one of them is about changes hands. -/
structure Undisturbed (hash160 : Valtype → Valtype) (w : CacheWallet) (o : Ownership)
    (e : CachedTx) : Prop where
  debit : e.nDebitCached ≠ none → ∀ txin ∈ e.tx.vin, ∀ txout ∈ w.prevOut txin, txout.nValue ≠ 0 →
    o.isMine hash160 txout = w.isMine hash160 txout
  credit : e.nCreditCached ≠ none → ∀ txout ∈ e.tx.vout, txout.nValue ≠ 0 →
    o.isMine hash160 txout = w.isMine hash160 txout
  available : e.nAvailableCreditCached ≠ none → ∀ i txout, e.tx.vout[i]? = some txout →
    e.isSpent i = false → txout.nValue ≠ 0 → o.isMine hash160 txout = w.isMine hash160 txout
  change : e.nChangeCached ≠ none → ∀ txout ∈ e.tx.vout, txout.nValue ≠ 0 →
    o.isChange hash160 txout = w.isChange hash160 txout

/-- No transaction with a cached debit claims an output of `tx` that has a value and is the
wallet's. -/
def Unclaimed (hash160 : Valtype → Valtype) (w : CacheWallet) (o : Ownership) (hash : Uint256)
    (tx : CTransaction) : Prop :=
  ∀ hash' e, w.mapWallet.lookup hash' = some e → e.nDebitCached ≠ none →
    ∀ txin ∈ e.tx.vin, txin.prevout.hash = hash → ∀ txout ∈ tx.vout[txin.prevout.n]?,
      txout.nValue ≠ 0 → o.isMine hash160 txout = false

theorem getCredit_congr {o o' : Ownership} {txout : CTxOut}
    (h : txout.nValue ≠ 0 → o'.isMine hash160 txout = o.isMine hash160 txout) :
    o'.getCredit hash160 txout = o.getCredit hash160 txout := by
  unfold Ownership.getCredit
  by_cases hzero : txout.nValue = 0
  · simp [hzero]
  · rw [h hzero]

theorem getChange_congr {o o' : Ownership} {txout : CTxOut}
    (h : txout.nValue ≠ 0 → o'.isChange hash160 txout = o.isChange hash160 txout) :
    o'.getChange hash160 txout = o.getChange hash160 txout := by
  unfold Ownership.getChange
  by_cases hzero : txout.nValue = 0
  · simp [hzero]
  · rw [h hzero]

/-- The debit of an input is the credit of what it claims. -/
theorem getDebitIn_eq (txin : CTxIn) :
    w.getDebitIn hash160 txin = (w.prevOut txin).elim 0 (w.getCredit hash160) := by
  unfold getDebitIn
  cases w.prevOut txin <;> rfl

theorem availableLoop_congr_owner {wtx : CWalletTx} (i : ℕ) (vout : List CTxOut)
    (h : ∀ j txout, vout[j]? = some txout → wtx.isSpent (i + j) = false →
      w'.getCredit hash160 txout = w.getCredit hash160 txout) :
    w'.availableLoop hash160 wtx i vout = w.availableLoop hash160 wtx i vout := by
  induction vout generalizing i with
  | nil => rfl
  | cons txout vout ih =>
    rw [availableLoop, availableLoop, ih]
    · congr 1
      cases hspent : wtx.isSpent i with
      | true => rfl
      | false => exact h 0 txout rfl hspent
    · intro j txout' hj hspent
      rw [show i + 1 + j = i + (j + 1) by omega] at hspent
      exact h (j + 1) txout' hj hspent

/-- **A transaction keeps its amounts** when ownership passes by it, and what else has become known
of the outputs that it claims is not the wallet's. -/
theorem correct_of_undisturbed (he : e.Correct hash160 w)
    (hun : w.Undisturbed hash160 w'.toOwnership e)
    (hprev : e.nDebitCached ≠ none → ∀ txin ∈ e.tx.vin, w'.prevOut txin = w.prevOut txin ∨
      w.prevOut txin = none ∧ ∀ txout ∈ w'.prevOut txin, w'.getCredit hash160 txout = 0) :
    e.Correct hash160 w' where
  debit := he.debit.of_eq fun hcached => by
    refine congrArg List.sum (List.map_congr_left fun txin htxin => ?_)
    rw [getDebitIn_eq, getDebitIn_eq]
    rcases hprev hcached txin htxin with heq | ⟨hnone, hzero⟩
    · rw [heq]
      cases hout : w.prevOut txin with
      | none => rfl
      | some txout => exact getCredit_congr (hun.debit hcached txin htxin txout hout)
    · rw [hnone]
      cases hout : w'.prevOut txin with
      | none => rfl
      | some txout => exact hzero txout hout
  credit := he.credit.of_eq fun hcached =>
    congrArg List.sum (List.map_congr_left fun txout htxout =>
      getCredit_congr (hun.credit hcached txout htxout))
  available := he.available.of_eq fun hcached =>
    availableLoop_congr_owner 0 _ fun j txout hj hspent => by
      rw [Nat.zero_add] at hspent
      exact getCredit_congr (hun.available hcached j txout hj hspent)
  change := he.change.of_eq fun hcached =>
    congrArg List.sum (List.map_congr_left fun txout htxout =>
      getChange_congr (hun.change hcached txout htxout))

/-- A change of ownership that disturbs no transaction keeps the cached amounts right. -/
theorem CachesCorrect.setOwnership (hw : w.CachesCorrect hash160) {o : Ownership}
    (hun : ∀ hash e, w.mapWallet.lookup hash = some e → w.Undisturbed hash160 o e) :
    CachesCorrect hash160 { w with toOwnership := o } := fun hash e he =>
  correct_of_undisturbed (hw hash e he) (hun hash e he) fun _ _ _ => .inl rfl

theorem mapWallet_replaceDefaultKey (script : CScript) (pool : List (List Valtype × Option Valtype))
    (vout : List CTxOut) :
    (replaceDefaultKey hash160 script pool vout w).mapWallet = w.mapWallet := by
  induction vout generalizing pool w with
  | nil => rfl
  | cons txout vout ih =>
    rw [replaceDefaultKey]
    split_ifs
    · rw [ih, newDefaultKey]
      split <;> rfl
    · exact ih pool

theorem mapWallet_insertTx (P : Params) (env : CallEnv) (wtxIn : CWalletTx) :
    (w.insertTx hash160 P env wtxIn).mapWallet =
      w.mapWallet.insert (wtxIn.tx.getHash P) (w.addedTx P env.nAdjustedTime wtxIn) := by
  unfold insertTx
  exact mapWallet_replaceDefaultKey _ _ _

theorem correct_addedTx (P : Params) (nAdjustedTime : ℤ) (wtxIn : CWalletTx) :
    (w'.addedTx P nAdjustedTime wtxIn).Correct hash160 w := by
  unfold addedTx
  split <;> exact ⟨fresh_none _, fresh_none _, fresh_none _, fresh_none _⟩

/-- A merge keeps the transaction that the wallet has. -/
theorem tx_addedTx_of_some {P : Params} {nAdjustedTime : ℤ} {wtxIn : CWalletTx}
    (h : w.mapWallet.lookup (wtxIn.tx.getHash P) = some e) :
    (w.addedTx P nAdjustedTime wtxIn).tx = e.tx := by
  unfold addedTx
  rw [h]
  unfold CWalletTx.merge CWalletTx.updateSpent
  simp only
  split_ifs <;> rfl

theorem tx_addedTx_of_none {P : Params} {nAdjustedTime : ℤ} {wtxIn : CWalletTx}
    (h : w.mapWallet.lookup (wtxIn.tx.getHash P) = none) :
    (w.addedTx P nAdjustedTime wtxIn).tx = wtxIn.tx := by
  unfold addedTx
  rw [h]

/-- What `AddToWallet` must not change behind the cached amounts of the other transactions: whose
the outputs are when a new default key is drawn, and what the inputs claim when the transaction is
new. -/
structure AddsUnnoticed (hash160 : Valtype → Valtype) (P : Params) (env : CallEnv) (w : CacheWallet)
    (wtxIn : CWalletTx) : Prop where
  undisturbed : ∀ hash e, hash ≠ wtxIn.tx.getHash P → w.mapWallet.lookup hash = some e →
    w.Undisturbed hash160 (w.insertTx hash160 P env wtxIn).toOwnership e
  unclaimed : wtxIn.tx.getHash P ∉ w.mapWallet →
    w.Unclaimed hash160 (w.insertTx hash160 P env wtxIn).toOwnership (wtxIn.tx.getHash P) wtxIn.tx

/-- **`AddToWallet` keeps the cached amounts right** when it adds unnoticed. -/
theorem CachesCorrect.addToWallet (hw : w.CachesCorrect hash160) {P : Params} {env : CallEnv}
    {wtxIn : CWalletTx} (hadds : w.AddsUnnoticed hash160 P env wtxIn) :
    (w.addToWallet hash160 P env wtxIn).CachesCorrect hash160 := by
  refine CachesCorrect.walletUpdateSpent (fun hash' e he => ?_) _ _
  rw [mapWallet_insertTx] at he
  by_cases heq : hash' = wtxIn.tx.getHash P
  · -- the added transaction is bound anew
    rw [heq, Finmap.lookup_insert] at he
    obtain rfl := Option.some.inj he
    exact correct_addedTx _ _ _
  · rw [Finmap.lookup_insert_of_ne _ heq] at he
    refine correct_of_undisturbed (hw hash' e he) (hadds.undisturbed hash' e heq he)
      fun hcached txin htxin => ?_
    unfold prevOut
    rw [mapWallet_insertTx]
    by_cases hclaim : txin.prevout.hash = wtxIn.tx.getHash P
    · rw [hclaim, Finmap.lookup_insert, Option.bind_some]
      cases hlookup : w.mapWallet.lookup (wtxIn.tx.getHash P) with
      | some e' => exact .inl (by rw [tx_addedTx_of_some hlookup]; rfl)
      | none =>
        refine .inr ⟨rfl, fun txout hout => ?_⟩
        rw [tx_addedTx_of_none hlookup] at hout
        have hmine := hadds.unclaimed (Finmap.lookup_eq_none.mp hlookup) hash' e he hcached txin htxin
          hclaim txout hout
        unfold Ownership.getCredit
        by_cases hzero : txout.nValue = 0
        · simp [hzero]
        · rw [hmine hzero]
          rfl
    · exact .inl (by rw [Finmap.lookup_insert_of_ne _ hclaim])

/-! ## Runs -/

/-- What happens to a wallet: the operations, the transactions of connected blocks, and the
reads. -/
inductive Event where
  | addToWallet (env : CallEnv) (wtxIn : CWalletTx)
  | connectTx (env : CallEnv) (block : CBlock) (tx : CTransaction)
  | markSpent (hash : Uint256) (nOut : ℕ)
  | walletUpdateSpent (fImmature : Uint256 → Bool) (tx : CTransaction)
  | addKey (vchPubKey : Valtype)
  | addCScript (redeemScript : CScript)
  | setAddressBookName (address : CTxDestination) (strName : String)
  | markDirty
  | getDebit (hash : Uint256)
  | getCredit (hash : Uint256) (fImmature fUseCache : Bool)
  | getAvailableCredit (hash : Uint256) (fImmature fUseCache : Bool)
  | getChange (hash : Uint256)

/-- The wallet after an event. -/
def after (hash160 : Valtype → Valtype) (P : Params) (w : CacheWallet) : Event → CacheWallet
  | .addToWallet env wtxIn => w.addToWallet hash160 P env wtxIn
  | .connectTx env block tx => w.addToWalletIfInvolvingMe hash160 P env block tx
  | .markSpent hash nOut => w.modify hash fun e => e.markSpent nOut
  | .walletUpdateSpent fImmature tx => w.walletUpdateSpent hash160 fImmature tx
  | .addKey vchPubKey => { w with toOwnership := w.addKey (hash160 vchPubKey) }
  | .addCScript redeemScript => { w with toOwnership := w.addCScript hash160 redeemScript }
  | .setAddressBookName address strName =>
    { w with toOwnership := w.setAddressBookName address strName }
  | .markDirty => w.markDirty
  | .getDebit hash => w.modify hash fun e => (w.getDebit hash160 e).2
  | .getCredit hash fImmature fUseCache =>
    w.modify hash fun e => (w.getCreditCached hash160 fImmature fUseCache e).2
  | .getAvailableCredit hash fImmature fUseCache =>
    w.modify hash fun e => (w.getAvailableCredit hash160 fImmature fUseCache e).2
  | .getChange hash => w.modify hash fun e => (w.getChangeCached hash160 e).2

/-- A wallet starts without cached amounts: empty, or as it has been loaded. -/
def cacheSystem (hash160 : Valtype → Valtype) (P : Params) : System CacheWallet Event where
  start w := ∀ hash e, w.mapWallet.lookup hash = some e → e = e.markDirty
  legal _ _ := True
  next := after hash160 P

/-- An event passes by the cached amounts: what it adds is not what a cached amount is about. -/
def PassesBy (hash160 : Valtype → Valtype) (P : Params) (w : CacheWallet) : Event → Prop
  | .addToWallet env wtxIn => w.AddsUnnoticed hash160 P env wtxIn
  | .connectTx env block tx => w.involvesMe hash160 P tx = true →
    w.AddsUnnoticed hash160 P env ((CWalletTx.ofTx tx).setMerkleBranch P block)
  | .addKey vchPubKey => ∀ hash e, w.mapWallet.lookup hash = some e →
    w.Undisturbed hash160 (w.addKey (hash160 vchPubKey)) e
  | .addCScript redeemScript => ∀ hash e, w.mapWallet.lookup hash = some e →
    w.Undisturbed hash160 (w.addCScript hash160 redeemScript) e
  | .setAddressBookName address strName => ∀ hash e, w.mapWallet.lookup hash = some e →
    w.Undisturbed hash160 (w.setAddressBookName address strName) e
  | _ => True

/-- **One event that passes by the cached amounts keeps them right.** -/
theorem CachesCorrect.after (hw : w.CachesCorrect hash160) {P : Params} {event : Event}
    (hpass : w.PassesBy hash160 P event) : (w.after hash160 P event).CachesCorrect hash160 := by
  cases event with
  | addToWallet env wtxIn => exact hw.addToWallet hpass
  | connectTx env block tx =>
    rw [CacheWallet.after, addToWalletIfInvolvingMe]
    split_ifs with hmine
    · exact hw.addToWallet (hpass hmine)
    · exact hw.walletUpdateSpent _ _
  | markSpent hash nOut =>
    exact hw.modify (fun e => tx_markSpent e nOut) fun e he => correct_markSpent he nOut
  | walletUpdateSpent fImmature tx => exact hw.walletUpdateSpent fImmature tx
  | addKey vchPubKey => exact hw.setOwnership hpass
  | addCScript redeemScript => exact hw.setOwnership hpass
  | setAddressBookName address strName => exact hw.setOwnership hpass
  | markDirty => exact hw.markDirty
  | getDebit hash => exact hw.modify tx_getDebit fun e he => correct_getDebit he
  | getCredit hash fImmature fUseCache =>
    exact hw.modify (tx_getCreditCached _ _) fun e he => correct_getCreditCached he _ _
  | getAvailableCredit hash fImmature fUseCache =>
    exact hw.modify (tx_getAvailableCredit _ _) fun e he => correct_getAvailableCredit he _ _
  | getChange hash => exact hw.modify (fun _ => rfl) fun e he => correct_getChangeCached he

/-- **The cached amounts are right as long as every event passes by them.** -/
theorem cachesCorrect_of_reaches {P : Params}
    (h : Reaches (cacheSystem hash160 P) (fun w event => w.PassesBy hash160 P event) w) :
    w.CachesCorrect hash160 := by
  refine h.invariant (fun s hstart hash e he => ?_) fun s event hs _ hpass => hs.after hpass
  rw [hstart hash e he]
  exact correct_markDirty e

/-! ## An address that gets a name -/

/-- A hash for worked examples: twenty times the first byte. -/
def exampleHash160 (vch : Valtype) : Valtype := List.replicate 20 (vch.headD 0)

/-- A payment of ten units to the key `[7]`. -/
def changeTx : CTransaction where
  nVersion := 1
  vin := [⟨⟨5, 0⟩, [1, 1], uintMax⟩]
  vout := [⟨10, scriptForKeyID (exampleHash160 [7])⟩]
  nLockTime := 0

/-- A wallet without transactions. -/
def emptyWallet : CacheWallet := ⟨⟨∅, ∅, ∅⟩, ∅, [], 0⟩

/-- The key comes, then the payment; the amounts are asked for, and the payment is spent. -/
def changeRun : List Event :=
  [.addKey [7], .addToWallet ⟨0, fun _ => false, []⟩ (.ofTx changeTx), .getChange 257, .getDebit 257,
    .getCredit 257 false true, .getAvailableCredit 257 false true, .markSpent 257 0]

/-- The cached amounts after the run. -/
theorem cachesCorrect_of_reaches_changeRun :
    ((cacheSystem exampleHash160 exampleParams).run emptyWallet changeRun).CachesCorrect
      exampleHash160 := by
  refine cachesCorrect_of_reaches (P := exampleParams) (Reaches.run (.start ?_) ?_)
  · intro hash e he
    cases he
  · refine ⟨⟨trivial, fun hash e he => (by cases he)⟩, ⟨trivial, ?_⟩, ⟨trivial, trivial⟩,
      ⟨trivial, trivial⟩, ⟨trivial, trivial⟩, ⟨trivial, trivial⟩, ⟨trivial, trivial⟩, trivial⟩
    exact ⟨fun hash e _ he => (by cases he), fun _ hash e he => (by cases he)⟩

/-- The key and the payment, whose change is asked for before its address gets a name. -/
def renamedRun : List Event :=
  [.addKey [7], .addToWallet ⟨0, fun _ => false, []⟩ (.ofTx changeTx), .getChange 257,
    .setAddressBookName (.keyID (exampleHash160 [7])) "mine"]

/-- **A name for the address of the change leaves its cached amount behind.** -/
theorem not_forall_cachesCorrect :
    ¬∀ (hash160 : Valtype → Valtype) (P : Params) (w : CacheWallet),
      Reachable (cacheSystem hash160 P) w → w.CachesCorrect hash160 := by
  intro h
  have hstart : (cacheSystem exampleHash160 exampleParams).start emptyWallet :=
    fun hash e he => by cases he
  have hallows : (cacheSystem exampleHash160 exampleParams).Allows (fun _ _ => True) emptyWallet
      renamedRun :=
    ⟨⟨trivial, trivial⟩, ⟨trivial, trivial⟩, ⟨trivial, trivial⟩, ⟨trivial, trivial⟩, trivial⟩
  have hcorrect := h exampleHash160 exampleParams _ (Reaches.run (.start hstart) hallows)
  -- the cached change is the payment, and nothing is change any more
  have hstale : (((cacheSystem exampleHash160 exampleParams).run emptyWallet
      renamedRun).mapWallet.lookup 257).map (fun e => (e.nChangeCached, e.tx)) =
        some (some 10, changeTx) := by
    decide +kernel
  obtain ⟨e, he, heq⟩ := Option.map_eq_some_iff.mp hstale
  obtain ⟨hcached, htx⟩ := Prod.mk.inj heq
  have hchange := (hcorrect 257 e he).change 10 hcached
  rw [htx] at hchange
  exact absurd hchange (by decide +kernel)

end CacheWallet

end FoxCoin
