import FoxCoin.AccountingEntries
import FoxCoin.Decompose
import FoxCoin.Lib.MultiMap

/-! # The list of transactions

`listtransactions` goes through the transactions and the accounting entries of the wallet from the
newest on, until it has enough entries for the reply, and cuts the slice out of them. Numbers are of
the type `int`, and an overflow, or a size that does not fit, is an error. -/

namespace FoxCoin

/-! ## What the calls read and return -/

/-- A JSON value of the replies. -/
inductive JsonValue where
  | str (s : String)
  /-- The text of an address. -/
  | opening (s : QString)
  /-- `hash.GetHex()`. -/
  | hash (hash : Uint256)
  | int (n : ℤ)
  /-- `ValueFromAmount(nAmount)`. -/
  | amount (nAmount : ℤ)
  deriving DecidableEq

/-- A JSON object, as it is filled. -/
abbrev JsonObject := List (String × JsonValue)

/-- What ends a call early. -/
inductive ListError where
  | jsonRpc (code : ℤ) (message : String)
  | overflow
  | outOfRange
  deriving DecidableEq

/-- An element of `txByTime`: a transaction or an accounting entry. -/
inductive TxPair where
  | tx (hash : Uint256) (wtx : CWalletTx)
  | acentry (entry : CAccountingEntry String)

/-- The time under which an element is inserted. -/
def TxPair.time : TxPair → ℤ
  | .tx _ wtx => wtx.nTimeReceived
  | .acentry entry => entry.nTime

/-- What the calls read besides the balances: the hash of addresses, the `mapValue` of each
transaction, and the accounting entries of the wallet file in its order. -/
structure ListView (P : Params) extends AccountView P where
  Hash : Valtype → Valtype
  mapValue : Uint256 → List (String × String)
  entries : List (CAccountingEntry String)

/-! ## Arithmetic of `int` -/

/-- A number, if it fits. -/
def checkInt (n : ℤ) : Except ListError ℤ :=
  if -2 ^ 31 ≤ n ∧ n < 2 ^ 31 then .ok n else .error .overflow

/-- `std::advance` from the beginning of an array. -/
def advance (nSize : ℕ) (n : ℤ) : Except ListError ℕ :=
  if 0 ≤ n ∧ n ≤ nSize then .ok n.toNat else .error .outOfRange

namespace ListView

variable {P : Params} (v : ListView P)

/-! ## The code -/

/-- `WalletTxToJSON`. -/
def walletTxToJSON (hash : Uint256) (wtx : CWalletTx) : JsonObject :=
  let confirms := v.getDepth hash wtx
  [("confirmations", .int confirms)] ++
    (if confirms ≠ 0 then [("blockhash", .hash wtx.hashBlock), ("blockindex", .int wtx.nIndex)]
      else []) ++
    [("txid", .hash (wtx.tx.getHash P)), ("time", .int wtx.nTimeReceived)] ++
    (v.mapValue hash).map fun item => (item.1, .str item.2)

/-- `CFoxcoinAddress(address).ToString()`. -/
def openingText (address : CTxDestination) : JsonValue :=
  .opening (address.toText v.Hash P.fTestNet)

/-- `ListTransactions`: what it adds to the array. -/
def listTransactions (hash : Uint256) (wtx : CWalletTx) (strAccount : String) (nMinDepth : ℤ)
    (fLong : Bool) : List JsonObject :=
  let amounts := v.getAmounts hash wtx
  let fAllAccounts := strAccount == "*"
  let long := if fLong then v.walletTxToJSON hash wtx else []
  -- generated blocks are assigned to the account ""
  let generated :=
    if amounts.nGeneratedMature + amounts.nGeneratedImmature ≠ 0 ∧
        (fAllAccounts = true ∨ strAccount = "") then
      [[("account", .str "")] ++
        (if amounts.nGeneratedImmature ≠ 0 then
          [("category", .str (if v.getDepth hash wtx ≠ 0 then "immature" else "orphan")),
            ("amount", .amount amounts.nGeneratedImmature)]
        else [("category", .str "generate"), ("amount", .amount amounts.nGeneratedMature)]) ++ long]
    else []
  let sent :=
    if (amounts.listSent ≠ [] ∨ amounts.nFee ≠ 0) ∧
        (fAllAccounts = true ∨ strAccount = amounts.strSentAccount) then
      amounts.listSent.map fun s =>
        [("account", .str amounts.strSentAccount), ("opening", v.openingText s.1),
          ("category", .str "send"), ("amount", .amount (-s.2)), ("fee", .amount (-amounts.nFee))] ++
          long
    else []
  let received :=
    if amounts.listReceived ≠ [] ∧ v.getDepth hash wtx ≥ nMinDepth then
      (amounts.listReceived.filter fun r =>
        fAllAccounts || v.accountOf r.1 == strAccount).map fun r =>
          [("account", .str (v.accountOf r.1)), ("opening", v.openingText r.1),
            ("category", .str "receive"), ("amount", .amount r.2)] ++ long
    else []
  generated ++ sent ++ received

/-- `AcentryToJSON`: what it adds to the array. -/
def acentryToJSON (acentry : CAccountingEntry String) (strAccount : String) : List JsonObject :=
  if strAccount = "*" ∨ acentry.strAccount = strAccount then
    [[("account", .str acentry.strAccount), ("category", .str "move"), ("time", .int acentry.nTime),
      ("amount", .amount acentry.nCreditDebit), ("otheraccount", .str acentry.strOtherAccount),
      ("comment", .str acentry.strComment)]]
  else []

/-- `ListAccountCreditDebit`. -/
def listAccountCreditDebit (strAccount : String) : List (CAccountingEntry String) :=
  v.entries.filter fun entry => strAccount == "*" || entry.strAccount == strAccount

/-- What is inserted in `txByTime`, in this order. -/
def txItems (strAccount : String) : List TxPair :=
  (v.wallet.inOrder.map fun entry => .tx entry.1 entry.2) ++
    (v.listAccountCreditDebit strAccount).map .acentry

/-- `txByTime`. -/
def txByTime (strAccount : String) : List TxPair :=
  MultiMap.ofList TxPair.time (v.txItems strAccount)

/-- The entries for an element of `txByTime`. -/
def entriesOf (strAccount : String) : TxPair → List JsonObject
  | .tx hash wtx => v.listTransactions hash wtx strAccount 0 true
  | .acentry entry => acentryToJSON entry strAccount

/-- The loop over `txByTime`, from its end. -/
def listLoop (strAccount : String) (nCount nFrom : ℤ) :
    List TxPair → List JsonObject → Except ListError (List JsonObject)
  | [], ret => .ok ret
  | item :: items, ret => do
    let ret := ret ++ v.entriesOf strAccount item
    let nSize ← checkInt ret.length
    let nWanted ← checkInt (nCount + nFrom)
    -- one element can bring more entries than are wanted
    if nSize ≥ nWanted then .ok ret else listLoop strAccount nCount nFrom items ret

/-- What follows the loop: the slice is cut out of the array, which is turned round. -/
def cutSlice (nCount nFrom : ℤ) (ret : List JsonObject) : Except ListError (List JsonObject) := do
  let nSize ← checkInt ret.length
  let nFrom := if nFrom > nSize then nSize else nFrom
  let nLast ← checkInt (nFrom + nCount)
  let nCount := if nLast > nSize then nSize - nFrom else nCount
  let first ← advance ret.length nFrom
  let nLast ← checkInt (nFrom + nCount)
  let last ← advance ret.length nLast
  .ok ((ret.take last).drop first).reverse

/-- `listtransactions`. -/
def listtransactions (strAccount : String) (nCount nFrom : ℤ) :
    Except ListError (List JsonObject) := do
  if nCount < 0 then .error (.jsonRpc (-8) "Negative count")
  else if nFrom < 0 then .error (.jsonRpc (-8) "Negative from")
  else
    let ret ← v.listLoop strAccount nCount nFrom (v.txByTime strAccount).reverse []
    cutSlice nCount nFrom ret

/-! ## The slice -/

/-- All the entries, the newest first. -/
def newestFirst (strAccount : String) : List JsonObject :=
  (v.txByTime strAccount).reverse.flatMap (v.entriesOf strAccount)

/-- The slice: the newest entries are skipped, the next are taken, and turned round. -/
def slice (strAccount : String) (nCount nFrom : ℤ) : List JsonObject :=
  (((v.newestFirst strAccount).drop nFrom.toNat).take nCount.toNat).reverse

/-- **The numbers fit in an `int`**: the sum of the parameters, and the number of entries after each
element that comes before enough entries are there. -/
structure Fits (strAccount : String) (nCount nFrom : ℤ) (items : List TxPair)
    (ret : List JsonObject) : Prop where
  wanted : nCount + nFrom < 2 ^ 31
  size : ∀ newer item older, items = newer ++ item :: older →
    (newer = [] ∨ (ret ++ newer.flatMap (v.entriesOf strAccount)).length < nCount + nFrom) →
      (ret ++ (newer ++ [item]).flatMap (v.entriesOf strAccount)).length < 2 ^ 31

variable {v} {strAccount : String} {nCount nFrom : ℤ} {items : List TxPair} {item : TxPair}
  {ret r : List JsonObject}

theorem checkInt_eq_ok {n m : ℤ} (h : checkInt n = .ok m) : m = n ∧ -2 ^ 31 ≤ n ∧ n < 2 ^ 31 := by
  rw [checkInt] at h
  split_ifs at h with hfits
  · exact ⟨(Except.ok.inj h).symm, hfits⟩

theorem checkInt_of_fits {n : ℤ} (hlow : -2 ^ 31 ≤ n) (hhigh : n < 2 ^ 31) : checkInt n = .ok n :=
  if_pos ⟨hlow, hhigh⟩

theorem advance_of_le {nSize : ℕ} {n : ℤ} (hlow : 0 ≤ n) (hhigh : n ≤ nSize) :
    advance nSize n = .ok n.toNat := if_pos ⟨hlow, hhigh⟩

theorem fits_nil (hwanted : nCount + nFrom < 2 ^ 31) : v.Fits strAccount nCount nFrom [] ret :=
  ⟨hwanted, fun newer item older hsplit => by simp at hsplit⟩

/-- The numbers fit for the first element, and for the others if there are not enough entries yet. -/
theorem fits_cons : v.Fits strAccount nCount nFrom (item :: items) ret ↔
    nCount + nFrom < 2 ^ 31 ∧ (ret ++ v.entriesOf strAccount item).length < 2 ^ 31 ∧
      ((ret ++ v.entriesOf strAccount item).length < nCount + nFrom →
        v.Fits strAccount nCount nFrom items (ret ++ v.entriesOf strAccount item)) := by
  constructor
  · rintro ⟨hwanted, hsize⟩
    refine ⟨hwanted, ?_, fun hmore => ⟨hwanted, ?_⟩⟩
    · simpa using hsize [] item items rfl (.inl rfl)
    · intro newer item' older hsplit hnewer
      have hfit := hsize (item :: newer) item' older (by rw [hsplit]; rfl)
      simp only [List.flatMap_cons, List.cons_append, List.append_assoc] at hfit hnewer ⊢
      refine hfit (.inr ?_)
      obtain rfl | hnewer := hnewer
      · simpa using hmore
      · exact hnewer
  · rintro ⟨hwanted, hfirst, hrest⟩
    refine ⟨hwanted, fun newer item' older hsplit hnewer => ?_⟩
    cases newer with
    | nil =>
      obtain ⟨rfl, -⟩ := List.cons.inj hsplit
      simpa using hfirst
    | cons first newer =>
      obtain ⟨rfl, htail⟩ := List.cons.inj hsplit
      have hlast := hnewer.resolve_left (by simp)
      simp only [List.flatMap_cons, ← List.append_assoc, List.cons_append] at hlast ⊢
      -- there were not enough entries later on, so there were not after the first element
      have hmore : ((ret ++ v.entriesOf strAccount item).length : ℤ) < nCount + nFrom := by
        refine lt_of_le_of_lt ?_ hlast
        rw [List.append_assoc, List.length_append, List.length_append, List.length_append]
        omega
      exact (hrest hmore).size newer item' older htail (.inr hlast)

/-- A round of the loop whose numbers fit. -/
theorem listLoop_cons (hwanted : -2 ^ 31 ≤ nCount + nFrom ∧ nCount + nFrom < 2 ^ 31)
    (hsize : (ret ++ v.entriesOf strAccount item).length < 2 ^ 31) :
    v.listLoop strAccount nCount nFrom (item :: items) ret =
      if ((ret ++ v.entriesOf strAccount item).length : ℤ) ≥ nCount + nFrom then
        .ok (ret ++ v.entriesOf strAccount item)
      else v.listLoop strAccount nCount nFrom items (ret ++ v.entriesOf strAccount item) := by
  rw [listLoop, checkInt_of_fits (by omega) (by omega), checkInt_of_fits hwanted.1 hwanted.2]
  rfl

/-- A round of the loop that is not an error. -/
theorem fits_of_listLoop_cons
    (h : v.listLoop strAccount nCount nFrom (item :: items) ret = .ok r) :
    (-2 ^ 31 ≤ nCount + nFrom ∧ nCount + nFrom < 2 ^ 31) ∧
      (ret ++ v.entriesOf strAccount item).length < 2 ^ 31 := by
  rw [listLoop] at h
  cases hsize : checkInt (ret ++ v.entriesOf strAccount item).length with
  | error e =>
    rw [hsize] at h
    cases h
  | ok nSize =>
    cases hwanted : checkInt (nCount + nFrom) with
    | error e =>
      rw [hsize, hwanted] at h
      cases h
    | ok nWanted =>
      have := (checkInt_eq_ok hsize).2.2
      exact ⟨(checkInt_eq_ok hwanted).2, by omega⟩

/-- **The loop stops when there are enough entries.** -/
theorem listLoop_eq_ok (hsmall : ret.length < 2 ^ 31)
    (h : v.listLoop strAccount nCount nFrom items ret = .ok r) :
    r.length < 2 ^ 31 ∧ ∃ newer older, items = newer ++ older ∧
      r = ret ++ newer.flatMap (v.entriesOf strAccount) ∧ (older = [] ∨ nCount + nFrom ≤ r.length) := by
  induction items generalizing ret with
  | nil =>
    obtain rfl : ret = r := Except.ok.inj h
    exact ⟨hsmall, [], [], rfl, by simp, .inl rfl⟩
  | cons item items ih =>
    obtain ⟨hwanted, hsize⟩ := fits_of_listLoop_cons h
    rw [listLoop_cons hwanted hsize] at h
    split_ifs at h with henough
    · obtain rfl := Except.ok.inj h
      exact ⟨hsize, [item], items, rfl, by simp, .inr henough⟩
    · obtain ⟨hr, newer, older, rfl, rfl, hstop⟩ := ih hsize h
      exact ⟨hr, item :: newer, older, rfl, by simp, hstop⟩

/-- The loop returns exactly if the numbers fit. -/
theorem listLoop_ok_iff (hcount : 0 ≤ nCount) (hfrom : 0 ≤ nFrom) (hne : items ≠ []) :
    (∃ r, v.listLoop strAccount nCount nFrom items ret = .ok r) ↔
      v.Fits strAccount nCount nFrom items ret := by
  induction items generalizing ret with
  | nil => exact absurd rfl hne
  | cons item items ih =>
    -- what follows the first element, which may be the last
    have hrest : nCount + nFrom < 2 ^ 31 →
        ((∃ r, v.listLoop strAccount nCount nFrom items (ret ++ v.entriesOf strAccount item) = .ok r) ↔
          v.Fits strAccount nCount nFrom items (ret ++ v.entriesOf strAccount item)) := by
      intro hwanted
      cases items with
      | nil => exact iff_of_true ⟨_, rfl⟩ (fits_nil hwanted)
      | cons item' items => exact ih (by simp)
    rw [fits_cons]
    constructor
    · rintro ⟨r, hr⟩
      obtain ⟨hwanted, hsize⟩ := fits_of_listLoop_cons hr
      refine ⟨hwanted.2, hsize, fun hmore => (hrest hwanted.2).mp ⟨r, ?_⟩⟩
      rwa [listLoop_cons hwanted hsize, if_neg (not_le.mpr hmore)] at hr
    · rintro ⟨hwanted, hsize, hmore⟩
      rw [listLoop_cons ⟨by omega, hwanted⟩ hsize]
      split_ifs with henough
      · exact ⟨_, rfl⟩
      · exact (hrest hwanted).mpr (hmore (not_le.mp henough))

/-- A slice whose bounds are cut to the length of the list. -/
theorem drop_take_min {A : Type} (l : List A) {n m : ℕ} (hm : min n l.length = m) (k : ℕ) :
    (l.take (m + min k (l.length - m))).drop m = (l.drop n).take k := by
  have hdrop : l.drop n = l.drop m := by
    obtain hle | hle := le_total n l.length
    · rw [← hm, min_eq_left hle]
    · rw [← hm, min_eq_right hle, List.drop_of_length_le hle, List.drop_length]
  rw [List.drop_take, hdrop, Nat.add_sub_cancel_left, ← List.length_drop, ← List.take_eq_take_min]

/-- What follows the loop, where the numbers fit. -/
theorem cutSlice_eq_ok (hcount : 0 ≤ nCount) (hfrom : 0 ≤ nFrom) (hsize : ret.length < 2 ^ 31)
    (hlast : min nFrom ret.length + nCount < 2 ^ 31) :
    cutSlice nCount nFrom ret = .ok ((ret.drop nFrom.toNat).take nCount.toNat).reverse := by
  have hfirst : (if nFrom > ret.length then (ret.length : ℤ) else nFrom) = min nFrom ret.length := by
    split_ifs with h
    · exact (min_eq_right h.le).symm
    · exact (min_eq_left (not_lt.mp h)).symm
  have hcount' : (if min nFrom ret.length + nCount > ret.length then
      (ret.length : ℤ) - min nFrom ret.length else nCount) =
        min nCount (ret.length - min nFrom ret.length) := by
    split_ifs <;> omega
  -- each of the four numbers fits, and both iterators are in the array
  rw [cutSlice, checkInt_of_fits (by omega) (by omega)]
  simp only [bind, Except.bind, hfirst]
  rw [checkInt_of_fits (by omega) (by omega)]
  simp only
  rw [hcount', advance_of_le (by omega) (by omega), checkInt_of_fits (by omega) (by omega)]
  simp only
  rw [advance_of_le (by omega) (by omega)]
  simp only
  rw [← drop_take_min ret (n := nFrom.toNat) (m := (min nFrom ret.length).toNat) (by omega)]
  congr 4
  omega

/-- Enough of the newest entries give the slice. -/
theorem slice_of_newer {newer older : List TxPair} (hcount : 0 ≤ nCount) (hfrom : 0 ≤ nFrom)
    (hitems : (v.txByTime strAccount).reverse = newer ++ older)
    (hstop : older = [] ∨ nCount + nFrom ≤ (newer.flatMap (v.entriesOf strAccount)).length) :
    v.slice strAccount nCount nFrom =
      (((newer.flatMap (v.entriesOf strAccount)).drop nFrom.toNat).take nCount.toNat).reverse := by
  rw [slice, newestFirst, hitems, List.flatMap_append]
  obtain rfl | hstop := hstop
  · rw [List.flatMap_nil, List.append_nil]
  · -- the older ones are behind the end of the slice
    rw [List.drop_append_of_le_length (by omega), List.take_append_of_le_length]
    rw [List.length_drop]
    omega

/-- `listtransactions` returns the slice exactly when the numbers fit, or there is nothing to list. -/
theorem listtransactions_ok_iff (hcount : 0 ≤ nCount ∧ nCount < 2 ^ 31)
    (hfrom : 0 ≤ nFrom ∧ nFrom < 2 ^ 31) :
    v.listtransactions strAccount nCount nFrom = .ok (v.slice strAccount nCount nFrom) ↔
      v.txItems strAccount = [] ∨
        v.Fits strAccount nCount nFrom (v.txByTime strAccount).reverse [] := by
  have hempty : (v.txByTime strAccount).reverse = [] ↔ v.txItems strAccount = [] := by
    rw [List.reverse_eq_nil_iff, txByTime]
    have hperm := (MultiMap.ofList_spec TxPair.time (v.txItems strAccount)).1
    exact ⟨fun h => (h ▸ hperm).nil_eq.symm, fun h => by rw [h]; rfl⟩
  rw [listtransactions, if_neg (not_lt.mpr hcount.1), if_neg (not_lt.mpr hfrom.1), ← hempty]
  constructor
  · intro h
    refine or_iff_not_imp_left.mpr fun hne => (listLoop_ok_iff hcount.1 hfrom.1 hne).mp ?_
    cases hloop : v.listLoop strAccount nCount nFrom (v.txByTime strAccount).reverse [] with
    | error e =>
      rw [hloop] at h
      cases h
    | ok r => exact ⟨r, rfl⟩
  · intro h
    by_cases hne : (v.txByTime strAccount).reverse = []
    · -- the sum of the parameters is not taken outside of the loop
      have hslice : v.slice strAccount nCount nFrom = [] := by
        rw [slice, newestFirst, hne]
        simp
      have hcut : cutSlice nCount nFrom [] = .ok [] := by
        rw [cutSlice_eq_ok hcount.1 hfrom.1 (by norm_num), List.drop_nil, List.take_nil,
          List.reverse_nil]
        rw [List.length_nil, Nat.cast_zero, min_eq_right hfrom.1, zero_add]
        exact hcount.2
      rw [hne, hslice, listLoop]
      exact hcut
    · have hfits := h.resolve_left hne
      obtain ⟨r, hr⟩ := (listLoop_ok_iff hcount.1 hfrom.1 hne).mpr hfits
      obtain ⟨hsize, newer, older, hitems, rfl, hstop⟩ := listLoop_eq_ok (by norm_num) hr
      rw [List.nil_append] at hstop hsize hr
      have := hfits.wanted
      have hcut := cutSlice_eq_ok hcount.1 hfrom.1 hsize (by omega)
      rw [slice_of_newer hcount.1 hfrom.1 hitems hstop]
      simp only [hr, bind, Except.bind]
      exact hcut

/-- With fewer than `2^31` entries, only the sum of the parameters matters. -/
theorem fits_iff_of_length (hlength : (v.newestFirst strAccount).length < 2 ^ 31) :
    v.Fits strAccount nCount nFrom (v.txByTime strAccount).reverse [] ↔ nCount + nFrom < 2 ^ 31 := by
  refine ⟨fun h => h.wanted, fun hwanted => ⟨hwanted, fun newer item older hsplit _ => ?_⟩⟩
  have hall : v.newestFirst strAccount = (newer ++ [item]).flatMap (v.entriesOf strAccount) ++
      older.flatMap (v.entriesOf strAccount) := by
    rw [newestFirst, hsplit, ← List.flatMap_append, List.append_assoc, List.singleton_append]
  rw [hall, List.length_append] at hlength
  rw [List.nil_append]
  omega

/-- **`listtransactions` returns the slice exactly when the numbers fit in an `int`**, or there is
nothing to list. The slice is one of the entries of all elements, sorted by their times. With fewer
than `2^31` entries, the condition is that the sum of the parameters fits. -/
theorem listtransactions_eq_slice_iff (v : ListView P) (strAccount : String) (nCount nFrom : ℤ)
    (hcount : 0 ≤ nCount ∧ nCount < 2 ^ 31) (hfrom : 0 ≤ nFrom ∧ nFrom < 2 ^ 31) :
    ((v.txByTime strAccount).Perm (v.txItems strAccount) ∧
      (v.txByTime strAccount).Pairwise fun item item' => item.time ≤ item'.time) ∧
    (v.listtransactions strAccount nCount nFrom = .ok (v.slice strAccount nCount nFrom) ↔
      v.txItems strAccount = [] ∨
        v.Fits strAccount nCount nFrom (v.txByTime strAccount).reverse []) ∧
    ((v.newestFirst strAccount).length < 2 ^ 31 →
      (v.listtransactions strAccount nCount nFrom = .ok (v.slice strAccount nCount nFrom) ↔
        v.txItems strAccount = [] ∨ nCount + nFrom < 2 ^ 31)) := by
  obtain ⟨hperm, hsorted, -⟩ := MultiMap.ofList_spec TxPair.time (v.txItems strAccount)
  refine ⟨⟨hperm, hsorted⟩, listtransactions_ok_iff hcount hfrom, fun hlength => ?_⟩
  rw [listtransactions_ok_iff hcount hfrom, fits_iff_of_length hlength]

/-! ## Parameters whose sum overflows -/

/-- A wallet with two moves between accounts. -/
def movesView : ListView exampleParams where
  __ := AccountView.exampleView
  wallet := ⟨∅, fun _ => true, 0⟩
  Hash := id
  mapValue _ := []
  entries := [⟨"a", -5, 1400000000, "b", ""⟩, ⟨"b", 5, 1400000000, "a", ""⟩]

theorem inOrder_movesView : movesView.wallet.inOrder = [] := by
  have hkeys : movesView.wallet.mapWallet.keys.sort (· ≤ ·) = [] := Finset.sort_empty _
  rw [CWallet.inOrder, hkeys]
  rfl

theorem txItems_movesView (strAccount : String) : movesView.txItems strAccount =
    (movesView.listAccountCreditDebit strAccount).map .acentry := by
  rw [txItems, inOrder_movesView]
  rfl

theorem listtransactions_movesView : movesView.listtransactions "*" 1 1 =
    .ok [[("account", .str "a"), ("category", .str "move"), ("time", .int 1400000000),
      ("amount", .amount (-5)), ("otheraccount", .str "b"), ("comment", .str "")]] := by
  have hlength : (movesView.newestFirst "*").length < 2 ^ 31 := by
    rw [newestFirst, txByTime, txItems_movesView]
    decide +kernel
  have hslice := ((listtransactions_eq_slice_iff movesView "*" 1 1 (by decide) (by decide)).2.2
    hlength).mpr (.inr (by decide))
  rw [hslice, slice, newestFirst, txByTime, txItems_movesView]
  decide +kernel

/-- To take all that follows the newest entry, with the largest count, overflows. -/
theorem not_forall_listtransactions_eq_slice :
    ¬∀ (v : ListView exampleParams) (strAccount : String) (nCount nFrom : ℤ),
      (0 ≤ nCount ∧ nCount < 2 ^ 31) → (0 ≤ nFrom ∧ nFrom < 2 ^ 31) →
        v.listtransactions strAccount nCount nFrom = .ok (v.slice strAccount nCount nFrom) := by
  intro hall
  have hslice := hall movesView "*" (2 ^ 31 - 1) 1 (by decide) (by decide)
  rw [listtransactions_ok_iff (by decide) (by decide), txItems_movesView] at hslice
  obtain hnil | hfits := hslice
  · exact absurd hnil (by decide)
  · exact absurd hfits.wanted (by decide)

end ListView

end FoxCoin
