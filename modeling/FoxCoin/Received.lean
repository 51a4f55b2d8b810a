import FoxCoin.Accounts
import FoxCoin.WalletCaches
import Mathlib.Data.String.Basic

/-! # Amounts received

`getreceivedbyopening` adds up the outputs with the script of an address. The calls
`getreceivedbyaccount` and `ListReceived` take the outputs with a destination, of which
`ListReceived` makes a tally that it reads along the address book. Amounts are exact. -/

namespace FoxCoin

open Postings Overlay

/-! ## The script of an address -/

/-- `CScript::SetDestination`. -/
def CTxDestination.setDestination : CTxDestination → CScript
  | .noDestination => []
  | .keyID id => CacheWallet.scriptForKeyID id
  | .scriptID id => [0xa9, 20] ++ id ++ [0x87]

/-- A destination with an id of 160 bits. -/
def CTxDestination.HasId : CTxDestination → Prop
  | .noDestination => False
  | .keyID id => id.length = 20
  | .scriptID id => id.length = 20

theorem solver_scriptForKeyID {id : Valtype} (hlen : id.length = 20) :
    solver (CacheWallet.scriptForKeyID id) = some (.txPubkeyhash, [id]) := by
  match id, hlen with
  | [_, _, _, _, _, _, _, _, _, _, _, _, _, _, _, _, _, _, _, _], _ => rfl

theorem solver_scriptForScriptID {id : Valtype} (hlen : id.length = 20) :
    solver ([0xa9, 20] ++ id ++ [0x87]) = some (.txScripthash, [id]) := by
  match id, hlen with
  | [_, _, _, _, _, _, _, _, _, _, _, _, _, _, _, _, _, _, _, _], _ => rfl

/-- The script of an address pays to it. -/
theorem extractDestination_setDestination {address : CTxDestination} (getID : Valtype → Valtype)
    (h : address.HasId) :
    extractDestination getID address.setDestination = some address := by
  cases address with
  | noDestination => exact h.elim
  | keyID id =>
    rw [CTxDestination.setDestination, extractDestination, solver_scriptForKeyID h]
    rfl
  | scriptID id =>
    rw [CTxDestination.setDestination, extractDestination, solver_scriptForScriptID h]
    rfl

/-! ## The code -/

/-- `tallyitem`. -/
structure TallyItem where
  nAmount : ℤ
  nConf : ℤ

/-- A new `tallyitem`, with the largest `int`. -/
def TallyItem.new : TallyItem := ⟨0, 2 ^ 31 - 1⟩

/-- What a round of a loop does to `mapTally[key]`. -/
def tallyAt {K : Type} [DecidableEq K] (mapTally : StdMap K TallyItem) (key : K)
    (nAmount nConf : ℤ) : StdMap K TallyItem :=
  let item := (mapTally.lookup key).getD .new
  mapTally.insert key ⟨item.nAmount + nAmount, min item.nConf nConf⟩

/-- An object of the reply: what it is about, its account, and the amount. -/
structure ReceivedObject where
  opening : Option CTxDestination
  account : String
  amount : ℤ
  confirmations : ℤ

/-- The field `confirmations`. -/
def TallyItem.confirmations (item : TallyItem) : ℤ :=
  if item.nConf = TallyItem.new.nConf then 0 else item.nConf

namespace AccountView

variable {P : Params} (v : AccountView P) (nMinDepth : ℤ)

/-- The amount that `getreceivedbyopening` returns for a valid address. -/
def getreceivedbyopening (address : CTxDestination) : ℤ :=
  let scriptPubKey := address.setDestination
  if v.wallet.isMine scriptPubKey = false then 0
  else (v.wallet.inOrder.map fun entry =>
    if entry.2.tx.isCoinBase || !v.isFinal entry.2 then 0
    else (entry.2.tx.vout.map fun txout =>
      if txout.scriptPubKey = scriptPubKey then
        if v.getDepth entry.1 entry.2 ≥ nMinDepth then txout.nValue else 0
      else 0).sum).sum

/-- `GetAccountAddresses`. -/
def getAccountAddresses (strAccount : String) : Finset CTxDestination :=
  ((v.mapAddressBook.entries.filter fun item => item.2 == strAccount).map Sigma.fst).toFinset

/-- `AccountFromValue`, which throws for `"*"`. -/
def accountFromValue (strAccount : String) : Option String :=
  if strAccount = "*" then none else some strAccount

/-- The amount that `getreceivedbyaccount` returns; `none` when it throws. -/
def getreceivedbyaccount (strAccount : String) : Option ℤ :=
  (accountFromValue strAccount).map fun strAccount =>
    let setAddress := v.getAccountAddresses strAccount
    (v.wallet.inOrder.map fun entry =>
      if entry.2.tx.isCoinBase || !v.isFinal entry.2 then 0
      else (entry.2.tx.vout.map fun txout =>
        match extractDestination v.getID txout.scriptPubKey with
        | none => 0
        | some address =>
          if v.isMineDestination address && decide (address ∈ setAddress) then
            if v.getDepth entry.1 entry.2 ≥ nMinDepth then txout.nValue else 0
          else 0).sum).sum

/-- The loop of `ListReceived` over the outputs of a transaction. -/
def tallyOut (nDepth : ℤ) (mapTally : StdMap CTxDestination TallyItem) (txout : CTxOut) :
    StdMap CTxDestination TallyItem :=
  match extractDestination v.getID txout.scriptPubKey with
  | none => mapTally
  | some address =>
    if v.isMineDestination address then tallyAt mapTally address txout.nValue nDepth else mapTally

/-- A round of the loop of `ListReceived` over the wallet. -/
def tallyTx (mapTally : StdMap CTxDestination TallyItem) (entry : Uint256 × CWalletTx) :
    StdMap CTxDestination TallyItem :=
  if entry.2.tx.isCoinBase || !v.isFinal entry.2 then mapTally
  -- here the depth is looked at before the outputs
  else if v.getDepth entry.1 entry.2 < nMinDepth then mapTally
  else entry.2.tx.vout.foldl (v.tallyOut (v.getDepth entry.1 entry.2)) mapTally

/-- `mapTally`. The source files it under `CFoxcoinAddress(address)`, which tells the destinations
apart. -/
def mapTally : StdMap CTxDestination TallyItem := v.wallet.inOrder.foldl (v.tallyTx nMinDepth) ∅

/-- The item that a round of the loop over the address book works with. -/
def bookItem (fIncludeEmpty : Bool) (address : CTxDestination) : Option TallyItem :=
  match (v.mapTally nMinDepth).lookup address with
  | none => if fIncludeEmpty then some .new else none
  | some item => some item

/-- `listreceivedbyopening`. -/
def listreceivedbyopening (fIncludeEmpty : Bool) : List ReceivedObject :=
  v.mapAddressBook.entries.filterMap fun entry =>
    (v.bookItem nMinDepth fIncludeEmpty entry.1).map fun item =>
      ⟨some entry.1, entry.2, item.nAmount, item.confirmations⟩

/-- `mapAccountTally`. -/
def mapAccountTally (fIncludeEmpty : Bool) : StdMap String TallyItem :=
  v.mapAddressBook.entries.foldl (fun mapAccountTally entry =>
    match v.bookItem nMinDepth fIncludeEmpty entry.1 with
    | none => mapAccountTally
    | some item => tallyAt mapAccountTally entry.2 item.nAmount item.nConf) ∅

/-- `listreceivedbyaccount`. -/
def listreceivedbyaccount (fIncludeEmpty : Bool) : List ReceivedObject :=
  ((v.mapAccountTally nMinDepth fIncludeEmpty).keys.sort (· ≤ ·)).map fun account =>
    let item := ((v.mapAccountTally nMinDepth fIncludeEmpty).lookup account).getD .new
    ⟨none, account, item.nAmount, item.confirmations⟩

/-! ## What is compared -/

/-- The amount that `listreceivedbyopening` reports for an address, `0` when it is not listed. -/
def reportedByOpening (fIncludeEmpty : Bool) (address : CTxDestination) : ℤ :=
  (((v.listreceivedbyopening nMinDepth fIncludeEmpty).find? fun obj =>
    obj.opening == some address).map ReceivedObject.amount).getD 0

/-- The amount that `listreceivedbyaccount` reports for an account, `0` when it is not listed. -/
def reportedByAccount (fIncludeEmpty : Bool) (account : String) : ℤ :=
  (((v.listreceivedbyaccount nMinDepth fIncludeEmpty).find? fun obj =>
    obj.account == account).map ReceivedObject.amount).getD 0

/-- The outputs of a transaction, if it counts. -/
def countedOutsOf (entry : Uint256 × CWalletTx) : List CTxOut :=
  if entry.2.tx.isCoinBase || !v.isFinal entry.2 then []
  else if v.getDepth entry.1 entry.2 < nMinDepth then [] else entry.2.tx.vout

/-- The outputs of the transactions that count. -/
def countedOuts : List CTxOut := v.wallet.inOrder.flatMap (v.countedOutsOf nMinDepth)

/-- The value of the outputs that count and meet a condition. -/
def countedValue (f : CTxOut → Bool) : ℤ :=
  ((v.countedOuts nMinDepth).map fun txout => if f txout then txout.nValue else 0).sum

/-- An output that pays to the address. -/
def paysTo (address : CTxDestination) (txout : CTxOut) : Bool :=
  extractDestination v.getID txout.scriptPubKey == some address

/-- The value of the outputs that count, pay to the address, and are left out by
`getreceivedbyopening`: those with another script, and all of them when the wallet does not take the
script of the address as its own. -/
def missedValue (address : CTxDestination) : ℤ :=
  v.countedValue nMinDepth fun txout => v.paysTo address txout &&
    !(v.wallet.isMine address.setDestination && txout.scriptPubKey == address.setDestination)

/-! ## Sums over the outputs that count -/

/-- The value of the outputs of a list that meet a condition. -/
def valueWhere (f : CTxOut → Bool) (vout : List CTxOut) : ℤ :=
  (vout.map fun txout => if f txout then txout.nValue else 0).sum

variable {v nMinDepth} {f g : CTxOut → Bool} {address : CTxDestination} {fIncludeEmpty : Bool}
  {a : String}

@[simp] theorem valueWhere_nil : valueWhere f [] = 0 := rfl

@[simp] theorem valueWhere_cons (txout : CTxOut) (vout : List CTxOut) :
    valueWhere f (txout :: vout) = (if f txout then txout.nValue else 0) + valueWhere f vout := rfl

@[simp] theorem valueWhere_append (vout vout' : List CTxOut) :
    valueWhere f (vout ++ vout') = valueWhere f vout + valueWhere f vout' := by
  rw [valueWhere, List.map_append, List.sum_append, valueWhere, valueWhere]

theorem valueWhere_congr {vout : List CTxOut} (h : ∀ txout ∈ vout, f txout = g txout) :
    valueWhere f vout = valueWhere g vout := by
  rw [valueWhere, valueWhere]
  congr 1
  exact List.map_congr_left fun txout htxout => by rw [h txout htxout]

/-- A condition and its opposite. -/
theorem valueWhere_add (f g : CTxOut → Bool) (vout : List CTxOut) :
    valueWhere (fun txout => f txout && g txout) vout +
      valueWhere (fun txout => f txout && !g txout) vout = valueWhere f vout := by
  induction vout with
  | nil => rfl
  | cons txout vout ih =>
    simp only [valueWhere_cons, ← ih]
    cases f txout <;> cases g txout <;> simp <;> ring

theorem countedValue_eq : v.countedValue nMinDepth f = valueWhere f (v.countedOuts nMinDepth) := rfl

/-- A sum over the wallet that leaves out the transactions that do not count. -/
theorem valueWhere_countedOuts (f : CTxOut → Bool) :
    valueWhere f (v.countedOuts nMinDepth) =
      (v.wallet.inOrder.map fun entry => valueWhere f (v.countedOutsOf nMinDepth entry)).sum := by
  rw [countedOuts]
  induction v.wallet.inOrder with
  | nil => rfl
  | cons entry entries ih =>
    rw [List.flatMap_cons, valueWhere_append, ih, List.map_cons, List.sum_cons]

/-- What a call adds for a transaction, where it looks at the depth output by output. -/
theorem valueWhere_countedOutsOf (f : CTxOut → Bool) (entry : Uint256 × CWalletTx) :
    valueWhere f (v.countedOutsOf nMinDepth entry) =
      if entry.2.tx.isCoinBase || !v.isFinal entry.2 then 0
      else (entry.2.tx.vout.map fun txout =>
        if f txout then if v.getDepth entry.1 entry.2 ≥ nMinDepth then txout.nValue else 0
        else 0).sum := by
  rw [countedOutsOf]
  by_cases hskip : (entry.2.tx.isCoinBase || !v.isFinal entry.2) = true
  · rw [if_pos hskip, if_pos hskip, valueWhere_nil]
  · rw [if_neg hskip, if_neg hskip]
    by_cases hdepth : v.getDepth entry.1 entry.2 < nMinDepth
    · -- every output adds zero
      simp [not_le.mpr hdepth, hdepth]
    · rw [if_neg hdepth]
      simp only [ge_iff_le, not_lt.mp hdepth, if_true]
      rfl

theorem getreceivedbyopening_eq :
    v.getreceivedbyopening nMinDepth address = v.countedValue nMinDepth fun txout =>
      v.wallet.isMine address.setDestination && txout.scriptPubKey == address.setDestination := by
  rw [countedValue_eq, valueWhere_countedOuts, getreceivedbyopening]
  simp only [valueWhere_countedOutsOf]
  cases v.wallet.isMine address.setDestination with
  | false => simp
  | true => simp only [Bool.true_eq_false, if_false, Bool.true_and, beq_iff_eq]

/-- An output of an own address of the account. -/
def paysToAccount (v : AccountView P) (a : String) (txout : CTxOut) : Bool :=
  (extractDestination v.getID txout.scriptPubKey).any fun address =>
    v.isMineDestination address && decide (address ∈ v.getAccountAddresses a)

theorem getreceivedbyaccount_eq (ha : a ≠ "*") :
    v.getreceivedbyaccount nMinDepth a = some (v.countedValue nMinDepth (v.paysToAccount a)) := by
  rw [countedValue_eq, valueWhere_countedOuts, getreceivedbyaccount, accountFromValue, if_neg ha,
    Option.map_some]
  simp only [valueWhere_countedOutsOf]
  congr 2
  refine List.map_congr_left fun entry _ => ?_
  by_cases hskip : (entry.2.tx.isCoinBase || !v.isFinal entry.2) = true
  · rw [if_pos hskip, if_pos hskip]
  · rw [if_neg hskip, if_neg hskip]
    congr 1
    refine List.map_congr_left fun txout _ => ?_
    rw [paysToAccount]
    cases extractDestination v.getID txout.scriptPubKey with
    | none => rfl
    | some address => rfl

/-! ## The tally -/

/-- The amount of an item of a tally, `0` where there is none. -/
def tallied {K : Type} [DecidableEq K] (m : StdMap K TallyItem) (key : K) : ℤ :=
  ((m.lookup key).map TallyItem.nAmount).getD 0

theorem tallied_tallyAt {K : Type} [DecidableEq K] (m : StdMap K TallyItem) (key : K)
    (nAmount nConf : ℤ) (key' : K) :
    tallied (tallyAt m key nAmount nConf) key' =
      tallied m key' + if key = key' then nAmount else 0 := by
  rw [tallied, tallyAt, lookup_insert_eq_ite]
  by_cases hkey : key' = key
  · subst hkey
    rw [if_pos rfl, if_pos rfl, tallied]
    cases m.lookup key' with
    | none => rfl
    | some item => rfl
  · rw [if_neg hkey, if_neg (Ne.symm hkey), add_zero, tallied]

/-- The loop over the outputs of a transaction. -/
theorem tallied_foldl_tallyOut (nDepth : ℤ) (vout : List CTxOut) (m : StdMap CTxDestination TallyItem) :
    tallied (vout.foldl (v.tallyOut nDepth) m) address = tallied m address +
      valueWhere (fun txout => v.paysTo address txout && v.isMineDestination address) vout := by
  induction vout generalizing m with
  | nil => simp
  | cons txout vout ih =>
    have hstep : tallied (v.tallyOut nDepth m txout) address = tallied m address +
        if v.paysTo address txout && v.isMineDestination address then txout.nValue else 0 := by
      rw [tallyOut, paysTo]
      cases extractDestination v.getID txout.scriptPubKey with
      | none => simp
      | some address' =>
        by_cases haddress : address' = address
        · subst haddress
          by_cases hmine : v.isMineDestination address' = true
          · simp [hmine, tallied_tallyAt]
          · simp [hmine]
        · by_cases hmine : v.isMineDestination address' = true
          · simp [hmine, tallied_tallyAt, haddress]
          · simp [hmine, haddress]
    rw [List.foldl_cons, ih, hstep, valueWhere_cons, add_assoc]

/-- **The tally of an address**: the value of the outputs that count and pay to it. -/
theorem tallied_mapTally : tallied (v.mapTally nMinDepth) address =
    v.countedValue nMinDepth fun txout => v.paysTo address txout && v.isMineDestination address := by
  have hfold : ∀ (entries : List (Uint256 × CWalletTx)) (m : StdMap CTxDestination TallyItem),
      tallied (entries.foldl (v.tallyTx nMinDepth) m) address = tallied m address +
        valueWhere (fun txout => v.paysTo address txout && v.isMineDestination address)
          (entries.flatMap (v.countedOutsOf nMinDepth)) := by
    intro entries
    induction entries with
    | nil => simp
    | cons entry entries ih =>
      intro m
      rw [List.foldl_cons, ih, List.flatMap_cons, valueWhere_append, ← add_assoc, tallyTx,
        countedOutsOf]
      split_ifs
      · simp
      · simp
      · rw [tallied_foldl_tallyOut]
  rw [mapTally, hfold, countedValue_eq, countedOuts]
  simp [tallied]

theorem amount_bookItem (fIncludeEmpty : Bool) (address : CTxDestination) :
    ((v.bookItem nMinDepth fIncludeEmpty address).map TallyItem.nAmount).getD 0 =
      tallied (v.mapTally nMinDepth) address := by
  rw [bookItem, tallied]
  cases (v.mapTally nMinDepth).lookup address with
  | none => cases fIncludeEmpty <;> rfl
  | some item => rfl

theorem find?_beq {K : Type} [DecidableEq K] (l : List K) (a : K) :
    (l.find? fun k => k == a) = if a ∈ l then some a else none := by
  by_cases ha : a ∈ l
  · have hsome : (l.find? fun k => k == a).isSome = true :=
      List.find?_isSome.mpr ⟨a, ha, beq_self_eq_true a⟩
    obtain ⟨k, hk⟩ := Option.isSome_iff_exists.mp hsome
    have hka : (k == a) = true := List.find?_some (p := fun k => k == a) hk
    rw [if_pos ha, hk, eq_of_beq hka]
  · rw [if_neg ha]
    exact List.find?_eq_none.mpr fun k hk heq => ha (eq_of_beq heq ▸ hk)

/-- **What `listreceivedbyopening` reports** for an address of the book. -/
theorem reportedByOpening_eq (hbook : address ∈ v.mapAddressBook) :
    v.reportedByOpening nMinDepth fIncludeEmpty address = tallied (v.mapTally nMinDepth) address := by
  have hfind : ∀ entries : List (Sigma fun _ : CTxDestination => String),
      (((entries.filterMap fun entry => (v.bookItem nMinDepth fIncludeEmpty entry.1).map fun item =>
        (⟨some entry.1, entry.2, item.nAmount, item.confirmations⟩ : ReceivedObject)).find?
          fun obj => obj.opening == some address).map ReceivedObject.amount).getD 0 =
        if address ∈ entries.map Sigma.fst then tallied (v.mapTally nMinDepth) address else 0 := by
    intro entries
    induction entries with
    | nil => rfl
    | cons entry entries ih =>
      have hamount : ((v.bookItem nMinDepth fIncludeEmpty entry.1).map TallyItem.nAmount).getD 0 =
          tallied (v.mapTally nMinDepth) entry.1 := amount_bookItem fIncludeEmpty entry.1
      simp only [List.map_cons, List.mem_cons]
      by_cases haddress : address = entry.1
      · -- an address that is left out has no tally, as the rest of the book shows too
        rw [if_pos (.inl haddress), haddress, ← hamount]
        rw [haddress, ← hamount] at ih
        cases hitem : v.bookItem nMinDepth fIncludeEmpty entry.1 with
        | none =>
          rw [hitem] at ih
          rw [List.filterMap_cons_none (by rw [hitem]; rfl), ih]
          exact ite_self _
        | some item =>
          rw [List.filterMap_cons_some (by rw [hitem]; rfl), List.find?_cons_of_pos (by simp)]
          rfl
      · have hmem : (address = entry.1 ∨ address ∈ entries.map Sigma.fst) ↔
            address ∈ entries.map Sigma.fst := or_iff_right haddress
        simp only [hmem]
        cases hitem : v.bookItem nMinDepth fIncludeEmpty entry.1 with
        | none => rw [List.filterMap_cons_none (by rw [hitem]; rfl), ih]
        | some item =>
          rw [List.filterMap_cons_some (by rw [hitem]; rfl),
            List.find?_cons_of_neg (by simpa using Ne.symm haddress), ih]
  exact (hfind _).trans (if_pos (AList.mem_keys.mp hbook))

/-- The object of an account shows its tally. -/
theorem reportedByAccount_eq_tallied : v.reportedByAccount nMinDepth fIncludeEmpty a =
    tallied (v.mapAccountTally nMinDepth fIncludeEmpty) a := by
  have hfind := find?_beq ((v.mapAccountTally nMinDepth fIncludeEmpty).keys.sort (· ≤ ·)) a
  rw [reportedByAccount, listreceivedbyaccount, List.find?_map, tallied]
  refine (congrArg (fun o => ((Option.map _ o).map ReceivedObject.amount).getD 0) hfind).trans ?_
  simp only [Finset.mem_sort, Finmap.mem_keys]
  cases hitem : (v.mapAccountTally nMinDepth fIncludeEmpty).lookup a with
  | none =>
    rw [if_neg (Finmap.lookup_eq_none.mp hitem)]
    rfl
  | some item =>
    rw [if_pos (Finmap.mem_of_lookup_eq_some hitem)]
    simp only [Option.map_some, hitem, Option.getD_some]

/-- **What `listreceivedbyaccount` reports** for an account: the tallies of its addresses. -/
theorem reportedByAccount_eq : v.reportedByAccount nMinDepth fIncludeEmpty a =
    (v.mapAddressBook.entries.map fun entry =>
      if entry.2 = a then tallied (v.mapTally nMinDepth) entry.1 else 0).sum := by
  have hfold : ∀ (entries : List (Sigma fun _ : CTxDestination => String)) (m : StdMap String TallyItem),
      tallied (entries.foldl (fun mapAccountTally entry =>
        match v.bookItem nMinDepth fIncludeEmpty entry.1 with
        | none => mapAccountTally
        | some item => tallyAt mapAccountTally entry.2 item.nAmount item.nConf) m) a =
      tallied m a + (entries.map fun entry =>
        if entry.2 = a then tallied (v.mapTally nMinDepth) entry.1 else 0).sum := by
    intro entries
    induction entries with
    | nil => simp
    | cons entry entries ih =>
      intro m
      rw [List.foldl_cons, ih, List.map_cons, List.sum_cons, ← add_assoc,
        ← amount_bookItem fIncludeEmpty]
      cases v.bookItem nMinDepth fIncludeEmpty entry.1 with
      | none => simp
      | some item => simp [tallied_tallyAt]
  rw [reportedByAccount_eq_tallied, mapAccountTally, hfold]
  simp [tallied]

/-! ## The comparison -/

/-- What is reported for an address is what `getreceivedbyopening` returns and what it misses. -/
theorem reportedByOpening_eq_add (hid : address.HasId) (hbook : address ∈ v.mapAddressBook)
    (hmine : v.isMineDestination address = true) :
    v.reportedByOpening nMinDepth fIncludeEmpty address =
      v.getreceivedbyopening nMinDepth address + v.missedValue nMinDepth address := by
  have hscript : ∀ txout ∈ v.countedOuts nMinDepth,
      (v.wallet.isMine address.setDestination && txout.scriptPubKey == address.setDestination) =
        (v.paysTo address txout &&
          (v.wallet.isMine address.setDestination && txout.scriptPubKey == address.setDestination)) := by
    intro txout _
    by_cases heq : txout.scriptPubKey = address.setDestination
    · have hpays : v.paysTo address txout = true := by
        rw [paysTo, heq, extractDestination_setDestination v.getID hid, beq_self_eq_true]
      rw [hpays, Bool.true_and]
    · rw [beq_eq_false_iff_ne.mpr heq, Bool.and_false, Bool.and_false]
  rw [reportedByOpening_eq hbook, tallied_mapTally, getreceivedbyopening_eq, missedValue,
    countedValue_eq, countedValue_eq, countedValue_eq, valueWhere_congr hscript, valueWhere_add]
  simp only [hmine, Bool.and_true]

/-- A sum over the entries of a book that have a label and a key, of which there is one at most. -/
theorem sum_entries_ite {entries : List (Sigma fun _ : CTxDestination => String)}
    (hnodup : (entries.map Sigma.fst).Nodup) (a : String) (address : CTxDestination) (n : ℤ) :
    (entries.map fun entry => if entry.2 = a then if address = entry.1 then n else 0 else 0).sum =
      if address ∈ (entries.filter fun entry => entry.2 == a).map Sigma.fst then n else 0 := by
  induction entries with
  | nil => rfl
  | cons entry entries ih =>
    rw [List.map_cons, List.nodup_cons] at hnodup
    rw [List.map_cons, List.sum_cons, ih hnodup.2]
    by_cases hname : entry.2 = a
    · rw [if_pos hname, List.filter_cons_of_pos (by simpa using hname)]
      simp only [List.map_cons, List.mem_cons]
      by_cases haddress : address = entry.1
      · -- a book has an address once
        have hrest : address ∉ (entries.filter fun entry => entry.2 == a).map Sigma.fst := by
          rw [haddress]
          exact fun hmem => hnodup.1 (List.map_subset _ (List.filter_subset_self _) hmem)
        rw [if_pos haddress, if_neg hrest, if_pos (.inl haddress), add_zero]
      · simp only [haddress, if_false, false_or, zero_add]
    · rw [if_neg hname, List.filter_cons_of_neg (by simpa using hname), zero_add]

/-- Over the book, an output is counted once for its account. -/
theorem sum_book_paysTo (txout : CTxOut) : (v.mapAddressBook.entries.map fun entry =>
      if entry.2 = a then
        if v.paysTo entry.1 txout && v.isMineDestination entry.1 then txout.nValue else 0
      else 0).sum = if v.paysToAccount a txout then txout.nValue else 0 := by
  cases hdest : extractDestination v.getID txout.scriptPubKey with
  | none => simp [paysTo, paysToAccount, hdest]
  | some address =>
    have hsum := sum_entries_ite (AList.nodupKeys v.mapAddressBook) a address
      (if v.isMineDestination address then txout.nValue else 0)
    have hterm : ∀ entry ∈ v.mapAddressBook.entries,
        (if entry.2 = a then
          if v.paysTo entry.1 txout && v.isMineDestination entry.1 then txout.nValue else 0
        else 0) =
        if entry.2 = a then
          if address = entry.1 then (if v.isMineDestination address then txout.nValue else 0) else 0
        else 0 := by
      intro entry _
      rw [paysTo, hdest]
      by_cases haddress : address = entry.1
      · simp [haddress]
      · simp [haddress]
    rw [List.map_congr_left hterm, hsum, paysToAccount, hdest, Option.any_some, getAccountAddresses]
    simp only [List.mem_toFinset, Bool.and_eq_true, decide_eq_true_iff]
    by_cases hmine : v.isMineDestination address = true
    · simp only [hmine, if_true, true_and]
    · simp only [hmine, Bool.false_eq_true, if_false, ite_self, false_and]

/-- Two sums in the other order. -/
theorem sum_book_valueWhere (vout : List CTxOut) : (v.mapAddressBook.entries.map fun entry =>
      if entry.2 = a then
        valueWhere (fun txout => v.paysTo entry.1 txout && v.isMineDestination entry.1) vout
      else 0).sum = valueWhere (v.paysToAccount a) vout := by
  induction vout with
  | nil => simp
  | cons txout vout ih =>
    rw [valueWhere_cons, ← ih, ← sum_book_paysTo, ← List.sum_map_add]
    congr 1
    refine List.map_congr_left fun entry _ => ?_
    by_cases hname : entry.2 = a
    · rw [if_pos hname, if_pos hname, if_pos hname, valueWhere_cons]
    · rw [if_neg hname, if_neg hname, if_neg hname, add_zero]

/-- What is reported for an account is what `getreceivedbyaccount` returns. -/
theorem reportedByAccount_eq_getreceivedbyaccount (ha : a ≠ "*") :
    v.getreceivedbyaccount nMinDepth a = some (v.reportedByAccount nMinDepth fIncludeEmpty a) := by
  rw [getreceivedbyaccount_eq ha, reportedByAccount_eq, countedValue_eq, ← sum_book_valueWhere]
  simp only [tallied_mapTally, countedValue_eq]

/-- **The calls agree on every account, and on an address exactly when nothing is missed**: the
outputs that count and pay to it with another script than its own, or all of them where the wallet
does not take the script of the address as its own, are worth nothing. -/
theorem received_agree_iff (v : AccountView P) (nMinDepth : ℤ) (fIncludeEmpty : Bool) :
    (∀ address : CTxDestination, address.HasId → address ∈ v.mapAddressBook →
      v.isMineDestination address = true →
      (v.reportedByOpening nMinDepth fIncludeEmpty address =
          v.getreceivedbyopening nMinDepth address ↔ v.missedValue nMinDepth address = 0)) ∧
    ∀ a ≠ "*",
      v.getreceivedbyaccount nMinDepth a = some (v.reportedByAccount nMinDepth fIncludeEmpty a) :=
  ⟨fun _ hid hbook hmine => by rw [reportedByOpening_eq_add hid hbook hmine, add_eq_left],
    fun _ ha => reportedByAccount_eq_getreceivedbyaccount ha⟩

/-! ## An output that pays to a public key -/

/-- The wallet's parameters are those of its keys and scripts. -/
structure OwnedBy (v : AccountView P) (o : Ownership) : Prop where
  isMine : v.wallet.isMine = o.isMineScript v.getID (o.mapScripts.keys.card + 1)
  haveKey : v.haveKey = fun id => decide (id ∈ o.setKeys)
  haveCScript : v.haveCScript = fun id => decide (id ∈ o.mapScripts)

/-- A wallet with one key. -/
def keyOwnership : Ownership := ⟨{List.replicate 20 2}, ∅, ∅⟩

/-- A payment of 50 with the script, in the first block. -/
def paymentTo (scriptPubKey : CScript) : CWalletTx :=
  { CWalletTx.ofTx ⟨1, [⟨⟨2, 0⟩, [], uintMax⟩], [⟨50, scriptPubKey⟩], 0⟩ with
    hashBlock := 11, nIndex := 0 }

/-- A wallet with the key in its address book, and the payment. -/
def paidView (scriptPubKey : CScript) : AccountView exampleParams where
  node := fortyBlocks
  nAdjustedTime := 1400009000
  wallet := ⟨(∅ : StdMap Uint256 CWalletTx).insert 3 (paymentTo scriptPubKey),
    keyOwnership.isMineScript CacheWallet.exampleHash160 1, 0⟩
  txInfo _ := ⟨true, "", false, 0, false, 0⟩
  getID := CacheWallet.exampleHash160
  haveKey id := decide (id ∈ keyOwnership.setKeys)
  haveCScript id := decide (id ∈ keyOwnership.mapScripts)
  mapAddressBook := (∅ : AList fun _ : CTxDestination => String).insert
    (.keyID (List.replicate 20 2)) "label"
  acentries := []

theorem ownedBy_paidView (scriptPubKey : CScript) :
    (paidView scriptPubKey).OwnedBy keyOwnership :=
  ⟨rfl, rfl, rfl⟩

theorem inOrder_paidView (scriptPubKey : CScript) :
    (paidView scriptPubKey).wallet.inOrder = [(3, paymentTo scriptPubKey)] := by
  have hkeys : (paidView scriptPubKey).wallet.mapWallet.keys.sort (· ≤ ·) = [3] :=
    Finset.sort_singleton _ _
  rw [CWallet.inOrder, hkeys]
  rfl

/-- The script that pays to a public key. -/
def pubkeyScript : CScript := 33 :: List.replicate 33 2 ++ [0xac]

/-- What is paid to the public key of an address is listed for the address, and missed by
`getreceivedbyopening`. -/
theorem not_forall_received_agree :
    ¬∀ (v : AccountView exampleParams) (o : Ownership) (nMinDepth : ℤ) (fIncludeEmpty : Bool)
      (address : CTxDestination), v.OwnedBy o → address.HasId → address ∈ v.mapAddressBook →
        v.isMineDestination address = true →
        v.reportedByOpening nMinDepth fIncludeEmpty address =
          v.getreceivedbyopening nMinDepth address := by
  intro hall
  -- the script that `SetDestination` makes pays to the hash, and the output pays to the key
  have hsame := hall (paidView pubkeyScript) keyOwnership 1 false (.keyID (List.replicate 20 2))
    (ownedBy_paidView _) rfl (by decide) (by decide)
  have hadd : (paidView pubkeyScript).reportedByOpening 1 false (.keyID (List.replicate 20 2)) = _ :=
    reportedByOpening_eq_add rfl (by decide) (by decide)
  rw [hsame, left_eq_add, missedValue, countedValue, countedOuts, inOrder_paidView] at hadd
  exact absurd hadd (by decide +kernel)

end AccountView

end FoxCoin
