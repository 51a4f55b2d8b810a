import FoxCoin.AddrFile
import FoxCoin.CString
import FoxCoin.Lib.Overlay
import FoxCoin.Lib.RangeScan

/-! # Accounting entries

A move between accounts writes two accounting entries to the wallet file, under keys of the account
and a number. The numbers come from a counter, which is found again when the wallet is loaded. The
entries of an account are listed by a scan over the keys, which the file has in the order of their
bytes. -/

namespace FoxCoin

open Wire Overlay RangeScan

/-! ## Entries and keys -/

/-- A `CAccountingEntry`, over a type of strings. -/
structure CAccountingEntry (Str : Type) where
  strAccount : Str
  nCreditDebit : ℤ
  nTime : ℤ
  strOtherAccount : Str
  strComment : Str
  deriving DecidableEq

/-- `CLIENT_VERSION`. -/
def clientVersion : ℤ := 1060000

/-- `Serialize` of an entry on disk. The account is in the key. -/
def CAccountingEntry.serialize (acentry : CAccountingEntry StdString) : List UInt8 :=
  intBytes 4 clientVersion ++ (intBytes 8 acentry.nCreditDebit ++ (intBytes 8 acentry.nTime ++
    (serializeVch acentry.strOtherAccount ++ serializeVch acentry.strComment)))

/-- `Unserialize` of an entry on disk. -/
def CAccountingEntry.read : Reader (CAccountingEntry StdString) := do
  let _nVersion ← readInt 4
  let nCreditDebit ← readInt 8
  let nTime ← readInt 8
  let strOtherAccount ← readVch
  (fun strComment => ⟨[], nCreditDebit, nTime, strOtherAccount, strComment⟩) <$> readVch

/-- The string `"acentry"`. -/
def acentryType : StdString := literal "acentry"

/-- The tuple of `"acentry"`, the account and the number. -/
def acentryKey (strAccount : StdString) (nNumber : ℕ) : List UInt8 :=
  serializeVch acentryType ++ (serializeVch strAccount ++ leBytes 8 nNumber)

/-- The wallet file, and the counter `nAccountingEntryNumber` of the process. -/
structure EntryWallet where
  file : StdMap (List UInt8) (List UInt8)
  nAccountingEntryNumber : ℕ

/-- The account that stands for all accounts. -/
def allAccounts : StdString := literal "*"

namespace EntryWallet

/-! ## The code -/

/-- `WriteAccountingEntry`. -/
def writeAccountingEntry (s : EntryWallet) (acentry : CAccountingEntry StdString) : EntryWallet :=
  let nAccountingEntryNumber := (s.nAccountingEntryNumber + 1) % 2 ^ 64
  ⟨s.file.insert (acentryKey acentry.strAccount nAccountingEntryNumber) acentry.serialize,
    nAccountingEntryNumber⟩

/-- The parameters of a `move`, the adjusted time, and whether the transaction of the database begins
and is committed. -/
structure MoveCall where
  strFrom : StdString
  strTo : StdString
  nAmount : ℤ
  strComment : StdString
  nNow : ℤ
  fTxnBegin : Bool
  fTxnCommit : Bool

/-- The entry of the account that is debited. -/
def MoveCall.debit (call : MoveCall) : CAccountingEntry StdString :=
  ⟨call.strFrom, -call.nAmount, call.nNow, call.strTo, call.strComment⟩

/-- The entry of the account that is credited. -/
def MoveCall.credit (call : MoveCall) : CAccountingEntry StdString :=
  ⟨call.strTo, call.nAmount, call.nNow, call.strFrom, call.strComment⟩

/-- `movecmd`. A transaction that is not committed leaves the file as it was. -/
def movecmd (s : EntryWallet) (call : MoveCall) : Except (ℤ × String) Unit × EntryWallet :=
  if call.strFrom = allAccounts ∨ call.strTo = allAccounts then
    (.error (-11, "Invalid account name"), s)
  else if call.fTxnBegin = false then (.error (-20, "database error"), s)
  else
    let s' := (s.writeAccountingEntry call.debit).writeAccountingEntry call.credit
    if call.fTxnCommit = false then (.error (-20, "database error"), { s' with file := s.file })
    else (.ok (), s')

/-- The records of the file from a key on. -/
def recordsFrom (s : EntryWallet) (start : List UInt8) : List (List UInt8 × List UInt8) :=
  ((s.file.keys.sort (· ≤ ·)).dropWhile fun key => decide (key < start)).filterMap fun key =>
    (s.file.lookup key).map fun value => (key, value)

/-- A round of the loop of `ListAccountCreditDebit`: it throws, ends the loop, or gives an entry. -/
def listRound (strAccount : StdString) (record : List UInt8 × List UInt8) :
    Option (Option (CAccountingEntry StdString)) := do
  let (strType, ssKey) ← readVch record.1
  if strType ≠ acentryType then some none
  else
    let (acentryAccount, _) ← readVch ssKey
    if strAccount ≠ allAccounts ∧ acentryAccount ≠ strAccount then some none
    else
      let (acentry, _) ← CAccountingEntry.read record.2
      some (some { acentry with strAccount := acentryAccount })

/-- The loop of `ListAccountCreditDebit`. -/
def listLoop (strAccount : StdString) :
    List (List UInt8 × List UInt8) → Option (List (CAccountingEntry StdString))
  | [] => some []
  | record :: records =>
    match listRound strAccount record with
    | none => none
    | some none => some []
    | some (some acentry) => (listLoop strAccount records).map fun entries => acentry :: entries

/-- `ListAccountCreditDebit`; `none` when it throws. -/
def listAccountCreditDebit (s : EntryWallet) (strAccount : StdString) :
    Option (List (CAccountingEntry StdString)) :=
  listLoop strAccount
    (s.recordsFrom (acentryKey (if strAccount = allAccounts then [] else strAccount) 0))

/-- `GetAccountCreditDebit`. -/
def getAccountCreditDebit (s : EntryWallet) (strAccount : StdString) : Option ℤ :=
  (s.listAccountCreditDebit strAccount).map fun entries =>
    (entries.map CAccountingEntry.nCreditDebit).sum

/-- What `LoadWallet` does with a record, as far as the counter goes. -/
def loadRecord (nAccountingEntryNumber : ℕ) (key : List UInt8) : Option ℕ := do
  let (strType, ssKey) ← readVch key
  if strType = acentryType then
    let (_, ssKey) ← readVch ssKey
    let (nNumber, _) ← readLe 8 ssKey
    some (if nNumber > nAccountingEntryNumber then nNumber else nAccountingEntryNumber)
  else some nAccountingEntryNumber

/-- A new process, whose counter is `0`, loads the wallet; `none` when it throws. -/
def restart (s : EntryWallet) : Option EntryWallet :=
  ((s.file.keys.sort (· ≤ ·)).foldlM loadRecord 0).map fun nAccountingEntryNumber =>
    { s with nAccountingEntryNumber }

/-! ## Runs -/

/-- What happens to a wallet: a move, a restart, and writing and erasing of other records. -/
inductive Event where
  | move (call : MoveCall)
  | restart
  | write (key value : List UInt8)
  | erase (key : List UInt8)

/-- The wallet after an event. -/
def next (s : EntryWallet) : Event → EntryWallet
  | .move call => (s.movecmd call).2
  | .restart => s.restart.getD s
  | .write key value => { s with file := s.file.insert key value }
  | .erase key => { s with file := s.file.erase key }

/-- The wallet after a list of events. -/
def run (s : EntryWallet) (es : List Event) : EntryWallet := es.foldl next s

/-- A key of a record of another type. -/
def OtherKey (key : List UInt8) : Prop :=
  ∃ strType rest, key = serializeVch strType ++ rest ∧ strType.length ≤ maxSize ∧
    strType ≠ acentryType

/-- The strings of an entry are such as can be read, which the size of a request ensures, and the
numbers are of 64 bits. -/
structure Fits (acentry : CAccountingEntry StdString) : Prop where
  strAccount : acentry.strAccount.length ≤ maxSize
  nCreditDebit : -2 ^ 63 ≤ acentry.nCreditDebit ∧ acentry.nCreditDebit < 2 ^ 63
  nTime : -2 ^ 63 ≤ acentry.nTime ∧ acentry.nTime < 2 ^ 63
  strOtherAccount : acentry.strOtherAccount.length ≤ maxSize
  strComment : acentry.strComment.length ≤ maxSize

/-- The events that may happen. -/
def Event.Legal : Event → Prop
  | .move call => Fits call.debit ∧ Fits call.credit
  | .restart => True
  | .write key _ => OtherKey key
  | .erase key => OtherKey key

/-- A move writes its entries, if it does not return an error. -/
def Event.written : Event → List (CAccountingEntry StdString)
  | .move call =>
    if call.strFrom = allAccounts ∨ call.strTo = allAccounts then []
    else if call.fTxnBegin = false ∨ call.fTxnCommit = false then []
    else [call.debit, call.credit]
  | _ => []

/-- How many moves an event is. -/
def Event.moves : Event → ℕ
  | .move _ => 1
  | _ => 0

/-- The number of moves of a run. -/
def movesOf (es : List Event) : ℕ := (es.map Event.moves).sum

/-- A new process with a wallet file that has no accounting entries. -/
structure Fresh (s : EntryWallet) : Prop where
  others : ∀ key, key ∈ s.file → OtherKey key
  nAccountingEntryNumber : s.nAccountingEntryNumber = 0

/-! ## Reading what is written -/

theorem reads_entry {acentry : CAccountingEntry StdString} (h : Fits acentry) :
    Reads CAccountingEntry.read acentry.serialize { acentry with strAccount := [] } :=
  (reads_readInt (m := 2 ^ 31) (by norm_num) (by norm_num [clientVersion])
    (by norm_num [clientVersion])).bind
    ((reads_readInt (m := 2 ^ 63) (by norm_num) h.nCreditDebit.1 h.nCreditDebit.2).bind
      ((reads_readInt (m := 2 ^ 63) (by norm_num) h.nTime.1 h.nTime.2).bind
        ((reads_readVch h.strOtherAccount).bind ((reads_readVch h.strComment).map _))))

theorem acentryType_length : acentryType.length ≤ maxSize := by decide

theorem allAccounts_length : allAccounts.length ≤ maxSize := by decide

/-- The type of a record of another type. -/
theorem OtherKey.readVch_eq {key : List UInt8} (h : OtherKey key) :
    ∃ strType rest, readVch key = some (strType, rest) ∧ strType ≠ acentryType := by
  obtain ⟨strType, rest, rfl, hlen, hne⟩ := h
  exact ⟨strType, rest, reads_readVch hlen rest, hne⟩

theorem readVch_acentryType (rest : List UInt8) :
    readVch (serializeVch acentryType ++ rest) = some (acentryType, rest) :=
  reads_readVch acentryType_length rest

/-- A key of an entry is not one of another type. -/
theorem OtherKey.not_isPrefix {key : List UInt8} (h : OtherKey key) :
    ¬serializeVch acentryType <+: key := by
  rintro ⟨rest, rfl⟩
  obtain ⟨strType, rest', hread, hne⟩ := h.readVch_eq
  -- both types are read from the same key
  rw [readVch_acentryType] at hread
  exact hne (Prod.mk.inj (Option.some.inj hread)).1.symm

theorem OtherKey.ne_acentryKey {key : List UInt8} (h : OtherKey key) (strAccount : StdString) (n : ℕ) :
    key ≠ acentryKey strAccount n := by
  rintro rfl
  exact h.not_isPrefix (List.prefix_append _ _)

/-- **A key tells the account and the number.** -/
theorem acentryKey_inj {a b : StdString} {n m : ℕ} (ha : a.length ≤ maxSize) (hb : b.length ≤ maxSize)
    (hn : n < 2 ^ 64) (hm : m < 2 ^ 64) (h : acentryKey a n = acentryKey b m) : a = b ∧ n = m := by
  have hrest := List.append_cancel_left h
  -- the account is read back from the key, and the number from what is left of it
  have hread := reads_readVch ha (leBytes 8 n)
  rw [hrest, reads_readVch hb] at hread
  obtain ⟨rfl, hbytes⟩ := Prod.mk.inj (Option.some.inj hread)
  have hnumber := reads_readLe (k := 8) (n := n) (by omega) []
  rw [← hbytes, reads_readLe (k := 8) (n := m) (by omega)] at hnumber
  exact ⟨rfl, (Prod.mk.inj (Option.some.inj hnumber)).1.symm⟩

theorem listRound_of_other {key : List UInt8} (h : OtherKey key) (strAccount : StdString)
    (value : List UInt8) : listRound strAccount (key, value) = some none := by
  obtain ⟨strType, rest, hread, hne⟩ := h.readVch_eq
  rw [listRound, hread]
  exact if_pos hne

theorem listRound_of_entry {acentry : CAccountingEntry StdString} (h : Fits acentry)
    (strAccount : StdString) (n : ℕ) :
    listRound strAccount (acentryKey acentry.strAccount n, acentry.serialize) =
      some (if strAccount = allAccounts ∨ acentry.strAccount = strAccount then some acentry
        else none) := by
  have hentry := (reads_entry h).run
  rw [listRound, acentryKey, readVch_acentryType]
  simp only [Option.bind_eq_bind, Option.bind_some, ne_eq, not_true_eq_false, if_false,
    reads_readVch h.strAccount (leBytes 8 n), hentry]
  by_cases hmatch : strAccount = allAccounts ∨ acentry.strAccount = strAccount
  · rw [if_pos hmatch, if_neg (by tauto)]
  · rw [if_neg hmatch, if_pos (by tauto)]

/-! ## The scan -/

/-- The entry that a record gives to the list of an account. -/
def entryOf (strAccount : StdString) (record : List UInt8 × List UInt8) :
    Option (CAccountingEntry StdString) := (listRound strAccount record).join

/-- The loop takes the entries up to the first record that gives none. -/
theorem listLoop_eq {strAccount : StdString} {records : List (List UInt8 × List UInt8)}
    (h : ∀ record ∈ records, (listRound strAccount record).isSome = true) :
    listLoop strAccount records =
      some ((records.takeWhile fun record => (entryOf strAccount record).isSome).filterMap
        (entryOf strAccount)) := by
  induction records with
  | nil => rfl
  | cons record records ih =>
    have hrest := ih fun r hr => h r (List.mem_cons_of_mem _ hr)
    obtain ⟨o, ho⟩ := Option.isSome_iff_exists.mp (h record List.mem_cons_self)
    rw [listLoop, ho]
    cases o with
    | none =>
      have hentry : entryOf strAccount record = none := by rw [entryOf, ho]; rfl
      rw [List.takeWhile_cons_of_neg (by rw [hentry]; simp)]
      rfl
    | some acentry =>
      have hentry : entryOf strAccount record = some acentry := by rw [entryOf, ho]; rfl
      rw [List.takeWhile_cons_of_pos (by rw [hentry]; rfl), List.filterMap_cons_some hentry]
      simp only [hrest, Option.map_some]

/-- **The file holds these entries**: its keys are theirs or of other types, and the numbers of the
entries grow and are not above the counter. -/
structure Holds (s : EntryWallet) (log : List (ℕ × CAccountingEntry StdString)) : Prop where
  keys : ∀ key, key ∈ s.file → OtherKey key ∨ ∃ p ∈ log, key = acentryKey p.2.strAccount p.1
  values : ∀ p ∈ log, s.file.lookup (acentryKey p.2.strAccount p.1) = some p.2.serialize
  fits : ∀ p ∈ log, Fits p.2
  numbers : (log.map Prod.fst).Pairwise (· < ·)
  le : ∀ p ∈ log, p.1 ≤ s.nAccountingEntryNumber
  lt : s.nAccountingEntryNumber < 2 ^ 64

variable {s : EntryWallet} {log : List (ℕ × CAccountingEntry StdString)}
  {strAccount : StdString} {key : List UInt8} {p q : ℕ × CAccountingEntry StdString}

/-- The key of a numbered entry. -/
def keyOf (p : ℕ × CAccountingEntry StdString) : List UInt8 := acentryKey p.2.strAccount p.1

/-- The record with a key of the file. -/
def recordAt (s : EntryWallet) (key : List UInt8) : List UInt8 × List UInt8 :=
  (key, (s.file.lookup key).getD [])

/-- The key that the scan for an account starts from. -/
def startKey (strAccount : StdString) : List UInt8 :=
  acentryKey (if strAccount = allAccounts then [] else strAccount) 0

/-- The entries that the records of the file give to the list of an account. -/
def entriesOf (s : EntryWallet) (strAccount : StdString) : List (CAccountingEntry StdString) :=
  (s.file.keys.sort (· ≤ ·)).filterMap fun key => entryOf strAccount (s.recordAt key)

theorem mem_file_of_mem_sort (hkey : key ∈ s.file.keys.sort (· ≤ ·)) : key ∈ s.file :=
  Finmap.mem_keys.mp ((Finset.mem_sort _).mp hkey)

/-- The records from a key on are those of the keys that are not below it. -/
theorem recordsFrom_eq (s : EntryWallet) (start : List UInt8) : s.recordsFrom start =
    ((s.file.keys.sort (· ≤ ·)).dropWhile fun key => decide (key < start)).map s.recordAt := by
  rw [recordsFrom, ← List.filterMap_eq_map]
  refine List.filterMap_congr fun key hkey => ?_
  obtain ⟨value, hvalue⟩ := Option.isSome_iff_exists.mp
    (Finmap.lookup_isSome.mpr (mem_file_of_mem_sort (List.dropWhile_subset _ hkey)))
  rw [Function.comp_apply, recordAt, hvalue]
  rfl

namespace Holds

theorem nodup_numbers (h : s.Holds log) : (log.map Prod.fst).Nodup := h.numbers.imp fun hlt => hlt.ne

theorem eq_of_keyOf (h : s.Holds log) (hp : p ∈ log) (hq : q ∈ log) (heq : keyOf p = keyOf q) :
    p = q := by
  have hnumber := (acentryKey_inj (h.fits p hp).strAccount (h.fits q hq).strAccount
    ((h.le p hp).trans_lt h.lt) ((h.le q hq).trans_lt h.lt) heq).2
  exact List.inj_on_of_nodup_map h.nodup_numbers hp hq hnumber

/-- The entry that the key of an entry gives. -/
theorem entryOf_keyOf (h : s.Holds log) (hp : p ∈ log) (strAccount : StdString) :
    entryOf strAccount (s.recordAt (keyOf p)) =
      if strAccount = allAccounts ∨ p.2.strAccount = strAccount then some p.2 else none := by
  rw [recordAt, keyOf, h.values p hp, Option.getD_some, entryOf, listRound_of_entry (h.fits p hp)]
  rfl

theorem entryOf_other (hother : OtherKey key) (strAccount : StdString) (value : List UInt8) :
    entryOf strAccount (key, value) = none := by
  rw [entryOf, listRound_of_other hother]
  rfl

/-- The start of the scan is not after the keys it is for. -/
theorem start_le (h : strAccount = allAccounts ∨ p.2.strAccount = strAccount) :
    startKey strAccount ≤ keyOf p := by
  have hzero : leBytes 8 0 = List.replicate 8 0 := by decide
  have hbyte : ∀ b : UInt8, 0 ≤ b := fun b => UInt8.zero_le
  rw [startKey, keyOf, acentryKey, acentryKey, RangeScan.append_le_append_iff, hzero]
  split_ifs with hall
  · -- behind the type the start is nine zeros, and no account with its number is shorter
    have hempty : serializeVch [] ++ List.replicate 8 (0 : UInt8) = List.replicate 9 0 := by decide
    rw [hempty]
    refine RangeScan.replicate_le hbyte ?_
    rw [List.length_append, leBytes_length, serializeVch, List.length_append, writeCompactSize_length,
      getSizeOfCompactSize]
    split_ifs <;> omega
  · -- the account is the same, and the number of the start is zero
    rw [h.resolve_left hall, RangeScan.append_le_append_iff]
    refine RangeScan.replicate_le hbyte ?_
    rw [leBytes_length]

/-- The prefix of the keys of a list. -/
def listPrefix (strAccount : StdString) : List UInt8 :=
  serializeVch acentryType ++ if strAccount = allAccounts then [] else serializeVch strAccount

/-- Whether a key of the file is one of the list. -/
theorem isSome_entryOf_iff (h : s.Holds log) (strAccount : StdString) (hkey : key ∈ s.file) :
    (entryOf strAccount (s.recordAt key)).isSome = true ↔
      ∃ p ∈ log, key = keyOf p ∧ (strAccount = allAccounts ∨ p.2.strAccount = strAccount) := by
  obtain hother | ⟨p, hp, rfl⟩ := h.keys key hkey
  · rw [recordAt, entryOf_other hother]
    refine iff_of_false (by simp) ?_
    rintro ⟨p, _, rfl, _⟩
    exact hother.ne_acentryKey _ _ rfl
  · have hentry := h.entryOf_keyOf hp strAccount
    rw [keyOf] at hentry
    rw [hentry]
    constructor
    · intro hsome
      by_contra hnone
      rw [if_neg fun hmatch => hnone ⟨p, hp, rfl, hmatch⟩] at hsome
      cases hsome
    · rintro ⟨q, hq, hkeys, hmatch⟩
      obtain rfl := h.eq_of_keyOf hp hq hkeys
      rw [if_pos hmatch]
      rfl

/-- The keys of a list have their prefix. -/
theorem listPrefix_isPrefix (hmatch : strAccount = allAccounts ∨ p.2.strAccount = strAccount) :
    listPrefix strAccount <+: keyOf p := by
  rw [listPrefix, keyOf, acentryKey]
  split_ifs with hall
  · rw [List.append_nil]
    exact List.prefix_append _ _
  · rw [hmatch.resolve_left hall, ← List.append_assoc]
    exact List.prefix_append _ _

/-- The other keys of the file do not have it. -/
theorem not_listPrefix_isPrefix (h : s.Holds log) (hlen : strAccount.length ≤ maxSize)
    (hkey : key ∈ s.file)
    (hnone : ¬∃ p ∈ log, key = keyOf p ∧ (strAccount = allAccounts ∨ p.2.strAccount = strAccount)) :
    ¬listPrefix strAccount <+: key := by
  intro hpre
  obtain hother | ⟨p, hp, rfl⟩ := h.keys key hkey
  · exact hother.not_isPrefix ((List.prefix_append _ _).trans hpre)
  · refine hnone ⟨p, hp, rfl, or_iff_not_imp_left.mpr fun hall => ?_⟩
    -- an account that is longer than the prefix would have another length in front
    rw [listPrefix, if_neg hall, acentryKey, List.prefix_append_right_inj] at hpre
    obtain ⟨rest, hrest⟩ := hpre
    have hread := reads_readVch (h.fits p hp).strAccount (leBytes 8 p.1)
    rw [← hrest, reads_readVch hlen] at hread
    exact (Prod.mk.inj (Option.some.inj hread)).1.symm

theorem filterMap_filter_isSome {A B : Type} (f : A → Option B) (l : List A) :
    (l.filter fun a => (f a).isSome).filterMap f = l.filterMap f := by
  rw [List.filterMap_filter]
  refine List.filterMap_congr fun a _ => ?_
  cases f a with
  | none => rfl
  | some b => rfl

/-- Every record of the file lets the loop go on or ends it, but none makes it throw. -/
theorem isSome_listRound (h : s.Holds log) (strAccount : StdString) (hkey : key ∈ s.file) :
    (listRound strAccount (s.recordAt key)).isSome = true := by
  obtain hother | ⟨p, hp, rfl⟩ := h.keys key hkey
  · rw [recordAt, listRound_of_other hother]
    rfl
  · rw [recordAt, h.values p hp, Option.getD_some, listRound_of_entry (h.fits p hp)]
    rfl

/-- **The scan meets the keys of the list**: none of them is before the start, and none is behind the
first key that gives no entry. -/
theorem scan_eq (h : s.Holds log) (hlen : strAccount.length ≤ maxSize) :
    (((s.file.keys.sort (· ≤ ·)).dropWhile fun key => decide (key < startKey strAccount)).takeWhile
        fun key => (entryOf strAccount (s.recordAt key)).isSome) =
      (s.file.keys.sort (· ≤ ·)).filter fun key => (entryOf strAccount (s.recordAt key)).isSome := by
  refine takeWhile_dropWhile_eq_filter (Finset.sortedLT_sort s.file.keys).pairwise ?_ ?_
  · intro key hkey hsome
    obtain ⟨p, _, rfl, hmatch⟩ :=
      (h.isSome_entryOf_iff strAccount (mem_file_of_mem_sort hkey)).mp hsome
    exact start_le hmatch
  · intro key hkey key' hkey' hsome hnone hle
    obtain ⟨p, hp, rfl, hmatch⟩ :=
      (h.isSome_entryOf_iff strAccount (mem_file_of_mem_sort hkey)).mp hsome
    have hfirst : listPrefix strAccount ≤ startKey strAccount := by
      rw [listPrefix, startKey, acentryKey, append_le_append_iff]
      split_ifs
      · exact nil_le _
      · exact le_append _ _
    have hnot : ¬listPrefix strAccount <+: key' := by
      refine h.not_listPrefix_isPrefix hlen (mem_file_of_mem_sort hkey') fun hex => ?_
      rw [(h.isSome_entryOf_iff strAccount (mem_file_of_mem_sort hkey')).mpr hex] at hnone
      cases hnone
    -- the keys with a prefix are an interval, and `key'` is after its start
    exact lt_of_isPrefix (listPrefix_isPrefix hmatch) hnot (hfirst.trans hle)

/-- **The loop returns the entries of the file.** -/
theorem listAccountCreditDebit_eq (h : s.Holds log) (hlen : strAccount.length ≤ maxSize) :
    s.listAccountCreditDebit strAccount = some (s.entriesOf strAccount) := by
  rw [listAccountCreditDebit, recordsFrom_eq, listLoop_eq, List.takeWhile_map, List.filterMap_map]
  · exact congrArg some ((congrArg (List.filterMap _) (h.scan_eq hlen)).trans
      (filterMap_filter_isSome _ _))
  · intro record hrecord
    obtain ⟨key, hkey, rfl⟩ := List.mem_map.mp hrecord
    exact h.isSome_listRound strAccount (mem_file_of_mem_sort (List.dropWhile_subset _ hkey))

/-- The entries of the file are those of the log. -/
theorem listed_perm (h : s.Holds log) (strAccount : StdString) :
    (s.entriesOf strAccount).Perm ((log.map Prod.snd).filter fun acentry =>
      decide (strAccount = allAccounts ∨ acentry.strAccount = strAccount)) := by
  have hlog : log.Nodup := h.nodup_numbers.of_map _
  have hkeys : ((s.file.keys.sort (· ≤ ·)).filter fun key =>
        (entryOf strAccount (s.recordAt key)).isSome).Perm
      ((log.filter fun p => decide (strAccount = allAccounts ∨ p.2.strAccount = strAccount)).map
        keyOf) := by
    -- neither list has a key twice, so it is enough that they have the same keys
    refine (List.perm_ext_iff_of_nodup ((Finset.sort_nodup _ _).filter _) ?_).mpr fun key => ?_
    · refine (hlog.filter _).map_on fun p hp q hq heq => ?_
      exact h.eq_of_keyOf (List.mem_of_mem_filter hp) (List.mem_of_mem_filter hq) heq
    · rw [List.mem_filter, Finset.mem_sort, Finmap.mem_keys, List.mem_map]
      constructor
      · rintro ⟨hkey, hsome⟩
        obtain ⟨p, hp, rfl, hmatch⟩ := (h.isSome_entryOf_iff strAccount hkey).mp hsome
        exact ⟨p, List.mem_filter.mpr ⟨hp, decide_eq_true hmatch⟩, rfl⟩
      · rintro ⟨p, hp, rfl⟩
        obtain ⟨hp, hmatch⟩ := List.mem_filter.mp hp
        have hkey : keyOf p ∈ s.file := Finmap.lookup_isSome.mp (by rw [keyOf, h.values p hp]; rfl)
        exact ⟨hkey, (h.isSome_entryOf_iff strAccount hkey).mpr ⟨p, hp, rfl, of_decide_eq_true hmatch⟩⟩
  have hentries : ((log.filter fun p =>
        decide (strAccount = allAccounts ∨ p.2.strAccount = strAccount)).map keyOf).filterMap
          (fun key => entryOf strAccount (s.recordAt key)) =
      (log.map Prod.snd).filter fun acentry =>
        decide (strAccount = allAccounts ∨ acentry.strAccount = strAccount) := by
    rw [List.filterMap_map, List.filter_map, ← List.filterMap_eq_map]
    refine List.filterMap_congr fun p hp => ?_
    obtain ⟨hp, hmatch⟩ := List.mem_filter.mp hp
    rw [Function.comp_apply, h.entryOf_keyOf hp, if_pos (of_decide_eq_true hmatch)]
    rfl
  rw [entriesOf, ← filterMap_filter_isSome, ← hentries]
  exact hkeys.filterMap _

/-! ## What keeps the entries -/

/-- A key with the next number is not used yet. -/
theorem acentryKey_notMem (h : s.Holds log) (hlen : strAccount.length ≤ maxSize) {n : ℕ}
    (hlt : s.nAccountingEntryNumber < n) (hn : n < 2 ^ 64) : acentryKey strAccount n ∉ s.file := by
  intro hkey
  obtain hother | ⟨p, hp, heq⟩ := h.keys _ hkey
  · exact hother.ne_acentryKey _ _ rfl
  · have hnumber := (acentryKey_inj hlen (h.fits p hp).strAccount hn ((h.le p hp).trans_lt h.lt)
      heq).2
    have := h.le p hp
    omega

/-- An entry is written under a new key. -/
theorem writeAccountingEntry (h : s.Holds log) {acentry : CAccountingEntry StdString}
    (hfits : Fits acentry) (hlt : s.nAccountingEntryNumber + 1 < 2 ^ 64) :
    (s.writeAccountingEntry acentry).Holds (log ++ [(s.nAccountingEntryNumber + 1, acentry)]) ∧
      (s.writeAccountingEntry acentry).nAccountingEntryNumber = s.nAccountingEntryNumber + 1 := by
  have hmod : (s.nAccountingEntryNumber + 1) % 2 ^ 64 = s.nAccountingEntryNumber + 1 :=
    Nat.mod_eq_of_lt hlt
  have hnew := h.acentryKey_notMem hfits.strAccount (Nat.lt_succ_self _) hlt
  have hwritten : s.writeAccountingEntry acentry =
      ⟨s.file.insert (acentryKey acentry.strAccount (s.nAccountingEntryNumber + 1)) acentry.serialize,
        s.nAccountingEntryNumber + 1⟩ := by
    rw [EntryWallet.writeAccountingEntry, hmod]
  rw [hwritten]
  refine ⟨⟨?_, ?_, ?_, ?_, ?_, hlt⟩, rfl⟩
  · intro key hkey
    obtain rfl | hkey := Finmap.mem_insert.mp hkey
    · exact .inr ⟨_, List.mem_append_right _ List.mem_cons_self, rfl⟩
    · obtain hother | ⟨p, hp, rfl⟩ := h.keys key hkey
      · exact .inl hother
      · exact .inr ⟨p, List.mem_append_left _ hp, rfl⟩
  · intro p hp
    obtain hp | hp := List.mem_append.mp hp
    · -- the new key is none of the old ones, as its number is higher
      have hold := h.values p hp
      have hne : acentryKey p.2.strAccount p.1 ≠
          acentryKey acentry.strAccount (s.nAccountingEntryNumber + 1) := by
        intro heq
        rw [← heq] at hnew
        exact hnew (Finmap.mem_of_lookup_eq_some hold)
      rw [lookup_insert_eq_ite, if_neg hne, hold]
    · obtain rfl := List.mem_singleton.mp hp
      rw [lookup_insert_eq_ite, if_pos rfl]
  · intro p hp
    obtain hp | hp := List.mem_append.mp hp
    · exact h.fits p hp
    · obtain rfl := List.mem_singleton.mp hp
      exact hfits
  · rw [List.map_append, List.map_singleton, List.pairwise_append]
    refine ⟨h.numbers, List.pairwise_singleton _ _, fun n hn m hm => ?_⟩
    obtain ⟨p, hp, rfl⟩ := List.mem_map.mp hn
    obtain rfl := List.mem_singleton.mp hm
    exact Nat.lt_succ_of_le (h.le p hp)
  · intro p hp
    obtain hp | hp := List.mem_append.mp hp
    · exact (h.le p hp).trans (Nat.le_succ _)
    · obtain rfl := List.mem_singleton.mp hp
      exact le_rfl

/-- Records of other types may be written. -/
theorem write (h : s.Holds log) (hother : OtherKey key) (value : List UInt8) :
    Holds { s with file := s.file.insert key value } log := by
  refine ⟨fun key' hkey' => ?_, fun p hp => ?_, h.fits, h.numbers, h.le, h.lt⟩
  · obtain rfl | hkey' := Finmap.mem_insert.mp hkey'
    · exact .inl hother
    · exact h.keys key' hkey'
  · rw [lookup_insert_eq_ite, if_neg (Ne.symm (hother.ne_acentryKey _ _)), h.values p hp]

/-- Records of other types may be erased. -/
theorem erase (h : s.Holds log) (hother : OtherKey key) :
    Holds { s with file := s.file.erase key } log := by
  refine ⟨fun key' hkey' => ?_, fun p hp => ?_, h.fits, h.numbers, h.le, h.lt⟩
  · exact h.keys key' (Finmap.mem_erase.mp hkey').2
  · rw [Finmap.lookup_erase_ne (Ne.symm (hother.ne_acentryKey _ _)), h.values p hp]

/-- Keys of other types do not change the counter. -/
theorem loadRecord_other (hother : OtherKey key) (n : ℕ) : loadRecord n key = some n := by
  obtain ⟨strType, rest, hread, hne⟩ := hother.readVch_eq
  rw [loadRecord, hread]
  exact if_neg hne

/-- Keys of entries bring it up to their number. -/
theorem loadRecord_entry (hlen : strAccount.length ≤ maxSize) {m : ℕ} (hm : m < 2 ^ 64) (n : ℕ) :
    loadRecord n (acentryKey strAccount m) = some (max n m) := by
  have hnumber := (reads_readLe (k := 8) (n := m) (by omega)).run
  rw [loadRecord, acentryKey, readVch_acentryType]
  simp only [Option.bind_eq_bind, Option.bind_some, if_true, reads_readVch hlen (leBytes 8 m), hnumber]
  congr 1
  split_ifs <;> omega

/-- The loop of `LoadWallet` finds a counter between the numbers of the entries and the one before. -/
theorem foldlM_loadRecord (h : s.Holds log) {keys : List (List UInt8)}
    (hkeys : ∀ key ∈ keys, key ∈ s.file) {n : ℕ} (hn : n ≤ s.nAccountingEntryNumber) :
    ∃ m, keys.foldlM loadRecord n = some m ∧ n ≤ m ∧ m ≤ s.nAccountingEntryNumber ∧
      ∀ p ∈ log, keyOf p ∈ keys → p.1 ≤ m := by
  induction keys generalizing n with
  | nil => exact ⟨n, rfl, le_rfl, hn, fun p _ hp => by cases hp⟩
  | cons key keys ih =>
    have hrest := fun key hkey => hkeys key (List.mem_cons_of_mem _ hkey)
    obtain hother | ⟨q, hq, rfl⟩ := h.keys key (hkeys key List.mem_cons_self)
    · obtain ⟨m, hm, hle, hcounter, hall⟩ := ih hrest hn
      refine ⟨m, ?_, hle, hcounter, fun p hp hkey => ?_⟩
      · rw [List.foldlM_cons, loadRecord_other hother]
        exact hm
      · obtain heq | hkey := List.mem_cons.mp hkey
        · exact absurd heq.symm (hother.ne_acentryKey _ _)
        · exact hall p hp hkey
    · have hlt := (h.le q hq).trans_lt h.lt
      obtain ⟨m, hm, hle, hcounter, hall⟩ := ih hrest (max_le hn (h.le q hq))
      refine ⟨m, ?_, (le_max_left _ _).trans hle, hcounter, fun p hp hkey => ?_⟩
      · rw [List.foldlM_cons, loadRecord_entry (h.fits q hq).strAccount hlt]
        exact hm
      · obtain heq | hkey := List.mem_cons.mp hkey
        · obtain rfl := h.eq_of_keyOf hp hq heq
          exact (le_max_right _ _).trans hle
        · exact hall p hp hkey

/-- **A restart finds the counter again.** -/
theorem restart (h : s.Holds log) : ∃ s', s.restart = some s' ∧ s'.Holds log ∧
    s'.nAccountingEntryNumber ≤ s.nAccountingEntryNumber := by
  -- the new process counts from zero, and its loop goes up to the last number in the file
  obtain ⟨m, hm, -, hcounter, hall⟩ :=
    h.foldlM_loadRecord (fun _ => mem_file_of_mem_sort) (Nat.zero_le _)
  refine ⟨{ s with nAccountingEntryNumber := m }, by rw [EntryWallet.restart, hm]; rfl,
    ⟨h.keys, h.values, h.fits, h.numbers, fun p hp => ?_, hcounter.trans_lt h.lt⟩, hcounter⟩
  refine hall p hp ((Finset.mem_sort _).mpr (Finmap.mem_keys.mpr ?_))
  exact Finmap.mem_of_lookup_eq_some (h.values p hp)

/-- What a move can do: nothing, go on with the counter only, or write its two entries. -/
theorem movecmd_cases (s : EntryWallet) (call : MoveCall) :
    ((s.movecmd call).2 = s ∧ (Event.move call).written = []) ∨
    ((s.movecmd call).2 = { (s.writeAccountingEntry call.debit).writeAccountingEntry call.credit with
        file := s.file } ∧ (Event.move call).written = []) ∨
    ((s.movecmd call).2 = (s.writeAccountingEntry call.debit).writeAccountingEntry call.credit ∧
      (Event.move call).written = [call.debit, call.credit]) := by
  rw [movecmd, Event.written]
  by_cases hnames : call.strFrom = allAccounts ∨ call.strTo = allAccounts
  · rw [if_pos hnames, if_pos hnames]
    exact .inl ⟨rfl, rfl⟩
  · rw [if_neg hnames, if_neg hnames]
    cases hbegin : call.fTxnBegin with
    | false => exact .inl ⟨rfl, if_pos (.inl rfl)⟩
    | true =>
      cases hcommit : call.fTxnCommit with
      | false => exact .inr (.inl ⟨rfl, if_pos (.inr rfl)⟩)
      | true => exact .inr (.inr ⟨rfl, if_neg (by decide)⟩)

/-- A move, whether it is committed or not. -/
theorem move (h : s.Holds log) {call : MoveCall} (hlegal : (Event.move call).Legal)
    (hlt : s.nAccountingEntryNumber + 2 < 2 ^ 64) :
    ∃ log', (s.movecmd call).2.Holds (log ++ log') ∧ log'.map Prod.snd = (Event.move call).written ∧
      (s.movecmd call).2.nAccountingEntryNumber ≤ s.nAccountingEntryNumber + 2 := by
  obtain ⟨hdebit, hcounter⟩ := h.writeAccountingEntry hlegal.1 (by omega)
  obtain ⟨hcredit, hcounter'⟩ := hdebit.writeAccountingEntry hlegal.2 (by omega)
  obtain ⟨hs', hwritten⟩ | ⟨hs', hwritten⟩ | ⟨hs', hwritten⟩ := movecmd_cases s call
  · rw [hs', hwritten]
    exact ⟨[], by rwa [List.append_nil], rfl, Nat.le_add_right _ _⟩
  · -- the file is rolled back and the counter is not, so two numbers are left out
    rw [hs', hwritten]
    refine ⟨[], ?_, rfl, by simp only; omega⟩
    rw [List.append_nil]
    refine ⟨h.keys, h.values, h.fits, h.numbers, fun p hp => ?_, by simp only; omega⟩
    have := h.le p hp
    simp only
    omega
  · rw [hs', hwritten]
    rw [List.append_assoc] at hcredit
    exact ⟨_, hcredit, rfl, by omega⟩

/-- **Every event keeps the entries** and adds what it writes. -/
theorem next (h : s.Holds log) {e : Event} (hlegal : e.Legal)
    (hlt : s.nAccountingEntryNumber + 2 * e.moves < 2 ^ 64) :
    ∃ log', (s.next e).Holds (log ++ log') ∧ log'.map Prod.snd = e.written ∧
      (s.next e).nAccountingEntryNumber ≤ s.nAccountingEntryNumber + 2 * e.moves := by
  cases e with
  | move call => exact h.move hlegal hlt
  | restart =>
    obtain ⟨s', hs', hholds, hle⟩ := h.restart
    refine ⟨[], ?_, rfl, ?_⟩
    · rw [EntryWallet.next, hs', Option.getD_some, List.append_nil]
      exact hholds
    · rw [EntryWallet.next, hs', Option.getD_some]
      omega
  | write key value =>
    refine ⟨[], ?_, rfl, Nat.le_add_right _ _⟩
    rw [List.append_nil]
    exact h.write hlegal value
  | erase key =>
    refine ⟨[], ?_, rfl, Nat.le_add_right _ _⟩
    rw [List.append_nil]
    exact h.erase hlegal

end Holds

/-! ## Runs -/

/-- **A run keeps the entries** and adds those that it writes. -/
theorem Holds.run (h : s.Holds log) {es : List Event} (hlegal : ∀ e ∈ es, e.Legal)
    (hlt : s.nAccountingEntryNumber + 2 * movesOf es < 2 ^ 64) :
    ∃ log', (s.run es).Holds (log ++ log') ∧ log'.map Prod.snd = es.flatMap Event.written ∧
      (s.run es).nAccountingEntryNumber ≤ s.nAccountingEntryNumber + 2 * movesOf es := by
  induction es generalizing s log with
  | nil => exact ⟨[], by rwa [List.append_nil], rfl, Nat.le_add_right _ _⟩
  | cons e es ih =>
    have hsum : movesOf (e :: es) = e.moves + movesOf es := by
      rw [movesOf, List.map_cons, List.sum_cons, movesOf]
    rw [hsum] at hlt
    obtain ⟨log₁, hholds, hwritten, hle⟩ := h.next (hlegal e List.mem_cons_self) (by omega)
    obtain ⟨log₂, hholds', hwritten', hle'⟩ :=
      ih hholds (fun e he => hlegal e (List.mem_cons_of_mem _ he)) (by omega)
    rw [List.append_assoc] at hholds'
    refine ⟨log₁ ++ log₂, hholds', ?_, ?_⟩
    · rw [List.map_append, hwritten, hwritten', List.flatMap_cons]
    · rw [hsum]
      exact hle'.trans (by omega)

theorem Fresh.holds (hs : s.Fresh) : s.Holds [] := by
  refine ⟨fun key hkey => .inl (hs.others key hkey), by simp, by simp, by simp, by simp, ?_⟩
  rw [hs.nAccountingEntryNumber]
  norm_num

/-- What a move writes adds up to zero. -/
theorem sum_written (es : List Event) :
    ((es.flatMap Event.written).map CAccountingEntry.nCreditDebit).sum = 0 := by
  induction es with
  | nil => rfl
  | cons e es ih =>
    have hone : (e.written.map CAccountingEntry.nCreditDebit).sum = 0 := by
      cases e with
      | move call =>
        rw [Event.written]
        split_ifs
        · rfl
        · rfl
        · simp [MoveCall.debit, MoveCall.credit]
      | restart => rfl
      | write key value => rfl
      | erase key => rfl
    rw [List.flatMap_cons, List.map_append, List.sum_append, hone, ih, add_zero]

/-- **The accounting entries are kept**: an entry in the file is not overwritten later on, the entries
of an account and of all accounts are listed, and they add up to zero. -/
structure KeepsEntries (s : EntryWallet) (es : List Event) : Prop where
  kept : ∀ before after, es = before ++ after → ∀ strAccount n value, strAccount.length ≤ maxSize →
    n < 2 ^ 64 → (s.run before).file.lookup (acentryKey strAccount n) = some value →
      (s.run es).file.lookup (acentryKey strAccount n) = some value
  account : ∀ strAccount ≠ allAccounts, strAccount.length ≤ maxSize → ∃ entries,
    (s.run es).listAccountCreditDebit strAccount = some entries ∧
      entries.Perm ((es.flatMap Event.written).filter fun acentry =>
        decide (acentry.strAccount = strAccount))
  all : ∃ entries, (s.run es).listAccountCreditDebit allAccounts = some entries ∧
    entries.Perm (es.flatMap Event.written)
  sum : (s.run es).getAccountCreditDebit allAccounts = some 0

/-- **Fewer than `2 ^ 63` moves keep the accounting entries**, whatever restarts and other records come
between them. -/
theorem keepsEntries (s : EntryWallet) (es : List Event) (hs : s.Fresh)
    (hlegal : ∀ e ∈ es, e.Legal) (hmoves : movesOf es < 2 ^ 63) : s.KeepsEntries es := by
  have hcounter := hs.nAccountingEntryNumber
  obtain ⟨log, hlog, hwritten, -⟩ := hs.holds.run hlegal (by omega)
  rw [List.nil_append] at hlog
  have hall : ∃ entries, (s.run es).listAccountCreditDebit allAccounts = some entries ∧
      entries.Perm (es.flatMap Event.written) := by
    have hperm := hlog.listed_perm allAccounts
    rw [hwritten] at hperm
    refine ⟨_, hlog.listAccountCreditDebit_eq allAccounts_length, hperm.trans ?_⟩
    rw [List.filter_eq_self.mpr fun acentry _ => decide_eq_true (.inl rfl)]
  refine ⟨?_, fun strAccount hne hlen => ?_, hall, ?_⟩
  · rintro before after rfl strAccount n value hlen hn hvalue
    have hsplit : movesOf (before ++ after) = movesOf before + movesOf after := by
      rw [movesOf, List.map_append, List.sum_append, movesOf, movesOf]
    -- what the first part of the run has put into the log stays in it
    obtain ⟨first, hfirst, -, hle⟩ := hs.holds.run
      (fun e he => hlegal e (List.mem_append_left _ he)) (by omega)
    rw [List.nil_append] at hfirst
    obtain ⟨second, hsecond, -, -⟩ := hfirst.run
      (fun e he => hlegal e (List.mem_append_right _ he)) (by omega)
    obtain hother | ⟨p, hp, heq⟩ := hfirst.keys _ (Finmap.mem_of_lookup_eq_some hvalue)
    · exact absurd rfl (hother.ne_acentryKey strAccount n)
    · rw [run, List.foldl_append]
      rw [heq, hfirst.values p hp] at hvalue
      rw [heq, ← hvalue]
      exact hsecond.values p (List.mem_append_left _ hp)
  · refine ⟨_, hlog.listAccountCreditDebit_eq hlen, ?_⟩
    have hperm := hlog.listed_perm strAccount
    rw [hwritten] at hperm
    refine hperm.trans (List.Perm.of_eq (List.filter_congr fun acentry _ => ?_))
    exact decide_eq_decide.mpr (or_iff_right hne)
  · obtain ⟨entries, hentries, hperm⟩ := hall
    rw [getAccountCreditDebit, hentries, Option.map_some,
      (hperm.map CAccountingEntry.nCreditDebit).sum_eq, sum_written]

/-- A process with an empty file. -/
def newProcess : EntryWallet := ⟨∅, 0⟩

/-- A move from the account without a name to itself. -/
def selfMove (nNow : ℤ) : MoveCall := ⟨[], [], 1, [], nNow, true, true⟩

theorem newProcess_fresh : newProcess.Fresh :=
  ⟨fun _ hkey => absurd hkey (Finmap.notMem_empty), rfl⟩

theorem selfMove_legal {nNow : ℤ} (h : 0 ≤ nNow ∧ nNow < 10) : (Event.move (selfMove nNow)).Legal := by
  have htime : -2 ^ 63 ≤ nNow ∧ nNow < 2 ^ 63 := by omega
  exact ⟨⟨Nat.zero_le _, ⟨by norm_num [selfMove, MoveCall.debit], by norm_num [selfMove,
      MoveCall.debit]⟩, htime, Nat.zero_le _, Nat.zero_le _⟩,
    ⟨Nat.zero_le _, ⟨by norm_num [selfMove, MoveCall.credit], by norm_num [selfMove,
      MoveCall.credit]⟩, htime, Nat.zero_le _, Nat.zero_le _⟩⟩

/-- One move, a restart and another one. -/
theorem keepsEntries_newProcess :
    (∀ e ∈ [Event.move (selfMove 1), .restart, .move (selfMove 2)], e.Legal) ∧
      newProcess.KeepsEntries [.move (selfMove 1), .restart, .move (selfMove 2)] := by
  have hlegal : ∀ e ∈ [Event.move (selfMove 1), .restart, .move (selfMove 2)], e.Legal := by
    intro e he
    obtain rfl | rfl | rfl : e = .move (selfMove 1) ∨ e = .restart ∨ e = .move (selfMove 2) := by
      simpa using he
    · exact selfMove_legal (by norm_num)
    · trivial
    · exact selfMove_legal (by norm_num)
  exact ⟨hlegal, keepsEntries newProcess _ newProcess_fresh hlegal (by decide)⟩

/-- What an entry of the account without a name does to its first number. -/
theorem lookup_writeAccountingEntry (s : EntryWallet) {acentry : CAccountingEntry StdString}
    (h : acentry.strAccount = []) :
    (s.writeAccountingEntry acentry).file.lookup (acentryKey [] 1) =
      if (s.nAccountingEntryNumber + 1) % 2 ^ 64 = 1 then some acentry.serialize
      else s.file.lookup (acentryKey [] 1) := by
  rw [writeAccountingEntry, lookup_insert_eq_ite, h]
  refine if_congr ⟨fun heq => ?_, fun heq => by rw [heq]⟩ rfl rfl
  exact (acentryKey_inj (Nat.zero_le _) (Nat.zero_le _) (by norm_num)
    (Nat.mod_lt _ (by norm_num)) heq).2.symm

theorem next_selfMove (s : EntryWallet) (nNow : ℤ) : s.next (.move (selfMove nNow)) =
    (s.writeAccountingEntry (selfMove nNow).debit).writeAccountingEntry (selfMove nNow).credit := by
  have hname : ([] : StdString) ≠ allAccounts := by decide
  have hnames : ¬((selfMove nNow).strFrom = allAccounts ∨ (selfMove nNow).strTo = allAccounts) :=
    not_or.mpr ⟨hname, hname⟩
  rw [next, movecmd, if_neg hnames]
  rfl

/-- Moves up to the last number keep the first entry, and bring the counter around. -/
theorem run_replicate_selfMove (k : ℕ) (hk : k < 2 ^ 63) :
    (newProcess.run (List.replicate (k + 1) (.move (selfMove 1)))).nAccountingEntryNumber =
        (2 * k + 2) % 2 ^ 64 ∧
      (newProcess.run (List.replicate (k + 1) (.move (selfMove 1)))).file.lookup (acentryKey [] 1) =
        some (selfMove 1).debit.serialize := by
  induction k with
  | zero =>
    refine ⟨by decide, ?_⟩
    rw [List.replicate_one, run, List.foldl_cons, List.foldl_nil, next_selfMove,
      lookup_writeAccountingEntry _ rfl, if_neg (by decide), lookup_writeAccountingEntry _ rfl,
      if_pos (by decide)]
  | succ k ih =>
    obtain ⟨hcounter, hfirst⟩ := ih (by omega)
    rw [Nat.mod_eq_of_lt (by omega)] at hcounter
    rw [List.replicate_succ', run, List.foldl_append, List.foldl_cons, List.foldl_nil, ← run,
      next_selfMove]
    have hone : (2 * k + 2 + 1) % 2 ^ 64 = 2 * k + 3 := Nat.mod_eq_of_lt (by omega)
    constructor
    · simp only [writeAccountingEntry, hcounter, hone]
      rfl
    · rw [lookup_writeAccountingEntry _ rfl, if_neg, lookup_writeAccountingEntry _ rfl, if_neg, hfirst]
      · rw [hcounter, hone]
        omega
      · simp only [writeAccountingEntry, hcounter, hone]
        omega

/-- The counter has 64 bits: after `2 ^ 63` moves the next one overwrites the first entries. -/
theorem not_forall_keepsEntries :
    ¬∀ (s : EntryWallet) (es : List Event), s.Fresh → (∀ e ∈ es, e.Legal) → s.KeepsEntries es := by
  intro h
  -- every move writes two entries
  obtain ⟨k, hk⟩ : ∃ k, 2 ^ 63 = k + 1 := ⟨2 ^ 63 - 1, by norm_num⟩
  obtain ⟨hcounter, hfirst⟩ := run_replicate_selfMove k (by omega)
  have hzero : (2 * k + 2) % 2 ^ 64 = 0 := by omega
  rw [hzero] at hcounter
  have hlegal : ∀ e ∈ List.replicate (k + 1) (Event.move (selfMove 1)) ++ [.move (selfMove 2)],
      e.Legal := by
    intro e he
    obtain he | he := List.mem_append.mp he
    · rw [List.eq_of_mem_replicate he]
      exact selfMove_legal (by norm_num)
    · rw [List.mem_singleton.mp he]
      exact selfMove_legal (by norm_num)
  have hkept := (h newProcess _ newProcess_fresh hlegal).kept _ _ rfl [] 1 _ (Nat.zero_le _)
    (by norm_num) hfirst
  -- the entry with number `1` is now the one of the last move, whose time is another
  rw [run, List.foldl_append, List.foldl_cons, List.foldl_nil, ← run, next_selfMove,
    lookup_writeAccountingEntry _ rfl, if_neg, lookup_writeAccountingEntry _ rfl, if_pos] at hkept
  · exact absurd hkept (by decide)
  · rw [hcounter]
    norm_num
  · simp only [writeAccountingEntry, hcounter]
    norm_num

end EntryWallet

end FoxCoin
