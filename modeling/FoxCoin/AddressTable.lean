import FoxCoin.Accounts
import FoxCoin.Lib.Runs
import FoxCoin.Lib.OrderedMap
import FoxCoin.Lib.Overlay
import FoxCoin.Lib.SortedTable
import Mathlib.Data.Char
import Mathlib.Data.Nat.Digits.Lemmas

/-! # The table of addresses

The table shows the address book of the wallet. It is first filled in the order of the book, which
is that of the destinations, and later changed by notifications; these look for an address by
halving, as if the addresses were sorted. The table stays right exactly when the book has its
addresses in the order of their strings at first. -/

namespace FoxCoin

open OrderedMap SortedTable Runs Overlay

/-! ## Addresses -/

/-- `QString`, and a `std::string` of characters that are the same in both. -/
abbrev QString := List Char

/-- `pszBase58`. -/
def pszBase58 : QString := "123456789ABCDEFGHJKLMNPQRSTUVWXYZabcdefghijkmnopqrstuvwxyz".toList

/-- `EncodeBase58`: the digits of the big endian number, after a one for each leading zero. -/
def encodeBase58 (vch : Valtype) : QString :=
  let bn := Nat.ofDigits 256 (vch.reverse.map UInt8.toNat)
  ((Nat.digits 58 bn).map (fun c => pszBase58.getD c '1') ++
    List.replicate (vch.takeWhile (· == 0)).length '1').reverse

/-- `EncodeBase58Check`: four bytes of the hash are added. -/
def encodeBase58Check (Hash : Valtype → Valtype) (vch : Valtype) : QString :=
  encodeBase58 (vch ++ (Hash vch).take 4)

/-- A `CTxDestination` that is a key or a script; the id is a `uint160` as it lies in memory. -/
structure Address where
  fScript : Bool
  id : Valtype
  length_id : id.length = 20

/-- The number that the bytes of an id are, the lowest byte first. -/
def Address.number (address : Address) : ℕ := Nat.ofDigits 256 (address.id.map UInt8.toNat)

/-- `boost::variant`'s `operator<` compares the kinds first, and then the numbers. -/
def Address.rank (address : Address) : ℕ ×ₗ ℕ :=
  toLex (if address.fScript then 2 else 1, address.number)

/-- `PUBKEY_ADDRESS`, `SCRIPT_ADDRESS` and those of the test net: the version byte. -/
def addressVersion (fTestNet fScript : Bool) : UInt8 :=
  if fScript then if fTestNet then 196 else 5
  else if fTestNet then 111 else 136

/-- `CFoxcoinAddress(address).ToString()`. -/
def Address.toString (Hash : Valtype → Valtype) (fTestNet : Bool) (address : Address) : QString :=
  encodeBase58Check Hash (addressVersion fTestNet address.fScript :: address.id)

theorem ofDigits_bytes_injective {vch vch' : Valtype} (hlen : vch.length = vch'.length)
    (h : Nat.ofDigits 256 (vch.map UInt8.toNat) = Nat.ofDigits 256 (vch'.map UInt8.toNat)) :
    vch = vch' := by
  have hbytes : ∀ (vch : Valtype), ∀ n ∈ vch.map UInt8.toNat, n < 256 := by
    intro vch n hn
    obtain ⟨byte, -, rfl⟩ := List.mem_map.mp hn
    exact byte.toNat_lt
  have hmap := Nat.ofDigits_inj_of_len_eq (by omega) (by simpa using hlen) (hbytes vch)
    (hbytes vch') h
  exact List.map_injective_iff.mpr (fun _ _ => UInt8.toNat_inj.mp) hmap

theorem Address.rank_injective : Function.Injective Address.rank := by
  rintro ⟨fScript, id, hid⟩ ⟨fScript', id', hid'⟩ h
  obtain ⟨hkind, hnumber⟩ := Prod.mk.inj (toLex.injective h)
  obtain rfl := ofDigits_bytes_injective (hid.trans hid'.symm) hnumber
  cases fScript <;> cases fScript' <;> simp_all

instance : LinearOrder Address := LinearOrder.lift' Address.rank Address.rank_injective

/-- A digit is the position of its character. -/
theorem idxOf_pszBase58 {c : ℕ} (hc : c < 58) : pszBase58.idxOf (pszBase58.getD c '1') = c := by
  have hlen : pszBase58.length = 58 := by decide
  have hnodup : pszBase58.Nodup := by decide
  rw [List.getD_eq_getElem?_getD, List.getElem?_eq_getElem (by omega), Option.getD_some]
  exact hnodup.idxOf_getElem c (by omega)

/-- The characters of a number determine it. -/
theorem map_digits_injective {n n' : ℕ} (h : (Nat.digits 58 n).map (fun c => pszBase58.getD c '1') =
    (Nat.digits 58 n').map (fun c => pszBase58.getD c '1')) : n = n' := by
  have hback : ∀ n, ((Nat.digits 58 n).map (fun c => pszBase58.getD c '1')).map
      (fun ch => pszBase58.idxOf ch) = Nat.digits 58 n := by
    intro n
    rw [List.map_map]
    exact (List.map_congr_left fun c hc =>
      idxOf_pszBase58 (Nat.digits_lt_base (by omega) hc)).trans (List.map_id _)
  have hdigits := hback n
  rw [h, hback] at hdigits
  exact (Nat.digits_inj_iff.mp hdigits).symm

/-- The number of a byte vector without leading zeros determines it. -/
theorem encodeBase58_injective {byte byte' : UInt8} {vch vch' : Valtype} (hbyte : byte ≠ 0)
    (hbyte' : byte' ≠ 0) (h : encodeBase58 (byte :: vch) = encodeBase58 (byte' :: vch')) :
    byte :: vch = byte' :: vch' := by
  have hzeros : ∀ {byte : UInt8} {vch : Valtype}, byte ≠ 0 → encodeBase58 (byte :: vch) =
      ((Nat.digits 58 (Nat.ofDigits 256 ((byte :: vch).reverse.map UInt8.toNat))).map
        (fun c => pszBase58.getD c '1')).reverse := by
    intro byte vch hne
    unfold encodeBase58
    rw [List.takeWhile_cons_of_neg (by simpa using hne)]
    simp
  have hdigits : ∀ {byte : UInt8} {vch : Valtype}, byte ≠ 0 →
      Nat.digits 256 (Nat.ofDigits 256 ((byte :: vch).reverse.map UInt8.toNat)) =
        (byte :: vch).reverse.map UInt8.toNat := by
    intro byte vch hne
    refine Nat.digits_ofDigits 256 (by omega) _ (fun n hn => ?_) fun _ => ?_
    · obtain ⟨b, -, rfl⟩ := List.mem_map.mp hn
      exact b.toNat_lt
    · simp only [List.reverse_cons, List.map_append, List.map_cons, List.map_nil,
        List.getLast_append_singleton]
      exact fun hzero => hne (UInt8.toNat_inj.mp hzero)
  rw [hzeros hbyte, hzeros hbyte'] at h
  have hnumber := map_digits_injective (List.reverse_injective h)
  have hbytes := congrArg (Nat.digits 256) hnumber
  rw [hdigits hbyte, hdigits hbyte'] at hbytes
  exact List.reverse_injective
    (List.map_injective_iff.mpr (fun _ _ => UInt8.toNat_inj.mp) hbytes)

/-- **Different addresses have different strings.** -/
theorem Address.toString_injective (Hash : Valtype → Valtype) (fTestNet : Bool) :
    Function.Injective (Address.toString Hash fTestNet) := by
  rintro ⟨fScript, id, hid⟩ ⟨fScript', id', hid'⟩ h
  have hversion : ∀ fTestNet fScript, addressVersion fTestNet fScript ≠ 0 := by decide
  have hkinds : ∀ fTestNet fScript fScript',
      addressVersion fTestNet fScript = addressVersion fTestNet fScript' → fScript = fScript' := by
    decide
  obtain ⟨hversions, hrest⟩ := List.cons.inj (encodeBase58_injective (hversion _ _) (hversion _ _) h)
  obtain ⟨rfl, -⟩ := List.append_inj hrest (hid.trans hid'.symm)
  obtain rfl := hkinds _ _ _ hversions
  rfl

/-! ## The table -/

/-- `AddressTableEntry::Type`. -/
inductive AddressType
  | sending
  | receiving
  deriving DecidableEq

/-- `AddressTableEntry`. -/
structure AddressTableEntry where
  type : AddressType
  label : QString
  address : QString
  deriving DecidableEq

/-- `ChangeType`. -/
inductive ChangeType
  | ctNew
  | ctUpdated
  | ctDeleted

/-- What the table depends on besides the book: the hash of the checksums, the net, how Qt converts
a name, and its two searches, which need a sorted range. -/
structure TableParams where
  Hash : Valtype → Valtype
  fTestNet : Bool
  fromStdString : String → QString
  qLowerBound : List QString → QString → ℕ
  qUpperBound : List QString → QString → ℕ
  qLowerBound_eq : ∀ l x, l.Pairwise (· < ·) → qLowerBound l x = lowerPos l x
  qUpperBound_eq : ∀ l x, l.Pairwise (· < ·) → qUpperBound l x = upperPos l x

/-- The pairs of a map in order. -/
def pairsInOrder {V : Type} (m : StdMap Address V) : List (Address × V) :=
  (m.keys.sort (· ≤ ·)).filterMap fun address => (m.lookup address).map fun v => (address, v)

namespace TableParams

variable (Q : TableParams)

/-- The string of an address. -/
def stringOf (address : Address) : QString := address.toString Q.Hash Q.fTestNet

/-- The type of a row. -/
def typeOf (isMine : Bool) : AddressType := if isMine then .receiving else .sending

/-- `AddressTablePriv::refreshAddressTable`. -/
def refreshAddressTable (isMine : Address → Bool) (mapAddressBook : StdMap Address String) :
    List AddressTableEntry :=
  (pairsInOrder mapAddressBook).map fun item =>
    ⟨typeOf (isMine item.1), Q.fromStdString item.2, Q.stringOf item.1⟩

/-- `AddressTablePriv::updateEntry`. -/
def updateEntry (address label : QString) (isMine : Bool) (status : ChangeType)
    (cachedAddressTable : List AddressTableEntry) : List AddressTableEntry :=
  let lower := Q.qLowerBound (cachedAddressTable.map AddressTableEntry.address) address
  let upper := Q.qUpperBound (cachedAddressTable.map AddressTableEntry.address) address
  match status with
  | .ctNew =>
    if lower ≠ upper then cachedAddressTable
    else cachedAddressTable.insertIdx lower ⟨typeOf isMine, label, address⟩
  | .ctUpdated =>
    if lower = upper then cachedAddressTable
    else cachedAddressTable.modify lower fun entry =>
      { entry with type := typeOf isMine, label := label }
  | .ctDeleted =>
    if lower = upper then cachedAddressTable
    else cachedAddressTable.take lower ++ cachedAddressTable.drop upper

end TableParams

/-! ## Changes of the book -/

/-- A change of the address book, and whether the address is the wallet's at that time. -/
inductive BookCall
  | setAddressBookName (address : Address) (strName : String) (isMine : Bool)
  | delAddressBookName (address : Address) (isMine : Bool)

/-- `NotifyAddressBookChanged`: an address, a label, whether it is the wallet's, and a status. -/
structure BookNotification where
  address : Address
  label : String
  isMine : Bool
  status : ChangeType

/-- `CWallet::SetAddressBookName` and `CWallet::DelAddressBookName`: the book after the call, and the
notification. -/
def BookCall.apply (mapAddressBook : StdMap Address String) :
    BookCall → StdMap Address String × BookNotification
  | .setAddressBookName address strName isMine =>
    (mapAddressBook.insert address strName,
      ⟨address, strName, isMine,
        if address ∈ mapAddressBook then .ctUpdated else .ctNew⟩)
  | .delAddressBookName address isMine =>
    (mapAddressBook.erase address, ⟨address, "", isMine, .ctDeleted⟩)

/-- The book and the table, with the notifications that are still to be processed. -/
structure BookState where
  mapAddressBook : StdMap Address String
  queue : List BookNotification
  cachedAddressTable : List AddressTableEntry

/-- The wallet changes its book, or the table takes up a notification. -/
inductive BookEvent
  | call (call : BookCall)
  | process

/-- A step. -/
def BookState.next (Q : TableParams) (s : BookState) : BookEvent → BookState
  | .call call =>
    let (mapAddressBook, notification) := call.apply s.mapAddressBook
    { s with mapAddressBook, queue := s.queue ++ [notification] }
  | .process =>
    match s.queue with
    | [] => s
    | n :: queue => { s with
        queue
        cachedAddressTable := Q.updateEntry (Q.stringOf n.address) (Q.fromStdString n.label) n.isMine
          n.status s.cachedAddressTable }

/-- The runs from a book, of which the table has just been filled. -/
def bookSystem (Q : TableParams) (isMine : Address → Bool) (mapAddressBook : StdMap Address String) :
    System BookState BookEvent where
  start s := s = ⟨mapAddressBook, [], Q.refreshAddressTable isMine mapAddressBook⟩
  legal _ _ := True
  next := BookState.next Q

/-- The addresses of the table are sorted, and when all notifications have been processed it has one
row for each entry of the book, with its label. -/
structure BookState.InSync (Q : TableParams) (s : BookState) : Prop where
  sorted : Sorted AddressTableEntry.address s.cachedAddressTable
  rows : s.queue = [] →
    (s.cachedAddressTable.map fun entry => (entry.address, entry.label)).Perm
      ((pairsInOrder s.mapAddressBook).map fun item =>
        (Q.stringOf item.1, Q.fromStdString item.2))

/-- The strings of the addresses of a book, in the order of the book. -/
def TableParams.stringsInOrder (Q : TableParams) (mapAddressBook : StdMap Address String) :
    List QString :=
  (pairsInOrder mapAddressBook).map fun item => Q.stringOf item.1

/-! ## What the table shows -/

theorem mem_pairsInOrder {V : Type} {m : StdMap Address V} {address : Address} {v : V} :
    (address, v) ∈ pairsInOrder m ↔ m.lookup address = some v :=
  mem_pairs

/-- The addresses of a map in order are its keys. -/
theorem map_fst_pairsInOrder {V : Type} (m : StdMap Address V) :
    (pairsInOrder m).map Prod.fst = m.keys.sort (· ≤ ·) :=
  map_fst_pairs m

namespace TableParams

variable {Q : TableParams} {mapAddressBook : StdMap Address String}
  {table : List AddressTableEntry}

/-- The table shows a book. -/
structure Shows (Q : TableParams) (mapAddressBook : StdMap Address String)
    (table : List AddressTableEntry) : Prop where
  sorted : Sorted AddressTableEntry.address table
  sound : ∀ entry ∈ table, ∃ address strName, mapAddressBook.lookup address = some strName ∧
    entry.address = Q.stringOf address ∧ entry.label = Q.fromStdString strName
  complete : ∀ address strName, mapAddressBook.lookup address = some strName →
    ∃ entry ∈ table, entry.address = Q.stringOf address ∧ entry.label = Q.fromStdString strName

theorem stringOf_injective (Q : TableParams) : Function.Injective Q.stringOf :=
  Address.toString_injective Q.Hash Q.fTestNet

/-- **A table that shows a book has its rows.** -/
theorem Shows.perm (h : Q.Shows mapAddressBook table) :
    (table.map fun entry => (entry.address, entry.label)).Perm
      ((pairsInOrder mapAddressBook).map fun item =>
        (Q.stringOf item.1, Q.fromStdString item.2)) := by
  have hrows : (table.map fun entry => (entry.address, entry.label)).Nodup := by
    refine List.Nodup.of_map Prod.fst ?_
    rw [List.map_map]
    exact h.sorted.imp ne_of_lt
  have hbook : ((pairsInOrder mapAddressBook).map fun item =>
      (Q.stringOf item.1, Q.fromStdString item.2)).Nodup := by
    refine List.Nodup.of_map Prod.fst ?_
    rw [List.map_map]
    have hkeys : ((pairsInOrder mapAddressBook).map Prod.fst).Nodup := by
      rw [map_fst_pairsInOrder]
      exact Finset.sort_nodup _ _
    have hstrings := hkeys.map Q.stringOf_injective
    rwa [List.map_map] at hstrings
  refine (List.perm_ext_iff_of_nodup hrows hbook).mpr fun row => ?_
  simp only [List.mem_map]
  constructor
  · rintro ⟨entry, hentry, rfl⟩
    obtain ⟨address, strName, hlookup, haddress, hlabel⟩ := h.sound entry hentry
    exact ⟨(address, strName), mem_pairsInOrder.mpr hlookup, by rw [haddress, hlabel]⟩
  · rintro ⟨⟨address, strName⟩, hmem, rfl⟩
    obtain ⟨entry, hentry, haddress, hlabel⟩ := h.complete _ _ (mem_pairsInOrder.mp hmem)
    exact ⟨entry, hentry, by rw [haddress, hlabel]⟩

/-- The table that has just been filled shows the book, if it is sorted. -/
theorem shows_refresh (isMine : Address → Bool)
    (hsorted : (Q.stringsInOrder mapAddressBook).Pairwise (· < ·)) :
    Q.Shows mapAddressBook (Q.refreshAddressTable isMine mapAddressBook) := by
  unfold refreshAddressTable
  refine ⟨?_, fun entry hentry => ?_, fun address strName hlookup => ?_⟩
  · unfold Sorted
    rw [List.map_map]
    exact hsorted
  · obtain ⟨⟨address, strName⟩, hmem, rfl⟩ := List.mem_map.mp hentry
    exact ⟨address, strName, mem_pairsInOrder.mp hmem, rfl, rfl⟩
  · exact ⟨_, List.mem_map_of_mem (mem_pairsInOrder.mpr hlookup), rfl, rfl⟩

/-! ## Updates -/

section Update

variable {A B : List AddressTableEntry} {e : AddressTableEntry} {address label : QString}
  {isMine : Bool}

/-- A new address gets a row at its place. -/
theorem updateEntry_new (hsorted : Sorted AddressTableEntry.address table)
    (h : Absent AddressTableEntry.address address table A B) :
    Q.updateEntry address label isMine .ctNew table =
      A ++ ⟨typeOf isMine, label, address⟩ :: B := by
  have hlower := (Q.qLowerBound_eq _ address hsorted).trans h.lowerPos
  have hupper := (Q.qUpperBound_eq _ address hsorted).trans h.upperPos
  unfold updateEntry
  dsimp only
  rw [hlower, hupper, if_neg (not_not_intro rfl), h.eq, insertIdx_append]

/-- Removing an address that is not there does nothing. -/
theorem updateEntry_deleted_absent (hsorted : Sorted AddressTableEntry.address table)
    (h : Absent AddressTableEntry.address address table A B) :
    Q.updateEntry address label isMine .ctDeleted table = table := by
  have hlower := (Q.qLowerBound_eq _ address hsorted).trans h.lowerPos
  have hupper := (Q.qUpperBound_eq _ address hsorted).trans h.upperPos
  unfold updateEntry
  dsimp only
  rw [hlower, hupper, if_pos rfl]

/-- The row of an address gets a new label. -/
theorem updateEntry_updated (hsorted : Sorted AddressTableEntry.address table)
    (h : Present AddressTableEntry.address address table A e B) :
    Q.updateEntry address label isMine .ctUpdated table =
      A ++ ⟨typeOf isMine, label, address⟩ :: B := by
  have hlower := (Q.qLowerBound_eq _ address hsorted).trans h.lowerPos
  have hupper := (Q.qUpperBound_eq _ address hsorted).trans h.upperPos
  unfold updateEntry
  dsimp only
  rw [hlower, hupper, if_neg (by omega), h.eq, List.modify_eq_take_drop, ← h.key_eq]
  simp

/-- The row of an address is removed. -/
theorem updateEntry_deleted (hsorted : Sorted AddressTableEntry.address table)
    (h : Present AddressTableEntry.address address table A e B) :
    Q.updateEntry address label isMine .ctDeleted table = A ++ B := by
  have hlower := (Q.qLowerBound_eq _ address hsorted).trans h.lowerPos
  have hupper := (Q.qUpperBound_eq _ address hsorted).trans h.upperPos
  unfold updateEntry
  dsimp only
  rw [hlower, hupper, if_neg (by omega), h.eq]
  simp

end Update

/-- The rows around the place of an address show other entries of the book. -/
theorem Shows.other (h : Q.Shows mapAddressBook table) {address : Address}
    {entry : AddressTableEntry} (hentry : entry ∈ table) (hne : entry.address ≠ Q.stringOf address) :
    ∃ address' strName, address' ≠ address ∧ mapAddressBook.lookup address' = some strName ∧
      entry.address = Q.stringOf address' ∧ entry.label = Q.fromStdString strName := by
  obtain ⟨address', strName, hlookup, haddress, hlabel⟩ := h.sound entry hentry
  refine ⟨address', strName, ?_, hlookup, haddress, hlabel⟩
  rintro rfl
  exact hne haddress

/-- A row for an address, between the rows that were around its place. -/
theorem Shows.insert (h : Q.Shows mapAddressBook table) {address : Address} {strName : String}
    {A B : List AddressTableEntry} {entry : AddressTableEntry}
    (hsorted : Sorted AddressTableEntry.address (A ++ entry :: B))
    (haddress : entry.address = Q.stringOf address) (hlabel : entry.label = Q.fromStdString strName)
    (hothers : ∀ other, other ∈ A ++ B ↔ other ∈ table ∧ other.address ≠ Q.stringOf address) :
    Q.Shows (mapAddressBook.insert address strName) (A ++ entry :: B) := by
  have hmem : ∀ other, other ∈ A ++ entry :: B ↔ other = entry ∨ other ∈ A ++ B := by
    intro other
    rw [List.mem_append, List.mem_cons, List.mem_append]
    tauto
  refine ⟨hsorted, fun other hother => ?_, fun address' strName' hlookup => ?_⟩
  · rcases (hmem other).mp hother with rfl | hother
    · exact ⟨address, strName, Finmap.lookup_insert _, haddress, hlabel⟩
    · obtain ⟨htable, hne⟩ := (hothers other).mp hother
      obtain ⟨address', strName', hne', hlookup, hrow⟩ := h.other htable hne
      exact ⟨address', strName', by rw [Finmap.lookup_insert_of_ne _ hne', hlookup], hrow⟩
  · by_cases heq : address' = address
    · rw [heq, Finmap.lookup_insert] at hlookup
      rw [heq, ← Option.some.inj hlookup]
      exact ⟨entry, (hmem entry).mpr (.inl rfl), haddress, hlabel⟩
    · rw [Finmap.lookup_insert_of_ne _ heq] at hlookup
      obtain ⟨other, hother, hother', hrow⟩ := h.complete address' strName' hlookup
      refine ⟨other, (hmem other).mpr (.inr ((hothers other).mpr ⟨hother, ?_⟩)), hother', hrow⟩
      rw [hother']
      exact fun hstring => heq (Q.stringOf_injective hstring)

/-- The rows without the one of an address. -/
theorem Shows.erase (h : Q.Shows mapAddressBook table) {address : Address}
    {others : List AddressTableEntry} (hsorted : Sorted AddressTableEntry.address others)
    (hothers : ∀ other, other ∈ others ↔ other ∈ table ∧ other.address ≠ Q.stringOf address) :
    Q.Shows (mapAddressBook.erase address) others := by
  refine ⟨hsorted, fun other hother => ?_, fun address' strName' hlookup => ?_⟩
  · obtain ⟨htable, hne⟩ := (hothers other).mp hother
    obtain ⟨address', strName', hne', hlookup, hrow⟩ := h.other htable hne
    exact ⟨address', strName', by rw [Finmap.lookup_erase_ne hne', hlookup], hrow⟩
  · have hne : address' ≠ address := by
      rintro rfl
      rw [Finmap.lookup_erase] at hlookup
      cases hlookup
    rw [Finmap.lookup_erase_ne hne] at hlookup
    obtain ⟨other, hother, hother', hrow⟩ := h.complete address' strName' hlookup
    refine ⟨other, (hothers other).mpr ⟨hother, ?_⟩, hother', hrow⟩
    rw [hother']
    exact fun hstring => hne (Q.stringOf_injective hstring)

/-- The rows that are left when the place of an address is cut out. -/
theorem Absent.others {address : Address} {A B : List AddressTableEntry}
    (h : Absent AddressTableEntry.address (Q.stringOf address) table A B)
    (other : AddressTableEntry) :
    other ∈ A ++ B ↔ other ∈ table ∧ other.address ≠ Q.stringOf address := by
  rw [← h.eq]
  exact ⟨fun hother => ⟨hother, h.notMem other hother⟩, And.left⟩

theorem Present.others {address : Address} {A B : List AddressTableEntry} {e : AddressTableEntry}
    (h : Present AddressTableEntry.address (Q.stringOf address) table A e B)
    (other : AddressTableEntry) :
    other ∈ A ++ B ↔ other ∈ table ∧ other.address ≠ Q.stringOf address := by
  have habsent : Absent AddressTableEntry.address (Q.stringOf address) (A ++ B) A B :=
    ⟨rfl, h.below, h.above⟩
  constructor
  · intro hother
    refine ⟨?_, habsent.notMem other hother⟩
    rw [h.eq, List.mem_append, List.mem_cons]
    rcases List.mem_append.mp hother with hother | hother
    · exact .inl hother
    · exact .inr (.inr hother)
  · rintro ⟨hother, hne⟩
    rw [h.eq, List.mem_append, List.mem_cons] at hother
    rcases hother with hother | rfl | hother
    · exact List.mem_append_left _ hother
    · exact absurd h.key_eq hne
    · exact List.mem_append_right _ hother

/-- **Processing the notification of a call keeps up with it.** -/
theorem Shows.updateEntry (h : Q.Shows mapAddressBook table) (call : BookCall) :
    Q.Shows (call.apply mapAddressBook).1
      (Q.updateEntry (Q.stringOf (call.apply mapAddressBook).2.address)
        (Q.fromStdString (call.apply mapAddressBook).2.label) (call.apply mapAddressBook).2.isMine
        (call.apply mapAddressBook).2.status table) := by
  cases call with
  | setAddressBookName address strName isMine =>
    dsimp only [BookCall.apply]
    by_cases hmem : address ∈ mapAddressBook
    · rw [if_pos hmem]
      obtain ⟨old, hold⟩ := Finmap.mem_iff.mp hmem
      obtain ⟨entry, hentry, haddress, -⟩ := h.complete address old hold
      rcases h.sorted.split (Q.stringOf address) with ⟨A, B, habsent⟩ | ⟨A, e, B, hpresent⟩
      · exact absurd haddress (habsent.notMem entry hentry)
      · rw [updateEntry_updated h.sorted hpresent]
        exact h.insert (hpresent.replace h.sorted rfl) rfl rfl (Present.others hpresent)
    · rw [if_neg hmem]
      rcases h.sorted.split (Q.stringOf address) with ⟨A, B, habsent⟩ | ⟨A, e, B, hpresent⟩
      · rw [updateEntry_new h.sorted habsent]
        exact h.insert (habsent.insert h.sorted rfl) rfl rfl (Absent.others habsent)
      · obtain ⟨address', old, hlookup, haddress, -⟩ := h.sound e (by rw [hpresent.eq]; simp)
        obtain rfl := Q.stringOf_injective (hpresent.key_eq.symm.trans haddress)
        exact absurd (Finmap.mem_of_lookup_eq_some hlookup) hmem
  | delAddressBookName address isMine =>
    dsimp only [BookCall.apply]
    rcases h.sorted.split (Q.stringOf address) with ⟨A, B, habsent⟩ | ⟨A, e, B, hpresent⟩
    · rw [updateEntry_deleted_absent h.sorted habsent]
      have hsame : ∀ other, other ∈ table ↔ other ∈ table ∧ other.address ≠ Q.stringOf address :=
        fun other => ⟨fun hother => ⟨hother, habsent.notMem other hother⟩, And.left⟩
      exact h.erase h.sorted hsame
    · rw [updateEntry_deleted h.sorted hpresent]
      exact h.erase (hpresent.erase h.sorted) (Present.others hpresent)

end TableParams

/-! ## Runs -/

/-- The notifications in the queue are those of the calls that led from one book to another. -/
inductive Pending : StdMap Address String → List BookNotification → StdMap Address String → Prop
  | nil (mapAddressBook : StdMap Address String) : Pending mapAddressBook [] mapAddressBook
  | cons {shown mapAddressBook : StdMap Address String} {queue : List BookNotification}
      (call : BookCall) : Pending (call.apply shown).1 queue mapAddressBook →
      Pending shown ((call.apply shown).2 :: queue) mapAddressBook

theorem Pending.snoc {shown mapAddressBook : StdMap Address String} {queue : List BookNotification}
    (h : Pending shown queue mapAddressBook) (call : BookCall) :
    Pending shown (queue ++ [(call.apply mapAddressBook).2]) (call.apply mapAddressBook).1 := by
  induction h with
  | nil mapAddressBook => exact .cons call (.nil _)
  | cons first _ ih => exact .cons first ih

/-- The table shows the book as it was before the calls whose notifications are in the queue. -/
def BookState.Follows (Q : TableParams) (s : BookState) : Prop :=
  ∃ shown, Pending shown s.queue s.mapAddressBook ∧ Q.Shows shown s.cachedAddressTable

theorem BookState.Follows.inSync {Q : TableParams} {s : BookState} (h : s.Follows Q) :
    s.InSync Q := by
  obtain ⟨shown, hpending, hshows⟩ := h
  refine ⟨hshows.sorted, fun hqueue => ?_⟩
  rw [hqueue] at hpending
  cases hpending
  exact hshows.perm

theorem BookState.Follows.next {Q : TableParams} {s : BookState} (h : s.Follows Q)
    (event : BookEvent) : (s.next Q event).Follows Q := by
  obtain ⟨shown, hpending, hshows⟩ := h
  cases event with
  | call call => exact ⟨shown, hpending.snoc call, hshows⟩
  | process =>
    obtain ⟨mapAddressBook, queue, table⟩ := s
    cases hpending with
    | nil => exact ⟨_, .nil _, hshows⟩
    | cons call hrest => exact ⟨_, hrest, hshows.updateEntry call⟩

/-- **The table stays in step with the book**, over all changes and whenever their notifications are
processed, exactly when the book has its addresses in the order of their strings at first. -/
theorem addressTable_inSync_iff (Q : TableParams) (isMine : Address → Bool)
    (mapAddressBook : StdMap Address String) :
    (∀ s, Reachable (bookSystem Q isMine mapAddressBook) s → s.InSync Q) ↔
      (Q.stringsInOrder mapAddressBook).Pairwise (· < ·) := by
  constructor
  · intro h
    have hsorted := (h _ (.start rfl)).sorted
    unfold Sorted TableParams.refreshAddressTable at hsorted
    rw [List.map_map] at hsorted
    exact hsorted
  · intro hsorted s hs
    refine BookState.Follows.inSync (hs.invariant (I := fun s => s.Follows Q) ?_ ?_)
    · rintro s rfl
      exact ⟨mapAddressBook, .nil _, TableParams.shows_refresh isMine hsorted⟩
    · intro s event h _ _
      exact h.next event

/-! ## A lost update -/

/-- The key and the script whose ids are zero. -/
def zeroKey : Address := ⟨false, List.replicate 20 0, rfl⟩

def zeroScript : Address := ⟨true, List.replicate 20 0, rfl⟩

/-- Qt's searches, and the checksums of these two addresses. -/
def halvingTable : TableParams where
  Hash vch := if vch = 136 :: List.replicate 20 0 then [132, 160, 148, 178] else [220, 140, 97, 196]
  fTestNet := false
  fromStdString := String.toList
  qLowerBound := lowerHalving
  qUpperBound := upperHalving
  qLowerBound_eq _ x h := lowerHalving_eq h x
  qUpperBound_eq _ x h := upperHalving_eq h x

/-- A book with both addresses. -/
def exampleBook : StdMap Address String :=
  ((∅ : StdMap Address String).insert zeroKey "home").insert zeroScript "vault"

theorem zeroScript_string_lt :
    halvingTable.stringOf zeroScript < halvingTable.stringOf zeroKey := by
  decide +kernel

theorem exampleBook_inOrder : pairsInOrder exampleBook = [(zeroKey, "home"), (zeroScript, "vault")] := by
  have hkeys : exampleBook.keys.sort (· ≤ ·) = [zeroKey, zeroScript] := by
    have hinsert : exampleBook.keys = insert zeroKey {zeroScript} := by decide +kernel
    have hbelow : ∀ address ∈ ({zeroScript} : Finset Address), zeroKey ≤ address := by
      decide +kernel
    rw [hinsert, Finset.sort_insert _ hbelow (by decide +kernel), Finset.sort_singleton]
  rw [pairsInOrder, hkeys]
  rfl

/-- An update of the first of two rows that are in the wrong order is lost. -/
theorem updateEntry_missed {label : QString} {isMine : Bool} {row row' : AddressTableEntry}
    (hlt : row'.address < row.address) :
    halvingTable.updateEntry row.address label isMine .ctUpdated [row, row'] = [row, row'] := by
  obtain ⟨hlower, hupper⟩ := halving_missed hlt
  unfold TableParams.updateEntry
  exact if_pos (hlower.trans hupper.symm)

/-- The key gets a new name, and the table does not take it up. -/
theorem not_forall_addressTable_inSync :
    ¬ ∀ (Q : TableParams) (isMine : Address → Bool) (mapAddressBook : StdMap Address String) (s),
      Reachable (bookSystem Q isMine mapAddressBook) s → s.InSync Q := by
  intro h
  have hfilled : halvingTable.refreshAddressTable (fun _ => true) exampleBook =
      [⟨.receiving, "home".toList, halvingTable.stringOf zeroKey⟩,
        ⟨.receiving, "vault".toList, halvingTable.stringOf zeroScript⟩] := by
    rw [TableParams.refreshAddressTable, exampleBook_inOrder]
    rfl
  have hcall : (BookCall.setAddressBookName zeroKey "shop" true).apply exampleBook =
      (exampleBook.insert zeroKey "shop", ⟨zeroKey, "shop", true, .ctUpdated⟩) := by
    rw [BookCall.apply, if_pos (by decide +kernel)]
  have hstart : Reachable (bookSystem halvingTable (fun _ => true) exampleBook)
      ⟨exampleBook, [], halvingTable.refreshAddressTable (fun _ => true) exampleBook⟩ := .start rfl
  have hcalled : Reachable (bookSystem halvingTable (fun _ => true) exampleBook)
      ⟨exampleBook.insert zeroKey "shop", [⟨zeroKey, "shop", true, .ctUpdated⟩],
        halvingTable.refreshAddressTable (fun _ => true) exampleBook⟩ := by
    have hnext := hstart.next (BookEvent.call (.setAddressBookName zeroKey "shop" true)) trivial
      trivial
    simp only [bookSystem, BookState.next, hcall, List.nil_append] at hnext
    exact hnext
  have hprocessed := hcalled.next BookEvent.process trivial trivial
  -- the table still has the old name
  have hlost : halvingTable.updateEntry (halvingTable.stringOf zeroKey) "shop".toList true
      .ctUpdated (halvingTable.refreshAddressTable (fun _ => true) exampleBook) =
        halvingTable.refreshAddressTable (fun _ => true) exampleBook := by
    rw [hfilled]
    exact updateEntry_missed zeroScript_string_lt
  have hrows := (h _ _ _ _ hprocessed).rows rfl
  have hmem : (halvingTable.stringOf zeroKey, "home".toList) ∈
      (halvingTable.updateEntry (halvingTable.stringOf zeroKey) "shop".toList true
        .ctUpdated (halvingTable.refreshAddressTable (fun _ => true) exampleBook)).map
          fun entry => (entry.address, entry.label) := by
    rw [hlost, hfilled]
    exact List.mem_cons_self ..
  obtain ⟨⟨address, strName⟩, hitem, hrow⟩ := List.mem_map.mp (hrows.subset hmem)
  obtain ⟨hstring, hlabel⟩ := Prod.mk.inj hrow
  obtain rfl := TableParams.stringOf_injective halvingTable hstring
  rw [mem_pairsInOrder] at hitem
  have hname : (exampleBook.insert zeroKey "shop").lookup zeroKey = some "shop" :=
    Finmap.lookup_insert _
  obtain rfl := Option.some.inj (hname.symm.trans hitem)
  exact absurd hlabel (by decide)

end FoxCoin
