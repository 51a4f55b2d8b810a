import FoxCoin.BlockImport
import FoxCoin.CString
import FoxCoin.Lib.OrderedMap
import FoxCoin.Lib.Overlay
import FoxCoin.Lib.RangeScan
import FoxCoin.SupportingTransactions
import FoxCoin.Unserialize

/-! # Wallet transactions as bytes

The account of a wallet transaction and the flags of its spent outputs are put into its map of strings
before it is written, and taken out of it afterwards, both from the object itself. The same happens
when the size is counted. -/

namespace FoxCoin

open Wire Overlay OrderedMap RangeScan

/-! ## Strings, maps and branches -/

/-- `Serialize` of a pair of strings. -/
def serializePair (item : StdString × StdString) : List UInt8 :=
  serializeVch item.1 ++ serializeVch item.2

/-- `Unserialize` of a pair of strings. -/
def readPair : Reader (StdString × StdString) := do
  let first ← readVch
  (fun second => (first, second)) <$> readVch

/-- `Serialize` of a map of strings. -/
def serializeMap (m : StdMap StdString StdString) : List UInt8 :=
  writeCompactSize m.keys.card ++ (pairs m).flatMap serializePair

/-- `Unserialize` of a map of strings. -/
def readMap : Reader (StdMap StdString StdString) := do
  let nSize ← readCompactSize
  (List.range nSize).foldlM (fun m _ => insertNew m <$> readPair) ∅

/-- `Unserialize` of a `char`. -/
def readChar : Reader UInt8 := UInt8.ofNat <$> readLe 1

/-- `GetSerializeSize` of a string. -/
def stringSerSize (str : StdString) : UInt32 :=
  .ofNat (getSizeOfCompactSize str.length + str.length)

/-- `GetSerializeSize` of a pair of strings. -/
def pairSerSize (item : StdString × StdString) : UInt32 :=
  stringSerSize item.1 + stringSerSize item.2

/-- `GetSerializeSize` of a map of strings. -/
def mapSerSize (m : StdMap StdString StdString) : UInt32 :=
  (pairs m).foldl (fun nSize item => nSize + pairSerSize item)
    (.ofNat (getSizeOfCompactSize m.keys.card))

/-- `Serialize` of a transaction with its branch. -/
def CMerkleTx.serialize (mtx : CMerkleTx) : List UInt8 :=
  mtx.tx.serialize ++ (leBytes 32 mtx.hashBlock ++ ((writeCompactSize mtx.vMerkleBranch.length ++
    mtx.vMerkleBranch.flatMap (leBytes 32)) ++ intBytes 4 mtx.nIndex))

/-- The sizes in memory of the elements of the vectors in a wallet transaction. -/
structure WalletTxSizes extends ElementSizes where
  hash : ElementSize
  merkleTx : ElementSize
  orderForm : ElementSize

/-- `Unserialize` of a transaction with its branch. -/
def CMerkleTx.read (sizes : WalletTxSizes) : Reader CMerkleTx := do
  let tx ← CTransaction.read sizes.toElementSizes
  let hashBlock ← readLe 32
  let vMerkleBranch ← readVector (readLe 32) sizes.hash
  (fun nIndex => ⟨tx, hashBlock, vMerkleBranch, nIndex⟩) <$> readInt 4

/-- `GetSerializeSize` of a transaction with its branch. -/
def CMerkleTx.nSerSize (mtx : CMerkleTx) : UInt32 :=
  mtx.tx.nSerSize + 32 + vectorSerSize (fun _ => 32) mtx.vMerkleBranch + 4

/-! ## Sizes -/

theorem stringSerSize_eq (str : StdString) :
    stringSerSize str = .ofNat (serializeVch str).length := by
  rw [stringSerSize, serializeVch, List.length_append, writeCompactSize_length]

theorem pairSerSize_eq (item : StdString × StdString) :
    pairSerSize item = .ofNat (serializePair item).length := by
  rw [pairSerSize, stringSerSize_eq, stringSerSize_eq, serializePair, List.length_append,
    UInt32.ofNat_add]

theorem mapSerSize_eq (m : StdMap StdString StdString) :
    mapSerSize m = .ofNat (serializeMap m).length := by
  have hvector := vectorSerSize_eq (v := pairs m) fun item _ => pairSerSize_eq item
  rwa [vectorSerSize, length_pairs] at hvector

theorem CMerkleTx.nSerSize_eq (mtx : CMerkleTx) : mtx.nSerSize = .ofNat mtx.serialize.length := by
  have hbranch : ∀ hash ∈ mtx.vMerkleBranch, 32 = UInt32.ofNat (leBytes 32 hash).length := by
    intro hash _
    rw [leBytes_length]
    rfl
  have h32 : UInt32.ofNat 32 = 32 := rfl
  have h4 : UInt32.ofNat 4 = 4 := rfl
  rw [nSerSize, CTransaction.nSerSize_eq, vectorSerSize_eq hbranch, serialize, intBytes]
  simp only [List.length_append, leBytes_length, UInt32.ofNat_add, h32, h4, UInt32.add_assoc]

namespace WalletTxFile

/-! ## The macro -/

/-- A `CWalletTx` without what is in memory only. A `char` is a byte. -/
structure CWalletTx extends CMerkleTx where
  vtxPrev : List CMerkleTx
  mapValue : StdMap StdString StdString
  vOrderForm : List (StdString × StdString)
  fTimeReceivedIsTxTime : ℕ
  nTimeReceived : ℕ
  fFromMe : UInt8
  strFromAccount : StdString
  vfSpent : List UInt8

/-- The keys of the map that stand for fields, or did so once. -/
def fromaccountKey : StdString := literal "fromaccount"

def versionKey : StdString := literal "version"

def spentKey : StdString := literal "spent"

namespace CWalletTx

/-- What is written is first changed: the fields go into the map. Besides the object it gives
`fSpent`. -/
def withFields (wtx : CWalletTx) : CWalletTx × UInt8 :=
  -- a flag is written as `'1'` or `'0'`, and `fSpent` tells whether one of them is set
  let (str, fSpent) := wtx.vfSpent.foldl
    (fun p f => (p.1 ++ [if f ≠ 0 then 49 else 48], if f ≠ 0 then 1 else p.2)) (([] : StdString), 0)
  ({ wtx with
    mapValue := (wtx.mapValue.insert fromaccountKey wtx.strFromAccount).insert spentKey str }, fSpent)

/-- The fields are taken out of the map. -/
def withoutFields (wtx : CWalletTx) : CWalletTx :=
  { wtx with
    -- nothing is written under `"version"` any more
    mapValue := ((wtx.mapValue.erase fromaccountKey).erase versionKey).erase spentKey }

/-- `Serialize`: the bytes, and the object afterwards. -/
def serialize (wtx : CWalletTx) : List UInt8 × CWalletTx :=
  let (pthis, fSpent) := wtx.withFields
  (pthis.toCMerkleTx.serialize ++
    ((writeCompactSize pthis.vtxPrev.length ++ pthis.vtxPrev.flatMap CMerkleTx.serialize) ++
      (serializeMap pthis.mapValue ++
        ((writeCompactSize pthis.vOrderForm.length ++ pthis.vOrderForm.flatMap serializePair) ++
          (leBytes 4 pthis.fTimeReceivedIsTxTime ++ (leBytes 4 pthis.nTimeReceived ++
            ([pthis.fFromMe] ++ [fSpent])))))), pthis.withoutFields)

/-- `GetSerializeSize`: the size, and the object afterwards. -/
def nSerSize (wtx : CWalletTx) : UInt32 × CWalletTx :=
  let (pthis, _) := wtx.withFields
  (pthis.toCMerkleTx.nSerSize + vectorSerSize CMerkleTx.nSerSize pthis.vtxPrev +
    mapSerSize pthis.mapValue + vectorSerSize pairSerSize pthis.vOrderForm + 4 + 4 + 1 + 1,
    pthis.withoutFields)

/-- `Unserialize`. -/
def read (sizes : WalletTxSizes) : Reader CWalletTx := do
  let merkleTx ← CMerkleTx.read sizes
  let vtxPrev ← readVector (CMerkleTx.read sizes) sizes.merkleTx
  let mapValue ← readMap
  let vOrderForm ← readVector readPair sizes.orderForm
  let fTimeReceivedIsTxTime ← readLe 4
  let nTimeReceived ← readLe 4
  let fFromMe ← readChar
  (fun fSpent => withoutFields
    { toCMerkleTx := merkleTx, vtxPrev, mapValue, vOrderForm, fTimeReceivedIsTxTime, nTimeReceived,
      fFromMe
      strFromAccount := (mapValue.lookup fromaccountKey).getD []
      vfSpent := match mapValue.lookup spentKey with
        | some str => str.map fun c => if c ≠ 48 then 1 else 0
        -- older files have one flag for all outputs
        | none => List.replicate merkleTx.tx.vout.length fSpent }) <$> readChar

end CWalletTx

/-! ## Reading strings, maps and branches -/

theorem reads_readChar (c : UInt8) : Reads readChar [c] c := by
  have hbytes : leBytes 1 c.toNat = [c] := by simp [leBytes]
  have h := (reads_readLe (k := 1) (n := c.toNat) c.toNat_lt).map UInt8.ofNat
  rwa [hbytes, UInt8.ofNat_toNat] at h

theorem reads_readPair {item : StdString × StdString}
    (h : item.1.length ≤ maxSize ∧ item.2.length ≤ maxSize) :
    Reads readPair (serializePair item) item :=
  (reads_readVch h.1).bind ((reads_readVch h.2).map _)

/-- The strings of a map can be read, and so can its size. -/
structure MapBounded (m : StdMap StdString StdString) : Prop where
  size : m.keys.card ≤ maxSize
  strings : ∀ key value, m.lookup key = some value → key.length ≤ maxSize ∧ value.length ≤ maxSize

/-- **A map of strings is read as it was written.** -/
theorem reads_readMap {m : StdMap StdString StdString} (h : MapBounded m) :
    Reads readMap (serializeMap m) m := by
  refine (reads_readCompactSize h.size).bind ?_
  have hstep : ∀ item ∈ pairs m, ∀ m' : StdMap StdString StdString,
      Reads (insertNew m' <$> readPair) (serializePair item) (insertNew m' item) :=
    fun item hitem m' => (reads_readPair (h.strings _ _ (mem_pairs.mp hitem))).map (insertNew m')
  -- the loop inserts the pairs of the walk one by one, and these give the map
  have hloop := Reads.foldlM_range hstep ∅
  rwa [length_pairs, foldl_insertNew_pairs] at hloop

/-- A transaction and its branch that can be read. -/
structure MerkleTxBounded (mtx : CMerkleTx) : Prop where
  tx : mtx.tx.Bounded
  hashBlock : mtx.hashBlock < 256 ^ 32
  vMerkleBranch_length : mtx.vMerkleBranch.length ≤ maxSize
  vMerkleBranch : ∀ hash ∈ mtx.vMerkleBranch, hash < 256 ^ 32
  nIndex : -2 ^ 31 ≤ mtx.nIndex ∧ mtx.nIndex < 2 ^ 31

theorem CMerkleTx.reads_read (sizes : WalletTxSizes) {mtx : CMerkleTx} (h : MerkleTxBounded mtx) :
    Reads (CMerkleTx.read sizes) mtx.serialize mtx :=
  (CTransaction.reads_read sizes.toElementSizes h.tx).bind ((reads_readLe h.hashBlock).bind
    ((reads_readVector (fun hash hhash => reads_readLe (h.vMerkleBranch hash hhash))
      h.vMerkleBranch_length).bind
        ((reads_readInt (m := 2 ^ 31) (by norm_num) h.nIndex.1 h.nIndex.2).map _)))

namespace CWalletTx

/-! ## What is written -/

/-- The string that stands for flags. -/
def spentString (vfSpent : List UInt8) : StdString := vfSpent.map fun f => if f ≠ 0 then 49 else 48

/-- The map of strings as it is written. -/
def writtenMap (wtx : CWalletTx) : StdMap StdString StdString :=
  (wtx.mapValue.insert fromaccountKey wtx.strFromAccount).insert spentKey (spentString wtx.vfSpent)

theorem foldl_spent (vfSpent : List UInt8) (p : StdString × UInt8) :
    (vfSpent.foldl (fun p f => (p.1 ++ [if f ≠ 0 then 49 else 48], if f ≠ 0 then 1 else p.2)) p).1 =
      p.1 ++ spentString vfSpent := by
  induction vfSpent generalizing p with
  | nil => exact (List.append_nil _).symm
  | cons f vfSpent ih =>
    rw [List.foldl_cons, ih, spentString, spentString, List.map_cons, List.append_assoc,
      List.singleton_append]

theorem withFields_fst (wtx : CWalletTx) :
    wtx.withFields.1 = { wtx with mapValue := wtx.writtenMap } := by
  have hstr := foldl_spent wtx.vfSpent ([], 0)
  rw [List.nil_append] at hstr
  rw [withFields, writtenMap, ← hstr]

/-- The keys of the map are not those of fields. -/
structure NoFieldKeys (wtx : CWalletTx) : Prop where
  fromaccount : fromaccountKey ∉ wtx.mapValue
  version : versionKey ∉ wtx.mapValue
  spent : spentKey ∉ wtx.mapValue

theorem spentKey_ne : spentKey ≠ fromaccountKey := by decide

/-- **The map is as it was** when the fields are taken out again. -/
theorem withoutFields_writtenMap {wtx : CWalletTx} (h : wtx.NoFieldKeys) :
    ((wtx.writtenMap.erase fromaccountKey).erase versionKey).erase spentKey = wtx.mapValue := by
  refine Finmap.ext_lookup fun key => ?_
  rw [writtenMap]
  simp only [lookup_erase_eq_ite, lookup_insert_eq_ite]
  split_ifs with hspent hversion hfrom
  · rw [hspent, Finmap.lookup_eq_none.mpr h.spent]
  · rw [hversion, Finmap.lookup_eq_none.mpr h.version]
  · rw [hfrom, Finmap.lookup_eq_none.mpr h.fromaccount]
  · rfl

theorem serialize_snd {wtx : CWalletTx} (h : wtx.NoFieldKeys) : wtx.serialize.2 = wtx := by
  have hfields : wtx.serialize.2 = wtx.withFields.1.withoutFields := rfl
  rw [hfields, withFields_fst, withoutFields]
  simp only [withoutFields_writtenMap h]

/-- **The size is that of the bytes** as far as an `unsigned int` tells it, and counting it changes
the object as writing does. -/
theorem nSerSize_eq (wtx : CWalletTx) :
    wtx.nSerSize = (.ofNat wtx.serialize.1.length, wtx.serialize.2) := by
  have h4 : UInt32.ofNat 4 = 4 := rfl
  have h1 : UInt32.ofNat 1 = 1 := rfl
  refine Prod.ext ?_ rfl
  simp only [nSerSize, serialize, CMerkleTx.nSerSize_eq, mapSerSize_eq,
    vectorSerSize_eq fun mtx _ => CMerkleTx.nSerSize_eq mtx,
    vectorSerSize_eq fun item _ => pairSerSize_eq item, List.length_append, leBytes_length,
    UInt32.ofNat_add, List.length_singleton, h4, h1, UInt32.add_assoc]

/-! ## What is read -/

/-- The fields fit their types and the sizes, and so does the map with two more keys. -/
structure Bounded (wtx : CWalletTx) : Prop where
  merkleTx : MerkleTxBounded wtx.toCMerkleTx
  vtxPrev_length : wtx.vtxPrev.length ≤ maxSize
  vtxPrev : ∀ mtx ∈ wtx.vtxPrev, MerkleTxBounded mtx
  mapValue_size : wtx.mapValue.keys.card + 2 ≤ maxSize
  mapValue : ∀ key value, wtx.mapValue.lookup key = some value →
    key.length ≤ maxSize ∧ value.length ≤ maxSize
  vOrderForm_length : wtx.vOrderForm.length ≤ maxSize
  vOrderForm : ∀ item ∈ wtx.vOrderForm, item.1.length ≤ maxSize ∧ item.2.length ≤ maxSize
  fTimeReceivedIsTxTime : wtx.fTimeReceivedIsTxTime < 256 ^ 4
  nTimeReceived : wtx.nTimeReceived < 256 ^ 4
  strFromAccount_length : wtx.strFromAccount.length ≤ maxSize
  vfSpent_length : wtx.vfSpent.length ≤ maxSize

theorem keys_card_insert_le (m : StdMap StdString StdString) (key value : StdString) :
    (m.insert key value).keys.card ≤ m.keys.card + 1 := by
  have hsub : (m.insert key value).keys ⊆ insert key m.keys := by
    intro key' hkey'
    rw [Finmap.mem_keys, Finmap.mem_insert] at hkey'
    rw [Finset.mem_insert, Finmap.mem_keys]
    exact hkey'
  exact (Finset.card_le_card hsub).trans (Finset.card_insert_le _ _)

theorem Bounded.writtenMap {wtx : CWalletTx} (h : wtx.Bounded) : MapBounded wtx.writtenMap := by
  have hcard := keys_card_insert_le wtx.mapValue fromaccountKey wtx.strFromAccount
  have hcard' := keys_card_insert_le (wtx.mapValue.insert fromaccountKey wtx.strFromAccount) spentKey
    (spentString wtx.vfSpent)
  refine ⟨hcard'.trans (by have := h.mapValue_size; omega), fun key value hvalue => ?_⟩
  rw [CWalletTx.writtenMap, lookup_insert_eq_ite, lookup_insert_eq_ite] at hvalue
  split_ifs at hvalue with hspent hfrom
  · -- there is a character for each flag
    obtain rfl := Option.some.inj hvalue
    refine ⟨by rw [hspent]; decide, ?_⟩
    rw [spentString, List.length_map]
    exact h.vfSpent_length
  · obtain rfl := Option.some.inj hvalue
    exact ⟨by rw [hfrom]; decide, h.strFromAccount_length⟩
  · exact h.mapValue key value hvalue

/-- A flag is read as one or zero. -/
def asFlag (f : UInt8) : UInt8 := if f ≠ 0 then 1 else 0

theorem read_spentString (vfSpent : List UInt8) :
    ((spentString vfSpent).map fun c => if c ≠ 48 then (1 : UInt8) else 0) = vfSpent.map asFlag := by
  rw [spentString, List.map_map]
  refine List.map_congr_left fun f _ => ?_
  rw [Function.comp_apply, asFlag]
  split_ifs with hf hc hc
  · rfl
  · exact absurd (by decide : (49 : UInt8) ≠ 48) hc
  · exact absurd rfl hc
  · rfl

/-- **A wallet transaction is read as it was written**, but for flags that are neither one nor
zero. -/
theorem reads_read (sizes : WalletTxSizes) {wtx : CWalletTx} (h : wtx.Bounded)
    (hkeys : wtx.NoFieldKeys) :
    Reads (read sizes) wtx.serialize.1 { wtx with vfSpent := wtx.vfSpent.map asFlag } := by
  obtain ⟨fSpent, hfSpent⟩ : ∃ fSpent, fSpent = wtx.withFields.2 := ⟨_, rfl⟩
  have hfields : wtx.withFields = ({ wtx with mapValue := wtx.writtenMap }, fSpent) :=
    Prod.ext wtx.withFields_fst hfSpent.symm
  have haccount : wtx.writtenMap.lookup fromaccountKey = some wtx.strFromAccount := by
    rw [CWalletTx.writtenMap, lookup_insert_eq_ite, if_neg (Ne.symm spentKey_ne), Finmap.lookup_insert]
  have hspent : wtx.writtenMap.lookup spentKey = some (spentString wtx.vfSpent) := by
    rw [CWalletTx.writtenMap, Finmap.lookup_insert]
  have hread : Reads (read sizes) wtx.serialize.1 (withoutFields
      { wtx with
        mapValue := wtx.writtenMap
        strFromAccount := (wtx.writtenMap.lookup fromaccountKey).getD []
        vfSpent := match wtx.writtenMap.lookup spentKey with
          | some str => str.map fun c => if c ≠ 48 then 1 else 0
          | none => List.replicate wtx.tx.vout.length fSpent }) := by
    rw [serialize, hfields]
    exact (CMerkleTx.reads_read sizes h.merkleTx).bind
      ((reads_readVector (fun mtx hmtx => CMerkleTx.reads_read sizes (h.vtxPrev mtx hmtx))
        h.vtxPrev_length).bind
      ((reads_readMap h.writtenMap).bind
      ((reads_readVector (fun item hitem => reads_readPair (h.vOrderForm item hitem))
        h.vOrderForm_length).bind
      ((reads_readLe h.fTimeReceivedIsTxTime).bind ((reads_readLe h.nTimeReceived).bind
        ((reads_readChar _).bind ((reads_readChar _).map _)))))))
  -- both fields are in the map that has been read
  rw [haccount, hspent, withoutFields] at hread
  simp only [withoutFields_writtenMap hkeys, read_spentString, Option.getD_some] at hread
  exact hread

/-- **Writing and reading give the object again**, and writing leaves it as it is. -/
structure RoundTrips (sizes : WalletTxSizes) (wtx : CWalletTx) : Prop where
  read : ∀ rest, CWalletTx.read sizes (wtx.serialize.1 ++ rest) = some (wtx, rest)
  unchanged : wtx.serialize.2 = wtx

/-- **A wallet transaction comes back from its bytes** if its flags are one or zero and nothing in it
is longer than `MAX_SIZE`. -/
theorem roundTrips (sizes : WalletTxSizes) (wtx : CWalletTx) (h : wtx.Bounded)
    (hkeys : wtx.NoFieldKeys) (hflags : ∀ f ∈ wtx.vfSpent, f = 0 ∨ f = 1) :
    wtx.RoundTrips sizes := by
  have hsame : wtx.vfSpent.map asFlag = wtx.vfSpent := by
    refine (List.map_congr_left fun f hf => ?_).trans (List.map_id _)
    obtain rfl | rfl := hflags f hf <;> rfl
  have hread := reads_read sizes h hkeys
  rw [hsame] at hread
  exact ⟨hread, serialize_snd hkeys⟩

/-- A generation that pays `50`, with its branch. -/
def exampleMerkleTx : CMerkleTx := ⟨exampleCoinbase 1 [50], 7, [3, 4], 0⟩

/-- A wallet transaction with flags and a map. -/
def exampleSpent (vfSpent : List UInt8) (mapValue : StdMap StdString StdString) : CWalletTx where
  toCMerkleTx := exampleMerkleTx
  vtxPrev := [exampleMerkleTx]
  mapValue := mapValue
  vOrderForm := [(literal "Message", literal "hello")]
  fTimeReceivedIsTxTime := 1
  nTimeReceived := 1300000000
  fFromMe := 1
  strFromAccount := literal "savings"
  vfSpent := vfSpent

/-- Sizes of the elements in memory. A hash is as large as an output. -/
def exampleSizes : WalletTxSizes :=
  ⟨ExternalFile.exampleSizes, ExternalFile.exampleSizes.txout, ⟨128, by decide⟩, ⟨16, by decide⟩⟩

theorem exampleMerkleTx_bounded : MerkleTxBounded exampleMerkleTx := by
  refine ⟨⟨⟨by decide, by decide, ?_, by decide, ?_, by decide⟩, by decide, by decide, by decide,
    by decide⟩, by decide, by decide, by decide, by decide⟩
  · intro txin hmem
    obtain rfl : txin = ⟨COutPoint.setNull, [1, 1], uintMax⟩ := by
      simpa [exampleMerkleTx, exampleCoinbase, exampleTx] using hmem
    exact ⟨⟨by decide, by decide⟩, by decide, by decide⟩
  · intro txout hmem
    obtain rfl : txout = ⟨50, []⟩ := by
      simpa [exampleMerkleTx, exampleCoinbase, exampleTx] using hmem
    exact ⟨by decide, by decide⟩

theorem exampleSpent_bounded {vfSpent : List UInt8} (hlen : vfSpent.length ≤ maxSize)
    {mapValue : StdMap StdString StdString} (hsize : mapValue.keys.card + 2 ≤ maxSize)
    (hstrings : ∀ key value, mapValue.lookup key = some value →
      key.length ≤ maxSize ∧ value.length ≤ maxSize) :
    (exampleSpent vfSpent mapValue).Bounded where
  merkleTx := exampleMerkleTx_bounded
  vtxPrev_length := show [exampleMerkleTx].length ≤ maxSize by decide
  vtxPrev mtx hmtx := by
    rw [List.mem_singleton.mp hmtx]
    exact exampleMerkleTx_bounded
  mapValue_size := hsize
  mapValue := hstrings
  vOrderForm_length := show [(literal "Message", literal "hello")].length ≤ maxSize by decide
  vOrderForm item hitem := by
    rw [List.mem_singleton.mp hitem]
    decide
  fTimeReceivedIsTxTime := show 1 < 256 ^ 4 by norm_num
  nTimeReceived := show 1300000000 < 256 ^ 4 by norm_num
  strFromAccount_length := show (literal "savings").length ≤ maxSize by decide
  vfSpent_length := hlen

theorem exampleSpent_noFieldKeys (vfSpent : List UInt8) : (exampleSpent vfSpent ∅).NoFieldKeys :=
  ⟨Finmap.notMem_empty, Finmap.notMem_empty, Finmap.notMem_empty⟩

/-- A transaction with a comment and two outputs, one of which is spent. -/
theorem roundTrips_exampleSpent :
    (exampleSpent [1, 0] ((∅ : StdMap StdString StdString).insert (literal "comment")
      (literal "first"))).RoundTrips exampleSizes := by
  have hlookup : ∀ key value, ((∅ : StdMap StdString StdString).insert (literal "comment")
      (literal "first")).lookup key = some value →
        key = literal "comment" ∧ value = literal "first" := by
    intro key value hvalue
    rw [lookup_insert_eq_ite, Finmap.lookup_empty] at hvalue
    split_ifs at hvalue with hkey
    exact ⟨hkey, (Option.some.inj hvalue).symm⟩
  have hnot : ∀ key, key ≠ literal "comment" → key ∉ (∅ : StdMap StdString StdString).insert
      (literal "comment") (literal "first") := by
    intro key hne hmem
    obtain ⟨value, hvalue⟩ := Finmap.mem_iff.mp hmem
    exact hne (hlookup key value hvalue).1
  have hstrings : ∀ key value, ((∅ : StdMap StdString StdString).insert (literal "comment")
      (literal "first")).lookup key = some value →
        key.length ≤ maxSize ∧ value.length ≤ maxSize := by
    intro key value hvalue
    obtain ⟨rfl, rfl⟩ := hlookup key value hvalue
    exact ⟨by decide, by decide⟩
  have hsize : ((∅ : StdMap StdString StdString).insert (literal "comment")
      (literal "first")).keys.card + 2 ≤ maxSize := by
    have hcard : ((∅ : StdMap StdString StdString).insert (literal "comment")
        (literal "first")).keys.card ≤ 1 := keys_card_insert_le _ _ _
    exact (Nat.add_le_add_right hcard 2).trans (by decide)
  have hflags : ∀ f ∈ ([1, 0] : List UInt8), f = 0 ∨ f = 1 := by
    intro f hf
    simpa [or_comm] using hf
  exact roundTrips exampleSizes _ (exampleSpent_bounded (by decide) hsize hstrings)
    ⟨hnot _ (by decide), hnot _ (by decide), hnot _ (by decide)⟩ hflags

theorem pairs_writtenMap_exampleSpent (vfSpent : List UInt8) :
    pairs (exampleSpent vfSpent ∅).writtenMap =
      [(fromaccountKey, literal "savings"), (spentKey, spentString vfSpent)] := by
  have hkeys : (exampleSpent vfSpent ∅).writtenMap.keys.sort (· ≤ ·) = [fromaccountKey, spentKey] := by
    have hset : (exampleSpent vfSpent ∅).writtenMap.keys = {fromaccountKey, spentKey} := by
      ext key
      rw [Finmap.mem_keys, writtenMap, Finmap.mem_insert, Finmap.mem_insert]
      simp [exampleSpent, Finmap.notMem_empty, or_comm]
    rw [hset, Finset.sort_insert, Finset.sort_singleton]
    · intro key hkey
      rw [Finset.mem_singleton.mp hkey]
      decide
    · decide
  rw [pairs, hkeys, writtenMap]
  simp [lookup_insert_eq_ite, Ne.symm spentKey_ne, exampleSpent]

/-- A string of flags that is longer than `MAX_SIZE` is not read. -/
theorem fails_read_exampleSpent (sizes : WalletTxSizes) {vfSpent : List UInt8}
    (h : maxSize < vfSpent.length) (h' : vfSpent.length < 256 ^ 8) :
    Fails (read sizes) (exampleSpent vfSpent ∅).serialize.1 := by
  have hspent : Fails readPair (serializePair (spentKey, spentString vfSpent)) := by
    have hkey : Reads readVch (serializeVch spentKey) spentKey := reads_readVch (by decide)
    refine hkey.bind_fails ((fails_readVch ?_ ?_).map _)
    · rwa [spentString, List.length_map]
    · rwa [spentString, List.length_map]
  have hmap : Fails readMap (serializeMap (exampleSpent vfSpent ∅).writtenMap) := by
    rw [serializeMap, ← length_pairs, pairs_writtenMap_exampleSpent]
    -- the flags are behind the account in the walk
    refine (reads_readCompactSize (n := 2) (by decide)).bind_fails ?_
    have haccount : Reads readPair (serializePair (fromaccountKey, literal "savings")) _ :=
      reads_readPair (by decide)
    refine (haccount.map (insertNew ∅)).bind_fails ?_
    exact (hspent.map _).bind _ _
  obtain ⟨fSpent, hfSpent⟩ : ∃ fSpent, fSpent = (exampleSpent vfSpent ∅).withFields.2 := ⟨_, rfl⟩
  have hfields : (exampleSpent vfSpent ∅).withFields =
      ({ exampleSpent vfSpent ∅ with mapValue := (exampleSpent vfSpent ∅).writtenMap }, fSpent) :=
    Prod.ext (withFields_fst _) hfSpent.symm
  rw [serialize, hfields]
  exact (CMerkleTx.reads_read sizes exampleMerkleTx_bounded).bind_fails
    ((reads_readVector (l := [exampleMerkleTx])
      (fun mtx hmtx => CMerkleTx.reads_read sizes (List.mem_singleton.mp hmtx ▸
        exampleMerkleTx_bounded)) (by decide)).bind_fails (hmap.bind _ _))

/-- A flag that is neither one nor zero is read as one, and flags are not read when they are more than
`MAX_SIZE`. -/
theorem not_roundTrips :
    ((exampleSpent [2] ∅).NoFieldKeys ∧ ¬(exampleSpent [2] ∅).RoundTrips exampleSizes) ∧
      (exampleSpent (List.replicate (maxSize + 1) 0) ∅).NoFieldKeys ∧
        ¬(exampleSpent (List.replicate (maxSize + 1) 0) ∅).RoundTrips exampleSizes := by
  refine ⟨⟨exampleSpent_noFieldKeys _, fun h => ?_⟩, exampleSpent_noFieldKeys _, fun h => ?_⟩
  · have hbounded : (exampleSpent [2] ∅).Bounded :=
      exampleSpent_bounded (by decide) (by decide) fun _ _ hvalue => by cases hvalue
    have hread := reads_read exampleSizes hbounded (exampleSpent_noFieldKeys _)
    have hsame := (Prod.mk.inj (Option.some.inj ((h.read []).symm.trans (hread [])))).1
    have hflags : [2] = [2].map asFlag := congrArg CWalletTx.vfSpent hsame
    exact absurd hflags (by decide)
  · have hlen : (List.replicate (maxSize + 1) (0 : UInt8)).length = maxSize + 1 :=
      List.length_replicate
    have hfails : Fails (read exampleSizes)
        (exampleSpent (List.replicate (maxSize + 1) 0) ∅).serialize.1 :=
      fails_read_exampleSpent exampleSizes (by rw [hlen]; exact Nat.lt_succ_self _)
        (by rw [hlen]; decide)
    exact absurd ((hfails []).symm.trans (h.read [])) (Option.some_ne_none _).symm

end CWalletTx

end WalletTxFile

end FoxCoin
