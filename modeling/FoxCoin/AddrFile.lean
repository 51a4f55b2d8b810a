import FoxCoin.AddrMan
import FoxCoin.Lib.Reader

/-! # The file of the address manager

What is written is the key, the counts, the entries of both tables in the order of their ids, and
the new buckets as lists of numbers of entries. Ids, positions, the tried buckets and `mapAddr` are
not written: the reader numbers the entries as they come and files the tried ones by their hash. -/

namespace FoxCoin

open Wire

/-! ## Fields -/

/-- `MAX_SIZE`. -/
def maxSize : ℕ := 0x02000000

/-- `ReadCompactSize`. -/
def readCompactSize : Reader ℕ := do
  let chSize ← readLe 1
  let nSizeRet ←
    if chSize < 253 then pure chSize
    else if chSize = 253 then readLe 2
    else if chSize = 254 then readLe 4
    else readLe 8
  if maxSize < nSizeRet then failure else pure nSizeRet

/-- An `int` of `k` bytes. -/
def readInt (k : ℕ) : Reader ℤ := (fun n : ℕ => (n : ℤ).bmod (256 ^ k)) <$> readLe k

/-- A vector of bytes. -/
def readVch : Reader (List UInt8) := readCompactSize >>= readBytes

/-- `Serialize` of an address. -/
def CNetAddr.serialize (addr : CNetAddr) : List UInt8 := addr.ip.toList

def CNetAddr.read : Reader CNetAddr := CNetAddr.mk <$> readArray 16

/-- `Serialize` of a service. The port is in network order. -/
def CService.serialize (service : CService) : List UInt8 :=
  service.addr.serialize ++ (leBytes 2 service.port.toNat).reverse

def CService.read : Reader CService := do
  let addr ← CNetAddr.read
  (fun portN => ⟨addr, UInt16.ofNat (ofLeBytes portN.reverse)⟩) <$> readBytes 2

/-- `Serialize` of an address on disk. The version that it begins with is the one of the tables. -/
def CAddress.serialize (addr : CAddress) : List UInt8 :=
  intBytes 4 0 ++ (leBytes 4 addr.nTime.toNat ++ (leBytes 8 addr.nServices.toNat ++
    addr.toCService.serialize))

def CAddress.read : Reader CAddress := do
  let _nVersion ← readInt 4
  let nTime ← readLe 4
  let nServices ← readLe 8
  (fun service =>
    { toCService := service
      nServices := UInt64.ofNat nServices
      nTime := UInt32.ofNat nTime
      nLastTry := 0 }) <$> CService.read

/-- `Serialize` of an entry. -/
def CAddrInfo.serialize (info : CAddrInfo) : List UInt8 :=
  info.toCAddress.serialize ++ (info.source.serialize ++
    (leBytes 8 info.nLastSuccess.toUInt64.toNat ++ leBytes 4 info.nAttempts.toUInt32.toNat))

def CAddrInfo.read : Reader CAddrInfo := do
  let addr ← CAddress.read
  let source ← CNetAddr.read
  let nLastSuccess ← readLe 8
  (fun nAttempts => { CAddrInfo.new addr source with
    nLastSuccess := (UInt64.ofNat nLastSuccess).toInt64
    nAttempts := (UInt32.ofNat nAttempts).toInt32 }) <$> readLe 4

/-- `CAddrInfo()`. -/
def CAddrInfo.init : CAddrInfo :=
  CAddrInfo.new
    { addr := ⟨Vector.replicate 16 0⟩
      port := 0
      nServices := 1
      nTime := 100000000
      nLastTry := 0 } ⟨Vector.replicate 16 0⟩

/-! ## What is written is read -/

/-- Numbers that fit. -/
theorem reads_readInt {k : ℕ} {n : ℤ} {m : ℕ} (hm : 256 ^ k = 2 * m) (hlow : -m ≤ n) (hhigh : n < m) :
    Reads (readInt k) (intBytes k n) n := by
  have hpos : (0 : ℤ) < 256 ^ k := by positivity
  have hnonneg := Int.emod_nonneg n hpos.ne'
  have hlt : (n % 256 ^ k).toNat < 256 ^ k := by
    have hmod := Int.emod_lt_of_pos n hpos
    zify
    rwa [Int.toNat_of_nonneg hnonneg]
  have hread := (reads_readLe hlt).map fun n : ℕ => (n : ℤ).bmod (256 ^ k)
  have hvalue : (((n % 256 ^ k).toNat : ℕ) : ℤ).bmod (256 ^ k) = n := by
    have hcast : (256 : ℤ) ^ k = ((256 ^ k : ℕ) : ℤ) := by push_cast; rfl
    rw [Int.toNat_of_nonneg hnonneg, hcast, Int.emod_bmod, hm]
    exact Int.bmod_eq_of_le (by omega) (by omega)
  rwa [hvalue] at hread

/-- Sizes up to `MAX_SIZE`. -/
theorem reads_readCompactSize {n : ℕ} (h : n ≤ maxSize) :
    Reads readCompactSize (writeCompactSize n) n := by
  have hend : Reads (if maxSize < n then failure else pure n : Reader ℕ) [] n := by
    rw [if_neg h.not_gt]
    exact .pure n
  have htag : ∀ tag : ℕ, tag < 256 → Reads (readLe 1) [UInt8.ofNat tag] tag :=
    fun tag htag => reads_readLe (by simpa using htag)
  unfold writeCompactSize
  unfold maxSize at h
  split_ifs with h1 h2 h3
  · refine (htag n (by omega)).bind_end ?_
    rw [if_pos h1]
    exact (Reads.pure n).bind_end hend
  · refine (htag 253 (by norm_num)).bind ?_
    rw [if_neg (by norm_num), if_pos rfl]
    exact (reads_readLe (by omega)).bind_end hend
  · refine (htag 254 (by norm_num)).bind ?_
    rw [if_neg (by norm_num), if_neg (by norm_num), if_pos rfl]
    exact (reads_readLe (by omega)).bind_end hend
  · omega

/-- Sizes above `MAX_SIZE`. -/
theorem fails_readCompactSize {n : ℕ} (h : maxSize < n) (h' : n < 256 ^ 8) :
    Fails readCompactSize (writeCompactSize n) := by
  have hend : Fails (if maxSize < n then failure else pure n : Reader ℕ) [] := by
    rw [if_pos h]
    exact fun _ => rfl
  have htag : ∀ tag : ℕ, tag < 256 → Reads (readLe 1) [UInt8.ofNat tag] tag :=
    fun tag htag => reads_readLe (by simpa using htag)
  unfold writeCompactSize
  unfold maxSize at h
  split_ifs with h1 h2 h3
  · omega
  · omega
  · refine (htag 254 (by norm_num)).bind_fails ?_
    rw [if_neg (by norm_num), if_neg (by norm_num), if_pos rfl]
    exact (reads_readLe (by omega)).bind_end_fails hend
  · refine (htag 255 (by norm_num)).bind_fails ?_
    rw [if_neg (by norm_num), if_neg (by norm_num), if_neg (by norm_num)]
    exact (reads_readLe h').bind_end_fails hend

theorem fails_readVch {vch : List UInt8} (h : maxSize < vch.length) (h' : vch.length < 256 ^ 8) :
    Fails readVch (serializeVch vch) :=
  (fails_readCompactSize h h').bind _ _

theorem reads_readVch {vch : List UInt8} (h : vch.length ≤ maxSize) :
    Reads readVch (serializeVch vch) vch :=
  (reads_readCompactSize h).bind (reads_readBytes vch)

theorem CNetAddr.reads_read (addr : CNetAddr) : Reads CNetAddr.read addr.serialize addr :=
  (reads_readArray addr.ip).map CNetAddr.mk

theorem CService.reads_read (service : CService) : Reads CService.read service.serialize service := by
  have hport := (reads_readBytes (leBytes 2 service.port.toNat).reverse).map
    fun portN => (⟨service.addr, UInt16.ofNat (ofLeBytes portN.reverse)⟩ : CService)
  have hlt : service.port.toNat < 256 ^ 2 := service.port.toNat_lt
  rw [List.length_reverse, leBytes_length, List.reverse_reverse, ofLeBytes_leBytes,
    Nat.mod_eq_of_lt hlt, UInt16.ofNat_toNat] at hport
  exact (CNetAddr.reads_read service.addr).bind hport

/-- What is read of an address: the time of the last try is not on disk. -/
theorem CAddress.reads_read (addr : CAddress) :
    Reads CAddress.read addr.serialize { addr with nLastTry := 0 } := by
  have hservice := (CService.reads_read addr.toCService).map fun service =>
    { toCService := service
      nServices := UInt64.ofNat addr.nServices.toNat
      nTime := UInt32.ofNat addr.nTime.toNat
      nLastTry := 0 : CAddress }
  have hvalue : ({ addr with nLastTry := 0 } : CAddress) =
      { toCService := addr.toCService
        nServices := UInt64.ofNat addr.nServices.toNat
        nTime := UInt32.ofNat addr.nTime.toNat
        nLastTry := 0 } := by
    rw [UInt64.ofNat_toNat, UInt32.ofNat_toNat]
  rw [hvalue]
  have htime : addr.nTime.toNat < 256 ^ 4 := addr.nTime.toNat_lt
  have hservices : addr.nServices.toNat < 256 ^ 8 := addr.nServices.toNat_lt
  refine (reads_readInt (m := 2 ^ 31) (by norm_num) (by norm_num) (by norm_num)).bind ?_
  exact (reads_readLe htime).bind ((reads_readLe hservices).bind hservice)

/-- What is read of an entry: the fields that are kept in memory only are as in a new entry. -/
def CAddrInfo.saved (info : CAddrInfo) : CAddrInfo :=
  { info with nLastTry := 0, nRefCount := 0, fInTried := false, nRandomPos := -1 }

theorem CAddrInfo.reads_read (info : CAddrInfo) : Reads CAddrInfo.read info.serialize info.saved := by
  have hattempts : info.nAttempts.toUInt32.toNat < 256 ^ 4 := info.nAttempts.toUInt32.toNat_lt
  have hsuccess : info.nLastSuccess.toUInt64.toNat < 256 ^ 8 := info.nLastSuccess.toUInt64.toNat_lt
  have hlast := (reads_readLe hattempts).map fun nAttempts =>
    { CAddrInfo.new { info.toCAddress with nLastTry := 0 } info.source with
      nLastSuccess := (UInt64.ofNat info.nLastSuccess.toUInt64.toNat).toInt64
      nAttempts := (UInt32.ofNat nAttempts).toInt32 : CAddrInfo }
  have hvalue : info.saved = { CAddrInfo.new { info.toCAddress with nLastTry := 0 } info.source with
      nLastSuccess := (UInt64.ofNat info.nLastSuccess.toUInt64.toNat).toInt64
      nAttempts := (UInt32.ofNat info.nAttempts.toUInt32.toNat).toInt32 } := by
    rw [UInt64.ofNat_toNat, UInt32.ofNat_toNat]
    rfl
  rw [hvalue]
  refine (CAddress.reads_read info.toCAddress).bind ?_
  exact (CNetAddr.reads_read info.source).bind ((reads_readLe hsuccess).bind hlast)

/-! ## Writing -/

namespace CAddrMan

/-- The entries in the order of their ids. -/
def entries (am : CAddrMan) : List (ℤ × CAddrInfo) :=
  (idsInOrder am.mapInfo.keys).filterMap fun nId => (am.mapInfo.lookup nId).map fun info => (nId, info)

/-- The loop that writes the entries of a table, and numbers the ids it comes to. It stops when it
has written as many entries as the table is said to have. -/
def writeEntries (fWritten : CAddrInfo → Bool) (nCount : ℤ) :
    List (ℤ × CAddrInfo) → ℤ → StdMap ℤ ℤ → List UInt8 × StdMap ℤ ℤ
  | [], _, mapUnkIds => ([], mapUnkIds)
  | (nId, info) :: entries, nIds, mapUnkIds =>
    if nIds = nCount then ([], mapUnkIds)
    else if fWritten info then
      let out := writeEntries fWritten nCount entries (nIds + 1) (mapUnkIds.insert nId nIds)
      (info.serialize ++ out.1, out.2)
    else writeEntries fWritten nCount entries nIds (mapUnkIds.insert nId nIds)

/-- A new bucket: its size, and the numbers of its entries. -/
def writeBucket (am : CAddrMan) (mapUnkIds : StdMap ℤ ℤ) (b : Fin 256) : List UInt8 :=
  intBytes 4 (am.vvNew b).card ++
    (idsInOrder (am.vvNew b)).flatMap fun nId => intBytes 4 ((mapUnkIds.lookup nId).getD 0)

/-- `Serialize` of the tables. -/
def serialize (am : CAddrMan) : List UInt8 :=
  let out := writeEntries (fun info => info.nRefCount ≠ 0) am.nNew am.entries 0 ∅
  leBytes 1 0 ++ (serializeVch am.nKey ++ (intBytes 4 am.nNew ++ (intBytes 4 am.nTried ++
    (intBytes 4 256 ++ (out.1 ++
      ((writeEntries (·.fInTried) am.nTried am.entries 0 ∅).1 ++
        (List.finRange 256).flatMap (am.writeBucket out.2)))))))

/-! ## Reading -/

variable (K : AddrParams)

/-- The reader takes in an entry of the new table. -/
def restoreNew (nUBuckets : ℤ) (am : CAddrMan) (n : ℕ) (info : CAddrInfo) : CAddrMan :=
  let nUBucket := info.getNewBucket K am.nKey info.source
  { am with
    mapInfo := am.mapInfo.insert n { info with
      nRandomPos := am.vRandom.length
      nRefCount := if nUBuckets ≠ 256 then info.nRefCount + 1 else info.nRefCount }
    mapAddr := am.mapAddr.insert info.addr n
    vRandom := am.vRandom ++ [(n : ℤ)]
    vvNew := if nUBuckets ≠ 256 then
      Function.update am.vvNew nUBucket (insert (n : ℤ) (am.vvNew nUBucket)) else am.vvNew }

/-- The reader takes in an entry of the tried table. It is lost when its bucket is full. -/
def restoreTried (am : CAddrMan) (info : CAddrInfo) : CAddrMan :=
  let nKBucket := info.getTriedBucket K am.nKey
  if (am.vvTried nKBucket).length < 64 then
    { am with
      mapInfo := am.mapInfo.insert am.nIdCount
        { info with nRandomPos := am.vRandom.length, fInTried := true }
      mapAddr := am.mapAddr.insert info.addr am.nIdCount
      vRandom := am.vRandom ++ [am.nIdCount]
      vvTried := Function.update am.vvTried nKBucket (am.vvTried nKBucket ++ [am.nIdCount])
      nIdCount := am.nIdCount + 1 }
  else { am with nTried := am.nTried - 1 }

/-- The reader takes in a number of a new bucket. -/
def restoreRef (nUBuckets : ℤ) (b : Fin 256) (am : CAddrMan) (nIndex : ℤ) : CAddrMan :=
  let info := (am.mapInfo.lookup nIndex).getD CAddrInfo.init
  if nUBuckets = 256 ∧ info.nRefCount < 4 then
    { am with
      mapInfo := am.mapInfo.insert nIndex { info with nRefCount := info.nRefCount + 1 }
      vvNew := Function.update am.vvNew b (insert nIndex (am.vvNew b)) }
  else { am with mapInfo := am.mapInfo.insert nIndex info }

/-- Reading a new bucket. -/
def readBucket (nUBuckets : ℤ) (am : CAddrMan) (b : ℕ) : Reader CAddrMan := do
  let nSize ← readInt 4
  (List.range nSize.toNat).foldlM
    (fun am _ => restoreRef nUBuckets (newBucketOf b) am <$> readInt 4) am

/-- `Unserialize` of the tables. The count of the lost entries is subtracted as they are lost. -/
def read : Reader CAddrMan := do
  let _nVersion ← readLe 1
  let nKey ← readVch
  let nNew ← readInt 4
  let nTried ← readInt 4
  let nUBuckets ← readInt 4
  let am ← (List.range nNew.toNat).foldlM
    (fun am n => restoreNew K nUBuckets am n <$> CAddrInfo.read)
    { empty nKey with nNew := nNew, nTried := nTried }
  let am ← (List.range nTried.toNat).foldlM (fun am _ => restoreTried K am <$> CAddrInfo.read)
    { am with nIdCount := nNew }
  (List.range nUBuckets.toNat).foldlM (readBucket nUBuckets) am

end CAddrMan

end FoxCoin
