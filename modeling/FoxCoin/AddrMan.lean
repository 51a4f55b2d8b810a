import FoxCoin.Serialize
import Mathlib.Data.Finmap
import Mathlib.Logic.Function.Basic

/-! # The address manager

`CAddrMan` keeps the addresses a node has heard of. An address that was never tried is in up to four
of 256 "new" buckets, one that is known to be accessible in one of 64 "tried" buckets. Random
choices are taken from a stream of numbers, and the hash that selects the buckets is a parameter. -/

namespace FoxCoin

open Wire

/-! ## Addresses -/

/-- `CNetAddr`: the 16 bytes of an address. -/
structure CNetAddr where
  ip : Vector UInt8 16
  deriving DecidableEq

/-- `CService`: an address and a port. -/
structure CService where
  addr : CNetAddr
  port : UInt16
  deriving DecidableEq

/-- `CAddress`: a service, what it offers, and when it was last seen and tried. -/
structure CAddress extends CService where
  nServices : UInt64
  nTime : UInt32
  nLastTry : Int64
  deriving DecidableEq

/-- `CAddrInfo`: an address with its statistics and its place in the tables. -/
structure CAddrInfo extends CAddress where
  source : CNetAddr
  nLastSuccess : Int64
  nAttempts : Int32
  nRefCount : ℤ
  fInTried : Bool
  nRandomPos : ℤ
  deriving DecidableEq

/-- `CAddrInfo(addrIn, addrSource)`. -/
def CAddrInfo.new (addrIn : CAddress) (addrSource : CNetAddr) : CAddrInfo :=
  { toCAddress := { addrIn with nLastTry := 0 }
    source := addrSource
    nLastSuccess := 0
    nAttempts := 0
    nRefCount := 0
    fInTried := false
    nRandomPos := -1 }

/-- The functions of other files: 64 bits of the hash of a stream, the group of an address, and
whether it is routable. -/
structure AddrParams where
  hash64 : List UInt8 → ℕ
  getGroup : CNetAddr → List UInt8
  isRoutable : CNetAddr → Bool

/-- A vector of bytes in a stream. -/
def serializeVch (vch : List UInt8) : List UInt8 := writeCompactSize vch.length ++ vch

/-- `CService::GetKey`. -/
def CService.getKey (service : CService) : List UInt8 :=
  service.addr.ip.toList ++ [(service.port / 256).toUInt8, service.port.toUInt8]

variable (K : AddrParams)

/-- `CAddrInfo::GetTriedBucket`. -/
def CAddrInfo.getTriedBucket (nKey : List UInt8) (info : CAddrInfo) : Fin 64 :=
  let hash1 := K.hash64 (serializeVch nKey ++ serializeVch info.getKey)
  let hash2 := K.hash64 (serializeVch nKey ++ serializeVch (K.getGroup info.addr) ++
    leBytes 8 (hash1 % 4))
  Fin.ofNat 64 hash2

/-- A new bucket, modulo their number. -/
def newBucketOf (n : ℕ) : Fin 256 := Fin.ofNat 256 n

/-- `CAddrInfo::GetNewBucket`, for a source. -/
def CAddrInfo.getNewBucket (nKey : List UInt8) (info : CAddrInfo) (src : CNetAddr) : Fin 256 :=
  let hash1 := K.hash64 (serializeVch nKey ++ serializeVch (K.getGroup info.addr) ++
    serializeVch (K.getGroup src))
  let hash2 := K.hash64 (serializeVch nKey ++ serializeVch (K.getGroup src) ++
    leBytes 8 (hash1 % 32))
  newBucketOf hash2

/-- `CAddrInfo::IsTerrible`. -/
def CAddrInfo.isTerrible (info : CAddrInfo) (nNow : ℤ) : Bool :=
  let nTime : ℤ := info.nTime.toNat
  if info.nLastTry ≠ 0 ∧ nNow - 60 ≤ info.nLastTry.toInt then false
  else if nNow + 10 * 60 < nTime then true
  else if info.nTime = 0 ∨ 30 * 86400 < nNow - nTime then true
  else if info.nLastSuccess = 0 ∧ 3 ≤ info.nAttempts.toInt then true
  else decide (7 * 86400 < nNow - info.nLastSuccess.toInt ∧ 10 ≤ info.nAttempts.toInt)

/-! ## The tables -/

/-- `CAddrMan`. -/
structure CAddrMan where
  nKey : List UInt8
  nIdCount : ℤ
  mapInfo : StdMap ℤ CAddrInfo
  mapAddr : StdMap CNetAddr ℤ
  vRandom : List ℤ
  nTried : ℤ
  vvTried : Fin 64 → List ℤ
  nNew : ℤ
  vvNew : Fin 256 → Finset ℤ

/-- `GetRandInt`, from a number of the stream. -/
def getRandInt (n nMax : ℕ) : ℕ := if nMax = 0 then 0 else n % nMax

namespace CAddrMan

/-- `CAddrMan()`, with the random key. -/
def empty (nKey : List UInt8) : CAddrMan where
  nKey := nKey
  nIdCount := 0
  mapInfo := ∅
  mapAddr := ∅
  vRandom := []
  nTried := 0
  vvTried _ := []
  nNew := 0
  vvNew _ := ∅

/-- A change of the entry of an id. -/
def modifyInfo (am : CAddrMan) (nId : ℤ) (f : CAddrInfo → CAddrInfo) : CAddrMan :=
  match am.mapInfo.lookup nId with
  | none => am
  | some info => { am with mapInfo := am.mapInfo.insert nId (f info) }

/-- `Find`: the id of an address and its entry. -/
def find (am : CAddrMan) (addr : CNetAddr) : Option (ℤ × CAddrInfo) :=
  (am.mapAddr.lookup addr).bind fun nId => (am.mapInfo.lookup nId).map fun info => (nId, info)

/-- `Create`. The new entry has the id `nIdCount`. -/
def create (am : CAddrMan) (addr : CAddress) (addrSource : CNetAddr) : CAddrMan :=
  { am with
    nIdCount := am.nIdCount + 1
    mapInfo := am.mapInfo.insert am.nIdCount
      { CAddrInfo.new addr addrSource with nRandomPos := am.vRandom.length }
    mapAddr := am.mapAddr.insert addr.addr am.nIdCount
    vRandom := am.vRandom ++ [am.nIdCount] }

/-- `SwapRandom`. An assertion that would fail is a step that does nothing here. -/
def swapRandom (am : CAddrMan) (nRndPos1 nRndPos2 : ℕ) : CAddrMan :=
  if nRndPos1 = nRndPos2 then am
  else
    match am.vRandom[nRndPos1]?, am.vRandom[nRndPos2]? with
    | some nId1, some nId2 =>
      { (am.modifyInfo nId1 fun info => { info with nRandomPos := nRndPos2 }).modifyInfo nId2
          fun info => { info with nRandomPos := nRndPos1 } with
        vRandom := (am.vRandom.set nRndPos1 nId2).set nRndPos2 nId1 }
    | _, _ => am

/-- What `ShrinkNew` does to an entry that it takes out of a bucket: the entry is deleted with its
last reference. -/
def dropRef (am : CAddrMan) (nUBucket : Fin 256) (nId : ℤ) : CAddrMan :=
  match am.mapInfo.lookup nId with
  | none => am
  | some info =>
    let vvNew := Function.update am.vvNew nUBucket ((am.vvNew nUBucket).erase nId)
    if info.nRefCount - 1 = 0 then
      let am := am.swapRandom info.nRandomPos.toNat (am.vRandom.length - 1)
      { am with
        vRandom := am.vRandom.dropLast
        mapAddr := am.mapAddr.erase info.addr
        mapInfo := am.mapInfo.erase nId
        nNew := am.nNew - 1
        vvNew := vvNew }
    else { am.modifyInfo nId fun info => { info with nRefCount := info.nRefCount - 1 } with
      vvNew := vvNew }

/-- `mapInfo[nId].nTime`. -/
def timeOf (am : CAddrMan) (nId : ℤ) : UInt32 := ((am.mapInfo.lookup nId).map (·.nTime)).getD 0

/-- The older of the oldest id so far and an id. -/
def olderId (am : CAddrMan) : Option ℤ → ℤ → Option ℤ
  | none, nId => some nId
  | some nOldest, nId => if am.timeOf nId < am.timeOf nOldest then some nId else some nOldest

/-- The oldest of a list of ids, the first one among equals. -/
def oldest (am : CAddrMan) (l : List ℤ) : Option ℤ := l.foldl am.olderId none

/-- `ShrinkNew`: it takes out the first terrible entry of the bucket, or else the oldest of four
random ones. -/
def shrinkNew (am : CAddrMan) (rnd : ℕ → ℕ) (nNow : ℤ) (nUBucket : Fin 256) : CAddrMan :=
  let vNew := idsInOrder (am.vvNew nUBucket)
  match vNew.find? fun nId => (am.mapInfo.lookup nId).any (·.isTerrible nNow) with
  | some nId => am.dropRef nUBucket nId
  | none =>
    let n := (List.range 4).map fun i => getRandInt (rnd i) vNew.length
    match am.oldest ((vNew.zipIdx.filter fun p => decide (p.2 ∈ n)).map Prod.fst) with
    | some nOldest => am.dropRef nUBucket nOldest
    | none => am

/-- `mapInfo[nId].nLastSuccess`. -/
def lastSuccessOf (am : CAddrMan) (nId : ℤ) : Int64 :=
  ((am.mapInfo.lookup nId).map (·.nLastSuccess)).getD 0

/-- The older of the oldest entry so far and an entry, each with the position it was taken from. -/
def older (am : CAddrMan) (nTemp : ℤ) (nPos : ℕ) : Option (ℤ × ℕ) → ℤ × ℕ
  | none => (nTemp, nPos)
  | some (nOldest, nOldestPos) =>
    if am.lastSuccessOf nTemp < am.lastSuccessOf nOldest then (nTemp, nPos)
    else (nOldest, nOldestPos)

/-- The loop of `SelectTried` over the positions to inspect. Position `i` changes places with a
random later one. What is kept of the oldest entry is the position it was taken from, where the
entry of position `i` is now. -/
def selectTriedLoop (am : CAddrMan) (rnd : ℕ → ℕ) :
    List ℕ → List ℤ → Option (ℤ × ℕ) → List ℤ × Option (ℤ × ℕ)
  | [], vTried, nOldest => (vTried, nOldest)
  | i :: is, vTried, nOldest =>
    let nPos := getRandInt (rnd i) (vTried.length - i) + i
    match vTried[nPos]?, vTried[i]? with
    | some nTemp, some nId =>
      selectTriedLoop am rnd is ((vTried.set nPos nId).set i nTemp)
        (some (am.older nTemp nPos nOldest))
    | _, _ => (vTried, nOldest)

/-- `SelectTried`: the bucket after shuffling, and the position to replace. -/
def selectTried (am : CAddrMan) (rnd : ℕ → ℕ) (nKBucket : Fin 64) : List ℤ × Option ℕ :=
  let vTried := am.vvTried nKBucket
  let out := am.selectTriedLoop rnd (List.range (min 4 vTried.length)) vTried none
  (out.1, out.2.map Prod.snd)

/-- The first half of `MakeTried`: the entry leaves the new buckets. -/
def leaveNew (am : CAddrMan) (nId : ℤ) : CAddrMan :=
  { am.modifyInfo nId fun info => { info with
      nRefCount := info.nRefCount - (Finset.univ.filter fun b => nId ∈ am.vvNew b).card } with
    vvNew := fun b => (am.vvNew b).erase nId
    nNew := am.nNew - 1 }

/-- `MakeTried`. A full bucket gives one of its entries back to a new bucket: its own, or the one
that `nId` came from. -/
def makeTried (am : CAddrMan) (rnd : ℕ → ℕ) (nId : ℤ) (nOrigin : Fin 256) : CAddrMan :=
  let am := am.leaveNew nId
  match am.mapInfo.lookup nId with
  | none => am
  | some info =>
    let nKBucket := info.getTriedBucket K am.nKey
    if (am.vvTried nKBucket).length < 64 then
      { am.modifyInfo nId fun info => { info with fInTried := true } with
        vvTried := Function.update am.vvTried nKBucket (am.vvTried nKBucket ++ [nId])
        nTried := am.nTried + 1 }
    else
      let (vTried, nPos) := am.selectTried rnd nKBucket
      match nPos.bind fun nPos => vTried[nPos]?.map fun nOld => (nPos, nOld) with
      | none => am
      | some (nPos, nOld) =>
        match am.mapInfo.lookup nOld with
        | none => am
        | some infoOld =>
          let nUBucket := infoOld.getNewBucket K am.nKey infoOld.source
          let b := if (am.vvNew nUBucket).card < 64 then nUBucket else nOrigin
          let am := am.modifyInfo nOld fun info => { info with fInTried := false, nRefCount := 1 }
          { am.modifyInfo nId fun info => { info with fInTried := true } with
            vvNew := Function.update am.vvNew b (insert nOld (am.vvNew b))
            nNew := am.nNew + 1
            vvTried := Function.update am.vvTried nKBucket (vTried.set nPos nId) }

/-! ## The operations -/

/-- `Find`, for exactly the same service. -/
def findService (am : CAddrMan) (addr : CService) : Option (ℤ × CAddrInfo) :=
  (am.find addr.addr).filter fun p => decide (p.2.toCService = addr)

/-- A new bucket that an id is in, the first one from a random bucket on. -/
def originOf (am : CAddrMan) (nRnd : ℕ) (nId : ℤ) : Option (Fin 256) :=
  ((List.range 256).map fun n => newBucketOf (n + nRnd)).find? fun b => decide (nId ∈ am.vvNew b)

/-- `Good_`. -/
def good (am : CAddrMan) (rnd : ℕ → ℕ) (addr : CService) (nTime : Int64) : CAddrMan :=
  match am.findService addr with
  | none => am
  | some (nId, info) =>
    let am := am.modifyInfo nId fun info => { info with
      nLastSuccess := nTime
      nLastTry := nTime
      nTime := nTime.toUInt64.toUInt32
      nAttempts := 0 }
    if info.fInTried then am
    else
      match am.originOf (getRandInt (rnd 0) 256) nId with
      | none => am
      | some nUBucket => am.makeTried K (fun i => rnd (i + 1)) nId nUBucket

/-- `max((int64)0, nTime - nTimePenalty)`, as it is stored. -/
def penalize (nTime : UInt32) (nTimePenalty : ℤ) : UInt32 :=
  UInt32.ofNat ((nTime.toNat : ℤ) - nTimePenalty).toNat

/-- What `Add_` learns about an address it has. -/
def refresh (addr : CAddress) (nTimePenalty nNow : ℤ) (info : CAddrInfo) : CAddrInfo :=
  let nUpdateInterval : ℤ := if nNow - addr.nTime.toNat < 24 * 60 * 60 then 60 * 60 else 24 * 60 * 60
  let info := if addr.nTime ≠ 0 ∧ (info.nTime = 0 ∨
      (info.nTime.toNat : ℤ) < (addr.nTime.toNat : ℤ) - nUpdateInterval - nTimePenalty) then
    { info with nTime := penalize addr.nTime nTimePenalty } else info
  { info with nServices := info.nServices ||| addr.nServices }

/-- Whether `Add_` gives an address it has another reference. -/
def wantsRef (addr : CAddress) (nRnd : ℕ) (info : CAddrInfo) : Bool :=
  if addr.nTime = 0 ∨ (info.nTime ≠ 0 ∧ addr.nTime ≤ info.nTime) then false
  else if info.fInTried then false
  else if info.nRefCount = 4 then false
  else
    let nFactor := 2 ^ info.nRefCount.toNat
    !(decide (1 < nFactor) && decide (getRandInt nRnd nFactor ≠ 0))

/-- The end of `Add_`: the entry gets a reference from the bucket of its source. -/
def addRef (am : CAddrMan) (rnd : ℕ → ℕ) (nNow : ℤ) (nId : ℤ) (source : CNetAddr) : CAddrMan :=
  match am.mapInfo.lookup nId with
  | none => am
  | some info =>
    let nUBucket := info.getNewBucket K am.nKey source
    if nId ∈ am.vvNew nUBucket then am
    else
      let am := am.modifyInfo nId fun info => { info with nRefCount := info.nRefCount + 1 }
      let am := if (am.vvNew nUBucket).card = 64 then am.shrinkNew rnd nNow nUBucket else am
      { am with vvNew := Function.update am.vvNew nUBucket (insert nId (am.vvNew nUBucket)) }

/-- `Add_`, and whether the address is new. -/
def add (am : CAddrMan) (rnd : ℕ → ℕ) (nNow : ℤ) (addr : CAddress) (source : CNetAddr)
    (nTimePenalty : ℤ) : Bool × CAddrMan :=
  if !K.isRoutable addr.addr then (false, am)
  else
    match am.find addr.addr with
    | some (nId, info) =>
      let am := am.modifyInfo nId (refresh addr nTimePenalty nNow)
      if wantsRef addr (rnd 0) (refresh addr nTimePenalty nNow info) then
        (false, am.addRef K (fun i => rnd (i + 1)) nNow nId source)
      else (false, am)
    | none =>
      let nId := am.nIdCount
      let am := (am.create addr source).modifyInfo nId fun info =>
        { info with nTime := penalize info.nTime nTimePenalty }
      (true, { am with nNew := am.nNew + 1 }.addRef K rnd nNow nId source)

/-- `Attempt_`. -/
def attempt (am : CAddrMan) (addr : CService) (nTime : Int64) : CAddrMan :=
  match am.findService addr with
  | none => am
  | some (nId, _) => am.modifyInfo nId fun info =>
      { info with nLastTry := nTime, nAttempts := info.nAttempts + 1 }

/-- `Connected_`. -/
def connected (am : CAddrMan) (addr : CService) (nTime : Int64) : CAddrMan :=
  match am.findService addr with
  | none => am
  | some (nId, _) => am.modifyInfo nId fun info =>
      if 20 * 60 < nTime.toInt - info.nTime.toNat then
        { info with nTime := nTime.toUInt64.toUInt32 } else info

/-- How many addresses `GetAddr_` gives. -/
def nNodes (am : CAddrMan) : ℕ := min (23 * am.vRandom.length / 100) 2500

/-- `GetAddr_`: the addresses it gives, and the tables after the shuffle. -/
def getAddr (am : CAddrMan) (rnd : ℕ → ℕ) : List CAddrInfo × CAddrMan :=
  (List.range am.nNodes).foldl (fun out n =>
    let nRndPos := getRandInt (rnd n) (out.2.vRandom.length - n) + n
    let am := out.2.swapRandom n nRndPos
    (out.1 ++ ((am.vRandom[n]?).bind am.mapInfo.lookup).toList, am)) ([], am)

end CAddrMan

end FoxCoin
