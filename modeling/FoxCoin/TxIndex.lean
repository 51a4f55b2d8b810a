import FoxCoin.BlockFiles

/-! # The transaction database

`blkindex.dat` holds, for every transaction of the main chain, its place on disk and, for each of
its outputs, the place of the transaction that spends it. It also holds a record of every block
index, and the hash of the best chain's tip. -/

namespace FoxCoin

/-! ## Positions and index entries -/

/-- The place of a transaction on disk. `SetNull` writes the null file number, which no block file
can have, together with zero offsets, and is the only writer of it. -/
structure CDiskTxPos where
  nFile : ℕ
  nBlockPos : ℕ
  nTxPos : ℕ
  nullCanonical : nFile = uintMax → nBlockPos = 0 ∧ nTxPos = 0
  deriving DecidableEq

/-- `CDiskTxPos::SetNull`. -/
def CDiskTxPos.setNull : CDiskTxPos := ⟨uintMax, 0, 0, fun _ => ⟨rfl, rfl⟩⟩

/-- `CDiskTxPos::IsNull`. -/
def CDiskTxPos.isNull (pos : CDiskTxPos) : Bool := pos.nFile == uintMax

/-- `CDiskTxPos(nFile, nBlockPos, nTxPos)`. -/
def CDiskTxPos.ofFile (nFile nBlockPos nTxPos : ℕ) : CDiskTxPos :=
  if h : nFile = uintMax then setNull else ⟨nFile, nBlockPos, nTxPos, fun h' => absurd h' h⟩

/-- `CDiskTxPos(1,1,1)`, which stands for a transaction that is only in memory. -/
def CDiskTxPos.inMemory : CDiskTxPos := ⟨1, 1, 1, by decide⟩

@[simp] theorem CDiskTxPos.isNull_setNull : CDiskTxPos.setNull.isNull = true := rfl

/-- The null position is unique. -/
theorem CDiskTxPos.eq_setNull_of_isNull {pos : CDiskTxPos} (h : pos.isNull = true) :
    pos = setNull := by
  obtain ⟨nFile, nBlockPos, nTxPos, hcan⟩ := pos
  have hfile : nFile = uintMax := by simpa [isNull] using h
  obtain ⟨rfl, rfl⟩ := hcan hfile
  subst hfile
  rfl

/-- A position in a proper file is not null. -/
theorem CDiskTxPos.isNull_ofFile {nFile nBlockPos nTxPos : ℕ} (h : nFile ≠ uintMax) :
    (ofFile nFile nBlockPos nTxPos).isNull = false := by
  simp [ofFile, h, isNull]

/-- `CTxIndex`: where a transaction is, and where each of its outputs is spent. -/
structure CTxIndex where
  pos : CDiskTxPos
  vSpent : List CDiskTxPos
  deriving DecidableEq

/-- `CTxIndex(pos, nOutputs)`: no output is spent. -/
def CTxIndex.ofOutputs (pos : CDiskTxPos) (nOutputs : ℕ) : CTxIndex :=
  ⟨pos, List.replicate nOutputs CDiskTxPos.setNull⟩

@[simp] theorem CTxIndex.ofOutputs_pos (pos : CDiskTxPos) (nOutputs : ℕ) :
    (ofOutputs pos nOutputs).pos = pos := rfl

/-- The entry with output `n` marked as spent at `pos`. -/
def CTxIndex.mark (txindex : CTxIndex) (n : ℕ) (pos : CDiskTxPos) : CTxIndex :=
  { txindex with vSpent := txindex.vSpent.set n pos }

@[simp] theorem CTxIndex.mark_pos (e : CTxIndex) (n : ℕ) (pos : CDiskTxPos) :
    (e.mark n pos).pos = e.pos := rfl

@[simp] theorem CTxIndex.mark_vSpent (e : CTxIndex) (n : ℕ) (pos : CDiskTxPos) :
    (e.mark n pos).vSpent = e.vSpent.set n pos := rfl

/-- The transaction index: `("tx", hash)` records. -/
abbrev TxIndexMap := StdMap Uint256 CTxIndex

/-! ## Block index records -/

/-- `CDiskBlockIndex`: the record of a block index, with hashes in place of pointers. -/
structure CDiskBlockIndex where
  hashNext : Uint256
  nFile : ℕ
  nBlockPos : ℕ
  nHeight : ℕ
  nVersion : ℤ
  hashPrev : Uint256
  hashMerkleRoot : Uint256
  nTime : ℕ
  nBits : ℕ
  nNonce : ℕ
  deriving DecidableEq, Repr

/-- `CDiskBlockIndex(pindex)`, with the hash of `pindex->pnext`. -/
def CDiskBlockIndex.ofIndex (pindex : CBlockIndex) (hashNext : Uint256) : CDiskBlockIndex where
  hashNext := hashNext
  nFile := pindex.nFile
  nBlockPos := pindex.nBlockPos
  nHeight := pindex.nHeight
  nVersion := pindex.nVersion
  hashPrev := pindex.pprev.getD 0
  hashMerkleRoot := pindex.hashMerkleRoot
  nTime := pindex.nTime
  nBits := pindex.nBits
  nNonce := pindex.nNonce

/-- `CDiskBlockIndex::GetBlockHash`, which hashes the header again. -/
def CDiskBlockIndex.getBlockHash (P : Params) (diskindex : CDiskBlockIndex) : Uint256 :=
  P.getBlockHash
    { nVersion := diskindex.nVersion
      hashPrevBlock := diskindex.hashPrev
      hashMerkleRoot := diskindex.hashMerkleRoot
      nTime := diskindex.nTime
      nBits := diskindex.nBits
      nNonce := diskindex.nNonce }

/-- The content of `blkindex.dat`. -/
structure CTxDB where
  mapTxIndex : TxIndexMap
  mapDiskBlockIndex : StdMap Uint256 CDiskBlockIndex
  hashBestChain : Option Uint256
  bnBestInvalidWork : ℕ

/-- `CTxDB::WriteBlockIndex`. -/
def CTxDB.writeBlockIndex (P : Params) (txdb : CTxDB) (diskindex : CDiskBlockIndex) : CTxDB :=
  { txdb with
    mapDiskBlockIndex := txdb.mapDiskBlockIndex.insert (diskindex.getBlockHash P) diskindex }

@[simp] theorem CTxDB.writeBlockIndex_mapTxIndex (P : Params) (txdb : CTxDB)
    (d : CDiskBlockIndex) : (txdb.writeBlockIndex P d).mapTxIndex = txdb.mapTxIndex := rfl

@[simp] theorem CTxDB.writeBlockIndex_hashBestChain (P : Params) (txdb : CTxDB)
    (d : CDiskBlockIndex) : (txdb.writeBlockIndex P d).hashBestChain = txdb.hashBestChain := rfl

/-- The input and output operations of one call that can fail. A failing database write makes its
caller return `false`, after which the transaction is aborted, so one flag per block and kind of
write covers a failure at any of them. -/
inductive IoOp
  | txnBeginIndex (hash : Uint256)
  | writeNewIndex (hash : Uint256)
  | txnCommitIndex (hash : Uint256)
  | txnBegin (hash : Uint256)
  | txnBegin2 (hash : Uint256)
  | txnCommit (hash : Uint256)
  | updateTxIndex (hash : Uint256)
  | writeBlockIndex (hash : Uint256)
  | writeHashBestChain (hash : Uint256)
  | readFromDisk (hash : Uint256)
  | writeToDisk (hash : Uint256)
  | checkDiskSpace (hash : Uint256)
  deriving DecidableEq, Repr

/-- Which operations succeed during a call. -/
abbrev Io := IoOp → Bool

/-- An environment in which every operation succeeds. -/
def Io.reliable : Io := fun _ => true

/-- What connecting a block reads of the node's state besides the database: the memory pool, the
best height, the adjusted time and the block files. -/
structure ChainView where
  mapTx : StdMap Uint256 CTransaction
  nBestHeight : ℤ
  nAdjustedTime : ℤ
  files : BlockFiles

end FoxCoin
