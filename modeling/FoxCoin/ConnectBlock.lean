import FoxCoin.ConnectInputs

/-! # Connecting and disconnecting a block

`ConnectBlock` validates the transactions of a block in order against the transaction index,
queueing the changes, and writes the queue at the end. `DisconnectBlock` undoes the transactions in
reverse order directly in the database. -/

namespace FoxCoin

open Checked

/-! ## The block subsidy -/

/-- The value an integer variable holds after being assigned `q`: the part before the point. -/
def truncate (q : ℚ) : ℤ := q.num.tdiv q.den

/-- `GetBlockValue`: the subsidy at a height plus the fees. The product of `double` values is read
as the exact rational. -/
def getBlockValue (nHeight : ℕ) (nFees : ℤ) : ℤ :=
  let nSubsidy :=
    if nHeight < 1960000 then truncate ((250 - (nHeight : ℚ) * (125 / 1000000)) * coin)
    else 5 * coin
  int64 (nSubsidy + nFees)

/-! ## Connecting -/

/-- The variables of the transaction loop of `ConnectBlock`. -/
structure ConnectState where
  mapQueuedChanges : TxIndexMap
  nFees : ℤ
  nSigOps : ℕ
  nTxPos : ℕ

/-- What `ConnectBlock` knows about the block before its transaction loop. The walk starts at the
block's own index. -/
structure ConnectContext where
  pindex : CBlockIndex
  walk : List CBlockIndex
  fEnforceBIP30 : Bool
  fStrictPayToScriptHash : Bool

/-- `nBIP30SwitchTime` and `nBIP16SwitchTime`. -/
def nBIP30SwitchTime : ℕ := 1349049600

/-- The context of a block that is connected at `pindex`, with the indexes below it. -/
def ConnectContext.ofIndex (pindex : CBlockIndex) (vPrev : List CBlockIndex) : ConnectContext where
  pindex := pindex
  walk := pindex :: vPrev
  fEnforceBIP30 := decide (nBIP30SwitchTime < pindex.nTime)
  fStrictPayToScriptHash := decide (nBIP30SwitchTime ≤ pindex.nTime)

/-- The duplicate rule: an older transaction with the same hash has no unspent output. -/
def overwritesNothing (txdb : TxIndexMap) (hashTx : Uint256) : Bool :=
  match txdb.lookup hashTx with
  | none => true
  | some txindexOld => txindexOld.vSpent.all fun pos => !pos.isNull

/-- The part of the transaction loop for a transaction with inputs: fetch them, add the
pay-to-script-hash signature operations, tally the fee and connect. -/
def connectTxInputs (P : Params) (v : ChainView) (txdb : TxIndexMap) (c : ConnectContext)
    (st : ConnectState) (posThisTx : CDiskTxPos) (tx : CTransaction) : Result ConnectState := do
  let mapInputs ← (tx.fetchInputs v txdb st.mapQueuedChanges true false).mapError
    fun _ => ⟨0, ""⟩
  let nP2SHSigOps ← (if c.fStrictPayToScriptHash then tx.getP2SHSigOpCount mapInputs else pure 0)
  ensure (decide (st.nSigOps + nP2SHSigOps ≤ maxBlockSigops))
    ⟨100, "ConnectBlock() : too many sigops"⟩
  let nValueIn ← tx.getValueIn mapInputs
  let nValueOut ← tx.getValueOut
  let mapQueuedChanges ← tx.connectInputs P v mapInputs st.mapQueuedChanges posThisTx c.walk
    true false c.fStrictPayToScriptHash
  pure { st with
    mapQueuedChanges
    nFees := int64 (st.nFees + int64 (nValueIn - nValueOut))
    nSigOps := st.nSigOps + nP2SHSigOps }

/-- One round of the transaction loop of `ConnectBlock`. -/
def connectTx (P : Params) (v : ChainView) (txdb : TxIndexMap) (c : ConnectContext)
    (st : ConnectState) (tx : CTransaction) : Result ConnectState := do
  let hashTx := tx.getHash P
  ensure (!c.fEnforceBIP30 || overwritesNothing txdb hashTx) ⟨0, ""⟩
  ensure (decide (st.nSigOps + tx.getLegacySigOpCount ≤ maxBlockSigops))
    ⟨100, "ConnectBlock() : too many sigops"⟩
  let posThisTx := CDiskTxPos.ofFile c.pindex.nFile c.pindex.nBlockPos st.nTxPos
  let st := { st with
    nSigOps := st.nSigOps + tx.getLegacySigOpCount
    nTxPos := st.nTxPos + tx.getSerializeSize }
  let st ← (if tx.isCoinBase then pure st else connectTxInputs P v txdb c st posThisTx tx)
  pure { st with
    mapQueuedChanges :=
      st.mapQueuedChanges.insert hashTx (CTxIndex.ofOutputs posThisTx tx.vout.length) }

/-- The record of the previous block with the given next hash, when there is a previous block. The
record is built from the index and its `hashNext` is then overwritten. -/
def CTxDB.writeNext (P : Params) (txdb : CTxDB) (pprev : Option CBlockIndex) (hashNext : Uint256) :
    CTxDB :=
  match pprev with
  | none => txdb
  | some pprev => txdb.writeBlockIndex P (CDiskBlockIndex.ofIndex pprev hashNext)

/-- `GetSerializeSize(CBlock())`: a header and the count of an empty transaction list. -/
def emptyBlockSize : ℕ := headerSize + getSizeOfCompactSize 0

/-- `CBlock::ConnectBlock`, the database part: the wallets are notified by its caller, since nothing
after the notification can fail. `vPrev` is the walk from `pindex->pprev` down. -/
def CBlock.connectBlock (P : Params) (v : ChainView) (io : Io) (txdb : CTxDB) (block : CBlock)
    (pindex : CBlockIndex) (vPrev : List CBlockIndex) : Result CTxDB := do
  (block.checkBlock P v.nAdjustedTime).mapError fun _ => ⟨0, ""⟩
  let c := ConnectContext.ofIndex pindex vPrev
  let nTxPos := pindex.nBlockPos + emptyBlockSize - 1 + getSizeOfCompactSize block.vtx.length
  let st ← block.vtx.foldlM (connectTx P v txdb.mapTxIndex c) ⟨∅, 0, 0, nTxPos⟩
  -- every queued entry replaces the stored one
  ensure (io (.updateTxIndex pindex.phashBlock)) ⟨0, "ConnectBlock() : UpdateTxIndex failed"⟩
  let txdb := { txdb with mapTxIndex := st.mapQueuedChanges ∪ txdb.mapTxIndex }
  let nValueOut ← (block.vtx.headD ⟨1, [], [], 0⟩).getValueOut
  ensure (decide (nValueOut ≤ getBlockValue pindex.nHeight st.nFees)) ⟨0, ""⟩
  ensure (vPrev.isEmpty || io (.writeBlockIndex pindex.phashBlock))
    ⟨0, "ConnectBlock() : WriteBlockIndex failed"⟩
  pure (txdb.writeNext P vPrev.head? pindex.phashBlock)

/-! ## Disconnecting -/

/-- `CBlock::DisconnectBlock`. -/
def CBlock.disconnectBlock (P : Params) (io : Io) (txdb : CTxDB) (block : CBlock)
    (pindex : CBlockIndex) (vPrev : List CBlockIndex) : Result CTxDB := do
  let mapTxIndex ← block.vtx.reverse.foldlM (CTransaction.disconnectInputs P) txdb.mapTxIndex
  ensure (io (.updateTxIndex pindex.phashBlock)) ⟨0, "DisconnectInputs() : UpdateTxIndex failed"⟩
  ensure (vPrev.isEmpty || io (.writeBlockIndex pindex.phashBlock))
    ⟨0, "DisconnectBlock() : WriteBlockIndex failed"⟩
  pure ({ txdb with mapTxIndex }.writeNext P vPrev.head? 0)

end FoxCoin
