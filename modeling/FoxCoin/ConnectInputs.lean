import FoxCoin.TxIndex
import FoxCoin.Checkpoints

/-! # Fetching, connecting and disconnecting the inputs of a transaction

`FetchInputs` collects the previous transactions of a transaction from the proposed changes, the
database or the memory pool. `ConnectInputs` checks the inputs against them and marks the claimed
outputs as spent; `DisconnectInputs` takes the marks back. -/

namespace FoxCoin

open Checked

/-- `MapPrevTx`: index entry and transaction of every previous transaction. -/
abbrev MapPrevTx := StdMap Uint256 (CTxIndex × CTransaction)

/-! ## Fetching -/

/-- The result of `FetchInputs`: a failure carries `fInvalid`, whether the transaction can never be
valid. -/
abbrev FetchResult (α : Type) := Except (Reject × Bool) α

/-- The previous transaction from the memory pool. -/
def fetchFromPool (v : ChainView) (hash : Uint256) : FetchResult CTransaction :=
  match v.mapTx.lookup hash with
  | none => .error (⟨0, "FetchInputs() : %s mempool Tx prev not found %s"⟩, false)
  | some txPrev => .ok txPrev

/-- One round of the first loop of `FetchInputs`: look the previous transaction up, unless it has
been fetched for an earlier input. -/
def fetchInput (v : ChainView) (txdb mapTestPool : TxIndexMap) (fBlock fMiner : Bool)
    (inputs : MapPrevTx) (txin : CTxIn) : FetchResult MapPrevTx :=
  let hash := txin.prevout.hash
  if hash ∈ inputs then .ok inputs
  else
    let txindex? :=
      if (fBlock || fMiner) && decide (hash ∈ mapTestPool) then mapTestPool.lookup hash
      else txdb.lookup hash
    match txindex? with
    | none =>
      if fBlock || fMiner then
        .error (⟨0, if fMiner then "" else "FetchInputs() : %s prev tx %s index entry not found"⟩,
          false)
      else do
        let txPrev ← fetchFromPool v hash
        pure (inputs.insert hash (CTxIndex.ofOutputs CDiskTxPos.setNull txPrev.vout.length, txPrev))
    | some txindex =>
      if txindex.pos = CDiskTxPos.inMemory then do
        let txPrev ← fetchFromPool v hash
        pure (inputs.insert hash (txindex, txPrev))
      else
        match v.files.readTx txindex.pos.nFile txindex.pos.nTxPos with
        | none => .error (⟨0, "FetchInputs() : %s ReadFromDisk prev tx %s failed"⟩, false)
        | some txPrev => .ok (inputs.insert hash (txindex, txPrev))

/-- The test of the second loop of `FetchInputs`: the claimed output exists. -/
def prevoutInRange (inputs : MapPrevTx) (txin : CTxIn) : Bool :=
  match inputs.lookup txin.prevout.hash with
  | none => false
  | some (txindex, txPrev) =>
    decide (txin.prevout.n < txPrev.vout.length) && decide (txin.prevout.n < txindex.vSpent.length)

/-- `CTransaction::FetchInputs`, called with an empty `inputsRet`. -/
def CTransaction.fetchInputs (v : ChainView) (txdb mapTestPool : TxIndexMap) (fBlock fMiner : Bool)
    (tx : CTransaction) : FetchResult MapPrevTx :=
  if tx.isCoinBase then .ok ∅
  else do
    let inputs ← tx.vin.foldlM (fetchInput v txdb mapTestPool fBlock fMiner) ∅
    ensure (tx.vin.all (prevoutInRange inputs))
      (⟨100, "FetchInputs() : %s prevout.n out of range %d %d %d prev tx %s\n%s"⟩, true)
    pure inputs

/-- `CTransaction::GetOutputFor`, which throws when the output is missing. -/
def getOutputFor (inputs : MapPrevTx) (txin : CTxIn) : Result CTxOut :=
  match inputs.lookup txin.prevout.hash with
  | none => .error ⟨0, "CTransaction::GetOutputFor() : prevout.hash not found"⟩
  | some (_, txPrev) =>
    match txPrev.vout[txin.prevout.n]? with
    | none => .error ⟨0, "CTransaction::GetOutputFor() : prevout.n out of range"⟩
    | some txout => .ok txout

/-- `CTransaction::GetValueIn`: a 64-bit sum without range checks. -/
def CTransaction.getValueIn (inputs : MapPrevTx) (tx : CTransaction) : Result ℤ :=
  if tx.isCoinBase then .ok 0
  else tx.vin.foldlM (fun nResult txin => do
    let txout ← getOutputFor inputs txin
    pure (int64 (nResult + txout.nValue))) 0

/-- `CTransaction::GetP2SHSigOpCount`. -/
def CTransaction.getP2SHSigOpCount (inputs : MapPrevTx) (tx : CTransaction) : Result ℕ :=
  if tx.isCoinBase then .ok 0
  else tx.vin.foldlM (fun nSigOps txin => do
    let prevout ← getOutputFor inputs txin
    pure (if prevout.scriptPubKey.isPayToScriptHash then
      nSigOps + prevout.scriptPubKey.getP2SHSigOpCount txin.scriptSig else nSigOps)) 0

/-! ## Connecting -/

/-- `VerifySignature`, with hash type zero. -/
def verifySignature (P : Params) (txFrom txTo : CTransaction) (nIn : ℕ)
    (fValidatePayToScriptHash : Bool) : Bool :=
  match txTo.vin[nIn]? with
  | none => false
  | some txin =>
    match txFrom.vout[txin.prevout.n]? with
    | none => false
    | some txout =>
      decide (txin.prevout.hash = txFrom.getHash P) &&
        P.verifyScript txin.scriptSig txout.scriptPubKey txTo nIn fValidatePayToScriptHash

/-- The maturity walk of `ConnectInputs`: a block less than `COINBASE_MATURITY` below the tip of the
walk is at the place `pos` points to. -/
def immature (pindexBlock : List CBlockIndex) (pos : CDiskTxPos) : Bool :=
  match pindexBlock with
  | [] => false
  | p :: _ =>
    (pindexBlock.takeWhile fun pindex =>
        decide (p.nHeight < pindex.nHeight + coinbaseMaturity)).any
      fun pindex => pindex.nBlockPos == pos.nBlockPos && pindex.nFile == pos.nFile

/-- One round of the first loop of `ConnectInputs`: range, maturity and amount of an input. -/
def checkInput (inputs : MapPrevTx) (pindexBlock : List CBlockIndex) (nValueIn : ℤ)
    (txin : CTxIn) : Result ℤ :=
  match inputs.lookup txin.prevout.hash with
  | none => .error ⟨0, "assert(inputs.count(prevout.hash) > 0)"⟩
  | some (txindex, txPrev) =>
    match txPrev.vout[txin.prevout.n]? with
    | none => .error ⟨100, "ConnectInputs() : %s prevout.n out of range %d %d %d prev tx %s\n%s"⟩
    | some txout => do
      ensure (decide (txin.prevout.n < txindex.vSpent.length))
        ⟨100, "ConnectInputs() : %s prevout.n out of range %d %d %d prev tx %s\n%s"⟩
      ensure (!(txPrev.isCoinBase && immature pindexBlock txindex.pos))
        ⟨0, "ConnectInputs() : tried to spend coinbase at depth %d"⟩
      ensure (moneyRange txout.nValue && moneyRange (nValueIn + txout.nValue))
        ⟨100, "ConnectInputs() : txin values out of range"⟩
      pure (nValueIn + txout.nValue)

/-- The signature check of one input; the error tells a bad pay-to-script-hash script apart. -/
def checkSignature (P : Params) (txPrev tx : CTransaction) (nIn : ℕ)
    (fStrictPayToScriptHash : Bool) : Result Unit :=
  ensure (verifySignature P txPrev tx nIn fStrictPayToScriptHash)
    (if fStrictPayToScriptHash && verifySignature P txPrev tx nIn false then
      ⟨0, "ConnectInputs() : %s P2SH VerifySignature failed"⟩
    else ⟨100, "ConnectInputs() : %s VerifySignature failed"⟩)

/-- One round of the second loop of `ConnectInputs`: reject a double spend, check the signature and
mark the output as spent, in `inputs` and in the proposed changes. -/
def spendInput (P : Params) (v : ChainView) (tx : CTransaction) (posThisTx : CDiskTxPos)
    (fBlock fMiner fStrictPayToScriptHash : Bool) (st : MapPrevTx × TxIndexMap)
    (txin : CTxIn × ℕ) : Result (MapPrevTx × TxIndexMap) :=
  match st.1.lookup txin.1.prevout.hash with
  | none => .error ⟨0, "assert(inputs.count(prevout.hash) > 0)"⟩
  | some (txindex, txPrev) => do
    ensure ((txindex.vSpent.getD txin.1.prevout.n CDiskTxPos.setNull).isNull)
      ⟨0, if fMiner then "" else "ConnectInputs() : %s prev tx already used at %s"⟩
    -- signatures of blocks below the last checkpoint are not verified
    if !(fBlock && decide (v.nBestHeight < Checkpoints.getTotalBlocksEstimate P)) then
      checkSignature P txPrev tx txin.2 fStrictPayToScriptHash
    let txindex := txindex.mark txin.1.prevout.n posThisTx
    pure (st.1.insert txin.1.prevout.hash (txindex, txPrev),
      if fBlock || fMiner then st.2.insert txin.1.prevout.hash txindex else st.2)

/-- `CTransaction::ConnectInputs`: the proposed changes with the claimed outputs marked. -/
def CTransaction.connectInputs (P : Params) (v : ChainView) (inputs : MapPrevTx)
    (mapTestPool : TxIndexMap) (posThisTx : CDiskTxPos) (pindexBlock : List CBlockIndex)
    (fBlock fMiner fStrictPayToScriptHash : Bool) (tx : CTransaction) : Result TxIndexMap :=
  if tx.isCoinBase then .ok mapTestPool
  else do
    let nValueIn ← tx.vin.foldlM (checkInput inputs pindexBlock) 0
    let st ← tx.vin.zipIdx.foldlM
      (spendInput P v tx posThisTx fBlock fMiner fStrictPayToScriptHash) (inputs, mapTestPool)
    let nValueOut ← tx.getValueOut
    ensure (decide (nValueOut ≤ nValueIn)) ⟨100, "ConnectInputs() : %s value in < value out"⟩
    ensure (decide (0 ≤ nValueIn - nValueOut)) ⟨100, "ConnectInputs() : %s nTxFee < 0"⟩
    ensure (moneyRange (nValueIn - nValueOut)) ⟨100, "ConnectInputs() : nFees out of range"⟩
    pure st.2

/-! ## Disconnecting -/

/-- One round of the loop of `DisconnectInputs`: mark an outpoint as not spent. -/
def unspendInput (txdb : TxIndexMap) (txin : CTxIn) : Result TxIndexMap :=
  match txdb.lookup txin.prevout.hash with
  | none => .error ⟨0, "DisconnectInputs() : ReadTxIndex failed"⟩
  | some txindex => do
    ensure (decide (txin.prevout.n < txindex.vSpent.length))
      ⟨0, "DisconnectInputs() : prevout.n out of range"⟩
    pure (txdb.insert txin.prevout.hash (txindex.mark txin.prevout.n CDiskTxPos.setNull))

/-- `CTransaction::DisconnectInputs`. Erasing a transaction that is not in the index does
nothing. -/
def CTransaction.disconnectInputs (P : Params) (txdb : TxIndexMap) (tx : CTransaction) :
    Result TxIndexMap := do
  let txdb ← (if tx.isCoinBase then pure txdb else tx.vin.foldlM unspendInput txdb)
  pure (txdb.erase (tx.getHash P))

end FoxCoin
