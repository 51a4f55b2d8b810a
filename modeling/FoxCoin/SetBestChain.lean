import FoxCoin.NodeState

/-! # Switching to another best chain

`Reorganize` disconnects the blocks above the fork and connects the blocks of the other branch in
one database transaction. `SetBestChain` chooses between a first block, a block on top of the tip
and a reorganisation, and moves the tip. `AddToBlockIndex` calls it for a block with more work than
the tip. -/

namespace FoxCoin

open Checked

/-- A routine that returns `false` with an error leaves a state as well. -/
abbrev Outcome := Result Unit × NodeState

/-- `InvalidChainFound`. -/
def NodeState.invalidChainFound (s : NodeState) (pindexNew : CBlockIndex) : NodeState :=
  if s.bnBestInvalidWork < pindexNew.bnChainWork then
    { s with
      bnBestInvalidWork := pindexNew.bnChainWork
      txdb := { s.txdb with bnBestInvalidWork := pindexNew.bnChainWork } }
  else s

/-! ## Reorganize -/

/-- One round of the disconnect loop of `Reorganize`: the database, and the transactions to
resurrect. -/
def disconnectStep (P : Params) (io : Io) (files : BlockFiles)
    (st : CTxDB × List CTransaction) (w : IndexWalk) : Result (CTxDB × List CTransaction) :=
  match files.readFromDisk P io w.1 with
  | none => .error ⟨0, "Reorganize() : ReadFromDisk for disconnect failed"⟩
  | some block => do
    let txdb ← (block.disconnectBlock P io st.1 w.1 w.2).mapError
      fun _ => ⟨0, "Reorganize() : DisconnectBlock %s failed"⟩
    pure (txdb, st.2 ++ block.vtx.filter fun tx => !tx.isCoinBase)

/-- One round of the connect loop of `Reorganize`: the block and the database with it. -/
def connectStep (P : Params) (v : ChainView) (io : Io) (txdb : CTxDB) (w : IndexWalk) :
    Result (CBlock × CTxDB) :=
  match v.files.readFromDisk P io w.1 with
  | none => .error ⟨0, "Reorganize() : ReadFromDisk for connect failed"⟩
  | some block => do
    let txdb ← (block.connectBlock P v io txdb w.1 w.2).mapError
      fun _ => ⟨0, "Reorganize() : ConnectBlock %s failed"⟩
    pure (block, txdb)

/-- The connect loop of `Reorganize`: the database and the connected blocks. The wallets are told
about every block as soon as it is connected, and are not told when a later block fails. -/
def connectLoop (P : Params) (v : ChainView) (io : Io) :
    CTxDB → List CBlock → List CWallet → List IndexWalk →
      Result (CTxDB × List CBlock) × List CWallet
  | txdb, vConnected, wallets, [] => (.ok (txdb, vConnected), wallets)
  | txdb, vConnected, wallets, w :: ws =>
    match connectStep P v io txdb w with
    | .error r => (.error r, wallets)
    | .ok (block, txdb) =>
      connectLoop P v io txdb (vConnected ++ [block])
        (syncWithWallets P v.nAdjustedTime block wallets) ws

/-- `pprev->pnext = NULL` for the disconnected blocks, then `pprev->pnext = pindex` for the
connected ones. -/
def relink (pnext : StdMap Uint256 Uint256) (vDisconnect vConnect : List IndexWalk) :
    StdMap Uint256 Uint256 :=
  let pnext := vDisconnect.foldl (fun m w => w.2.head?.elim m fun pprev => m.erase pprev.phashBlock)
    pnext
  vConnect.foldl (fun m w => w.2.head?.elim m fun pprev =>
    m.insert pprev.phashBlock w.1.phashBlock) pnext

/-- The blocks to disconnect, from the tip down, and the blocks to connect, from the fork up. -/
def NodeState.branches (s : NodeState) (pindexNew : CBlockIndex) :
    Result (List IndexWalk × List IndexWalk) := do
  let pfork ← findFork s.bestWalk (s.walkFrom pindexNew)
  pure (aboveFork pfork s.bestWalk, (aboveFork pfork (s.walkFrom pindexNew)).reverse)

/-- `Reorganize`, within the transaction that `SetBestChain` has begun. -/
def NodeState.reorganize (P : Params) (env : Env) (s : NodeState) (pindexNew : CBlockIndex) :
    Outcome :=
  match s.branches pindexNew with
  | .error r => (.error r, s)
  | .ok (vDisconnect, vConnect) =>
    match vDisconnect.foldlM (disconnectStep P env.io s.files) (s.txdb, []) with
    | .error r => (.error r, s)
    | .ok (txdb, vResurrect) =>
      match connectLoop P (s.view env) env.io txdb [] s.setpwalletRegistered vConnect with
      | (.error r, wallets) => (.error r, { s with setpwalletRegistered := wallets })
      | (.ok (txdb, vConnected), wallets) =>
        let s := { s with setpwalletRegistered := wallets }
        if !env.io (.writeHashBestChain pindexNew.phashBlock) then
          (.error ⟨0, "Reorganize() : WriteHashBestChain failed"⟩, s)
        else if !env.io (.txnCommit pindexNew.phashBlock) then
          (.error ⟨0, "Reorganize() : TxnCommit failed"⟩, s)
        else
          (.ok (), { s with
            txdb := { txdb with hashBestChain := some pindexNew.phashBlock }
            pnext := relink s.pnext vDisconnect vConnect
            mempool := (vResurrect.foldl (CTxMemPool.tryAccept P) s.mempool).removeAll P
              (vConnected.flatMap CBlock.vtx) })

/-! ## SetBestChain -/

/-- `CBlock::SetBestChainInner`, within an open transaction. The source follows a null pointer for
an index without a previous one; the model stops with an error there. -/
def NodeState.setBestChainInner (P : Params) (env : Env) (s : NodeState) (block : CBlock)
    (pindexNew : CBlockIndex) : Outcome :=
  match block.connectBlock P (s.view env) env.io s.txdb pindexNew (s.vPrev pindexNew) with
  | .error _ => (.error ⟨0, ""⟩, s.invalidChainFound pindexNew)
  | .ok txdb =>
    let s := { s with
      setpwalletRegistered := syncWithWallets P env.nAdjustedTime block s.setpwalletRegistered }
    if !env.io (.writeHashBestChain pindexNew.phashBlock) then
      (.error ⟨0, ""⟩, s.invalidChainFound pindexNew)
    else if !env.io (.txnCommit pindexNew.phashBlock) then
      (.error ⟨0, "SetBestChain() : TxnCommit failed"⟩, s)
    else
      match s.vPrev pindexNew with
      | [] => (.error ⟨0, "null pointer: pindexNew->pprev->pnext"⟩, s)
      | pprev :: _ =>
        (.ok (), { s with
          txdb := { txdb with hashBestChain := some (block.getHash P) }
          pnext := s.pnext.insert pprev.phashBlock pindexNew.phashBlock
          mempool := s.mempool.removeAll P block.vtx })

/-- The loop of `SetBestChain` that postpones blocks, on the walk from `pindexIntermediate` down:
the postponed blocks from the top down, and the block to reorganise to. -/
def postpone (bnBestWork : ℕ) : CBlockIndex → List CBlockIndex → List CBlockIndex × CBlockIndex
  | pindexIntermediate, [] => ([], pindexIntermediate)
  | pindexIntermediate, pprev :: vPrev =>
    if bnBestWork < pprev.bnChainWork then
      let (vpindexSecondary, pindex) := postpone bnBestWork pprev vPrev
      (pindexIntermediate :: vpindexSecondary, pindex)
    else ([], pindexIntermediate)

/-- The loop of `SetBestChain` that connects the postponed blocks; a failure ends it. The result
tells whether every block was connected, which `SetBestChain` does not ask. -/
def NodeState.connectSecondary (P : Params) (env : Env) : NodeState → List CBlockIndex →
    Bool × NodeState
  | s, [] => (true, s)
  | s, pindex :: vpindexSecondary =>
    match s.files.readFromDisk P env.io pindex with
    | none => (false, s)
    | some block =>
      if !env.io (.txnBegin2 pindex.phashBlock) then (false, s)
      else
        match s.setBestChainInner P env block pindex with
        | (.error _, s) => (false, s)
        | (.ok _, s) => s.connectSecondary P env vpindexSecondary

/-- The three ways of `SetBestChain` to make `pindexNew` the tip of the database. -/
def NodeState.switchTo (P : Params) (env : Env) (s : NodeState) (block : CBlock)
    (pindexNew : CBlockIndex) : Outcome :=
  let hash := block.getHash P
  if s.pindexGenesisBlock.isNone ∧ hash = P.hashGenesisBlock then
    if !env.io (.txnCommit hash) then (.error ⟨0, "SetBestChain() : TxnCommit failed"⟩, s)
    else
      -- the result of `WriteHashBestChain` is not looked at
      let hashBestChain :=
        if env.io (.writeHashBestChain hash) then some hash else s.txdb.hashBestChain
      (.ok (), { s with
        txdb := { s.txdb with hashBestChain }
        pindexGenesisBlock := some pindexNew })
  else if block.hashPrevBlock = s.hashBestChain then
    match s.setBestChainInner P env block pindexNew with
    | (.error _, s) => (.error ⟨0, "SetBestChain() : SetBestChainInner failed"⟩, s)
    | (.ok _, s) => (.ok (), s)
  else
    match s.pindexBest with
    | none => (.error ⟨0, "null pointer: pindexBest->bnChainWork"⟩, s)
    | some pindexBest =>
      let (vpindexSecondary, pindexIntermediate) :=
        postpone pindexBest.bnChainWork pindexNew (s.vPrev pindexNew)
      match s.reorganize P env pindexIntermediate with
      | (.error _, s) =>
        (.error ⟨0, "SetBestChain() : Reorganize failed"⟩, s.invalidChainFound pindexNew)
      | (.ok _, s) => (.ok (), (s.connectSecondary P env vpindexSecondary.reverse).2)

/-- `CBlock::SetBestChain`. -/
def NodeState.setBestChain (P : Params) (env : Env) (s : NodeState) (block : CBlock)
    (pindexNew : CBlockIndex) : Outcome :=
  if !env.io (.txnBegin (block.getHash P)) then
    (.error ⟨0, "SetBestChain() : TxnBegin failed"⟩, s)
  else
    match s.switchTo P env block pindexNew with
    | (.error r, s) => (.error r, s)
    | (.ok _, s) =>
      (.ok (), { s with
        hashBestChain := block.getHash P
        pindexBest := some pindexNew
        nBestHeight := pindexNew.nHeight
        bnBestChainWork := pindexNew.bnChainWork })

/-! ## Adding a block -/

/-- The index of a new block: it is linked to the index of the previous block when there is one. No
block names itself as the previous one. -/
def CBlockIndex.linked (mapBlockIndex : StdMap Uint256 CBlockIndex) (hash : Uint256)
    (nFile nBlockPos : ℕ) (block : CBlock) : CBlockIndex :=
  let pindexNew := CBlockIndex.ofBlock hash nFile nBlockPos block
  match mapBlockIndex.lookup block.hashPrevBlock with
  | none => { pindexNew with bnChainWork := getBlockWork pindexNew.nBits }
  | some pprev =>
    { pindexNew with
      pprev := some pprev.phashBlock
      nHeight := pprev.nHeight + 1
      bnChainWork := pprev.bnChainWork + getBlockWork pindexNew.nBits }

/-- The state with a new index in memory and in the database. -/
def NodeState.insertIndex (P : Params) (env : Env) (s : NodeState) (pindexNew : CBlockIndex) :
    NodeState :=
  { s with
    mapBlockIndex := s.mapBlockIndex.insert pindexNew.phashBlock pindexNew
    txdb := if env.io (.writeNewIndex pindexNew.phashBlock) then
      s.txdb.writeBlockIndex P (CDiskBlockIndex.ofIndex pindexNew 0) else s.txdb }

/-- `CBlock::AddToBlockIndex`. -/
def NodeState.addToBlockIndex (P : Params) (env : Env) (s : NodeState) (block : CBlock)
    (nFile nBlockPos : ℕ) : Outcome :=
  let hash := block.getHash P
  if hash ∈ s.mapBlockIndex then (.error ⟨0, "AddToBlockIndex() : %s already exists"⟩, s)
  else
    let pindexNew := CBlockIndex.linked s.mapBlockIndex hash nFile nBlockPos block
    -- the index is in memory before the transaction that writes it begins
    if !(env.io (.txnBeginIndex hash) && env.io (.txnCommitIndex hash)) then
      (.error ⟨0, ""⟩, { s with mapBlockIndex := s.mapBlockIndex.insert hash pindexNew })
    else
      let s := s.insertIndex P env pindexNew
      if s.bnBestChainWork < pindexNew.bnChainWork then
        match s.setBestChain P env block pindexNew with
        | (.error _, s) => (.error ⟨0, ""⟩, s)
        | (.ok _, s) => (.ok (), s)
      else (.ok (), s)

end FoxCoin
