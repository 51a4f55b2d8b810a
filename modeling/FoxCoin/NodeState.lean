import FoxCoin.ConnectBlock
import FoxCoin.Mempool
import FoxCoin.Wallet

/-! # The state of the node

The block tree in memory with its tip, the database, the block files, the memory pool, the wallets
and the orphan blocks; the walks over the tree, and the point where two branches fork. -/

namespace FoxCoin

open Checked

/-- The global variables of `main.cpp`. The links `pnext` are one map from a block to its successor.
The database is the committed one: an open transaction is a copy that a commit puts in its place. -/
structure NodeState where
  mapBlockIndex : StdMap Uint256 CBlockIndex
  pnext : StdMap Uint256 Uint256
  pindexGenesisBlock : Option CBlockIndex
  pindexBest : Option CBlockIndex
  hashBestChain : Uint256
  nBestHeight : ℤ
  bnBestChainWork : ℕ
  bnBestInvalidWork : ℕ
  txdb : CTxDB
  files : BlockFiles
  mempool : CTxMemPool
  setpwalletRegistered : List CWallet
  mapOrphanBlocks : StdMap Uint256 CBlock
  mapOrphanBlocksByPrev : List (Uint256 × CBlock)

/-- The node before it has loaded anything. -/
def NodeState.empty (wallets : List CWallet) : NodeState where
  mapBlockIndex := ∅
  pnext := ∅
  pindexGenesisBlock := none
  pindexBest := none
  hashBestChain := 0
  nBestHeight := -1
  bnBestChainWork := 0
  bnBestInvalidWork := 0
  txdb := ⟨∅, ∅, none, 0⟩
  files := ⟨[]⟩
  mempool := .empty
  setpwalletRegistered := wallets
  mapOrphanBlocks := ∅
  mapOrphanBlocksByPrev := []

/-- What a call finds outside the node: which operations on the disk succeed, and the adjusted
time. -/
structure Env where
  io : Io
  nAdjustedTime : ℤ

/-- What connecting a block reads of the state. -/
def NodeState.view (s : NodeState) (env : Env) : ChainView :=
  ⟨s.mempool.mapTx, s.nBestHeight, env.nAdjustedTime, s.files⟩

/-- `CBlock::ReadFromDisk(pindex)`. -/
def BlockFiles.readFromDisk (P : Params) (io : Io) (files : BlockFiles) (pindex : CBlockIndex) :
    Option CBlock :=
  if io (.readFromDisk pindex.phashBlock) then
    (files.readBlock P pindex.nFile pindex.nBlockPos).filter fun block =>
      decide (block.getHash P = pindex.phashBlock)
  else none

/-! ## Walks -/

/-- The walk over `pprev` below an index. Heights go down by one along it, so the height of the
index bounds its length. -/
def walkBelow (mapBlockIndex : StdMap Uint256 CBlockIndex) : ℕ → CBlockIndex → List CBlockIndex
  | 0, _ => []
  | nFuel + 1, pindex =>
    match pindex.pprev.bind mapBlockIndex.lookup with
    | none => []
    | some pprev => pprev :: walkBelow mapBlockIndex nFuel pprev

/-- The walk `pindex->pprev, pindex->pprev->pprev, …`. -/
def NodeState.vPrev (s : NodeState) (pindex : CBlockIndex) : List CBlockIndex :=
  walkBelow s.mapBlockIndex pindex.nHeight pindex

/-- The walk `pindex, pindex->pprev, …`. -/
def NodeState.walkFrom (s : NodeState) (pindex : CBlockIndex) : List CBlockIndex :=
  pindex :: s.vPrev pindex

/-- The walk from the tip. -/
def NodeState.bestWalk (s : NodeState) : List CBlockIndex := s.pindexBest.elim [] s.walkFrom

/-- `CBlockIndex::IsInMainChain`. -/
def NodeState.isInMainChain (s : NodeState) (pindex : CBlockIndex) : Bool :=
  decide (pindex.phashBlock ∈ s.pnext) || decide (s.pindexBest = some pindex)

/-! ## Forks -/

/-- An index with the walk below it. -/
abbrev IndexWalk := CBlockIndex × List CBlockIndex

/-- The search of `Reorganize` for the fork, on the walks from `pfork` and from `plonger`. -/
def findFork : List CBlockIndex → List CBlockIndex → Result CBlockIndex
  | [], _ => .error ⟨0, "Reorganize() : pfork->pprev is null"⟩
  | pfork :: vPrev, plonger =>
    match plonger.dropWhile fun p => decide (pfork.nHeight < p.nHeight) with
    | [] => .error ⟨0, "Reorganize() : plonger->pprev is null"⟩
    | p :: rest => if p = pfork then .ok pfork else findFork vPrev (p :: rest)

/-- The indexes of a walk above the fork, each with the walk below it. -/
def aboveFork (pfork : CBlockIndex) : List CBlockIndex → List IndexWalk
  | [] => []
  | pindex :: vPrev => if pindex = pfork then [] else (pindex, vPrev) :: aboveFork pfork vPrev

end FoxCoin
