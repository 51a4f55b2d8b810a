import FoxCoin.SetBestChain
import FoxCoin.Difficulty
import FoxCoin.Checkpoints

/-! # Accepting blocks

`ProcessBlock` checks a block that has arrived, holds it back while its previous block is missing,
and otherwise accepts it together with every orphan that was waiting for it. -/

namespace FoxCoin

open Checked

/-- The checks of `AcceptBlock` that depend on the branch of the block. -/
def NodeState.checkBranch (P : Params) (env : Env) (s : NodeState) (block : CBlock) :
    Result Unit := do
  let hash := block.getHash P
  ensure (decide (hash ∉ s.mapBlockIndex)) ⟨0, "AcceptBlock() : block already in mapBlockIndex"⟩
  match s.mapBlockIndex.lookup block.hashPrevBlock with
  | none => .error ⟨10, "AcceptBlock() : prev block not found"⟩
  | some pindexPrev =>
    let nHeight := pindexPrev.nHeight + 1
    ensure (decide (block.nBits = getNextWorkRequired P (s.walkFrom pindexPrev) block))
      ⟨100, "AcceptBlock() : incorrect proof of work"⟩
    ensure (decide (getMedianTimePast (s.walkFrom pindexPrev) < block.getBlockTime))
      ⟨0, "AcceptBlock() : block's timestamp is too early"⟩
    ensure (decide (block.getBlockTime ≤ env.nAdjustedTime + 30 * 60))
      ⟨0, "AcceptBlock() : block's timestamp too far in the future"⟩
    ensure (decide (pindexPrev.getBlockTime - 30 * 60 < block.getBlockTime))
      ⟨0, "AcceptBlock() : block's timestamp is too early compare to last block"⟩
    ensure (block.vtx.all fun tx =>
        tx.isFinal s.nBestHeight env.nAdjustedTime nHeight block.getBlockTime)
      ⟨10, "AcceptBlock() : contains a non-final transaction"⟩
    ensure (Checkpoints.checkBlock P nHeight hash)
      ⟨100, "AcceptBlock() : rejected by checkpoint lockin at %d"⟩

/-- `CBlock::WriteToDisk` on the files of the node. -/
def NodeState.writeToDisk (P : Params) (env : Env) (s : NodeState) (block : CBlock) :
    Option (ℕ × ℕ × NodeState) :=
  if env.io (.writeToDisk (block.getHash P)) then
    (s.files.writeToDisk block).map fun p => (p.1, p.2.1, { s with files := p.2.2 })
  else none

/-- `CBlock::AcceptBlock`. -/
def NodeState.acceptBlock (P : Params) (env : Env) (s : NodeState) (block : CBlock) : Outcome :=
  match s.checkBranch P env block with
  | .error r => (.error r, s)
  | .ok _ =>
    if !env.io (.checkDiskSpace (block.getHash P)) then
      (.error ⟨0, "AcceptBlock() : out of disk space"⟩, s)
    else
      match s.writeToDisk P env block with
      | none => (.error ⟨0, "AcceptBlock() : WriteToDisk failed"⟩, s)
      | some (nFile, nBlockPos, s) =>
        match s.addToBlockIndex P env block nFile nBlockPos with
        | (.error _, s) => (.error ⟨0, "AcceptBlock() : AddToBlockIndex failed"⟩, s)
        | (.ok _, s) => (.ok (), s)

/-! ## Orphans -/

/-- Hold a block back until its previous block arrives. -/
def NodeState.addOrphan (P : Params) (s : NodeState) (block : CBlock) : NodeState :=
  { s with
    mapOrphanBlocks := s.mapOrphanBlocks.insert (block.getHash P) block
    mapOrphanBlocksByPrev := s.mapOrphanBlocksByPrev ++ [(block.hashPrevBlock, block)] }

/-- The orphans that wait for a block, in the order of the multimap. -/
def NodeState.orphansOf (s : NodeState) (hashPrev : Uint256) : List CBlock :=
  (s.mapOrphanBlocksByPrev.filter fun p => p.1 == hashPrev).map Prod.snd

/-- One round of the inner loop of `ProcessBlock`: try an orphan, and drop it. The second component
collects the hashes for the work queue. -/
def acceptOrphan (P : Params) (env : Env) (st : NodeState × List Uint256) (pblockOrphan : CBlock) :
    NodeState × List Uint256 :=
  let hash := pblockOrphan.getHash P
  let (r, s) := st.1.acceptBlock P env pblockOrphan
  ({ s with mapOrphanBlocks := s.mapOrphanBlocks.erase hash },
    if r.isOk then st.2 ++ [hash] else st.2)

/-- One round of the outer loop of `ProcessBlock`: try the orphans of a block, and forget that they
waited for it. -/
def NodeState.acceptOrphansOf (P : Params) (env : Env) (s : NodeState) (hashPrev : Uint256) :
    NodeState × List Uint256 :=
  let (s', vAccepted) := (s.orphansOf hashPrev).foldl (acceptOrphan P env) (s, [])
  ({ s' with
    mapOrphanBlocksByPrev := s'.mapOrphanBlocksByPrev.filter fun p => p.1 != hashPrev }, vAccepted)

/-- The outer loop of `ProcessBlock` over the work queue. Every hash but the first is the hash of an
orphan that has been dropped, so one round more than there are orphans is enough. -/
def NodeState.acceptOrphans (P : Params) (env : Env) : ℕ → NodeState → List Uint256 → NodeState
  | 0, s, _ => s
  | _ + 1, s, [] => s
  | nFuel + 1, s, hashPrev :: vWorkQueue =>
    let (s, vAccepted) := s.acceptOrphansOf P env hashPrev
    acceptOrphans P env nFuel s (vWorkQueue ++ vAccepted)

/-! ## ProcessBlock -/

/-- The checks of `ProcessBlock` on a block that does not extend the tip, against the last
checkpoint. -/
def NodeState.checkMinWork (P : Params) (s : NodeState) (block : CBlock) : Result Unit :=
  match Checkpoints.getLastCheckpoint P s.mapBlockIndex with
  | none => .ok ()
  | some pcheckpoint =>
    if block.hashPrevBlock = s.hashBestChain then .ok ()
    else do
      let deltaTime := block.getBlockTime - pcheckpoint.nTime
      ensure (decide (0 ≤ deltaTime))
        ⟨100, "ProcessBlock() : block with timestamp before last checkpoint"⟩
      ensure (decide (setCompact block.nBits ≤
          setCompact (computeMinWork P pcheckpoint.nBits deltaTime)))
        ⟨100, "ProcessBlock() : block with too little proof-of-work"⟩

/-- The checks of `ProcessBlock` before it looks for the previous block. -/
def NodeState.preliminaryChecks (P : Params) (env : Env) (s : NodeState) (block : CBlock) :
    Result Unit := do
  let hash := block.getHash P
  ensure (decide (hash ∉ s.mapBlockIndex)) ⟨0, "ProcessBlock() : already have block %d %s"⟩
  ensure (decide (hash ∉ s.mapOrphanBlocks))
    ⟨0, "ProcessBlock() : already have block (orphan) %s"⟩
  (block.checkBlock P env.nAdjustedTime).mapError
    fun r => ⟨r.nDoS, "ProcessBlock() : CheckBlock FAILED"⟩
  s.checkMinWork P block

/-- `ProcessBlock`. -/
def NodeState.processBlock (P : Params) (env : Env) (s : NodeState) (block : CBlock) : Outcome :=
  match s.preliminaryChecks P env block with
  | .error r => (.error r, s)
  | .ok _ =>
    if block.hashPrevBlock ∉ s.mapBlockIndex then (.ok (), s.addOrphan P block)
    else
      match s.acceptBlock P env block with
      | (.error r, s) => (.error ⟨r.nDoS, "ProcessBlock() : AcceptBlock FAILED"⟩, s)
      | (.ok _, s) =>
        (.ok (), s.acceptOrphans P env (s.mapOrphanBlocksByPrev.length + 1) [block.getHash P])

end FoxCoin
