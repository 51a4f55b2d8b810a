import FoxCoin.Block

/-! # Checkpoints -/

namespace FoxCoin.Checkpoints

/-- `mapCheckpoints`: heights and block hashes, in increasing order of height. -/
def mapCheckpoints : List (ℕ × Uint256) :=
  [(0, 0x351c6703813172725c6d660aa539ee6a3d7a9fe784c87fae7f36582e3b797058),
   (959, 0xaa0ef765cfd864c97a15443c7c328f86d1900d3d920b9b782f8cbb8fc07ea3eb)]

/-- `Checkpoints::CheckBlock`: a block at a checkpoint height must have the checkpoint's hash. -/
def checkBlock (P : Params) (nHeight : ℕ) (hash : Uint256) : Bool :=
  P.fTestNet || (mapCheckpoints.lookup nHeight).all (hash == ·)

/-- `Checkpoints::GetTotalBlocksEstimate`: the height of the last checkpoint. -/
def getTotalBlocksEstimate (P : Params) : ℕ :=
  if P.fTestNet then 0 else (mapCheckpoints.getLastD (0, 0)).1

/-- `Checkpoints::GetLastCheckpoint`: the last checkpoint whose block is in the index. -/
def getLastCheckpoint (P : Params) (mapBlockIndex : StdMap Uint256 CBlockIndex) :
    Option CBlockIndex :=
  if P.fTestNet then none
  else mapCheckpoints.reverse.findSome? fun i => mapBlockIndex.lookup i.2

end FoxCoin.Checkpoints
