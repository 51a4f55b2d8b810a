import FoxCoin.Block

/-! # The work a block must have

The retarget rules: the interval rule of the first blocks, the gravity well that follows it, and the
least work `ProcessBlock` expects of a block that claims to come after a checkpoint. -/

namespace FoxCoin

/-! ## The gravity well -/

/-- The variables of the loop of `KimotoGravityWell`. -/
structure GravityState where
  pastBlocksMass : ℕ
  pastRateActualSeconds : ℤ
  pastRateTargetSeconds : ℤ
  pastDifficultyAverage : ℤ

/-- The state before the first round. -/
def GravityState.init : GravityState := ⟨0, 0, 0, 0⟩

/-- One round of the loop on the block `blockReading`; the loop counter is the new mass. -/
def GravityState.next (blockLastSolved blockReading : CBlockIndex) (targetBlocksSpacing : ℕ)
    (s : GravityState) : GravityState where
  pastBlocksMass := s.pastBlocksMass + 1
  pastRateActualSeconds := max 0 (blockLastSolved.getBlockTime - blockReading.getBlockTime)
  pastRateTargetSeconds := targetBlocksSpacing * (s.pastBlocksMass + 1)
  pastDifficultyAverage :=
    if s.pastBlocksMass = 0 then setCompact blockReading.nBits
    else (setCompact blockReading.nBits - s.pastDifficultyAverage).tdiv (s.pastBlocksMass + 1) +
      s.pastDifficultyAverage

/-- The loop of `KimotoGravityWell` over the walk from `BlockReading` down. -/
def gravityLoop (P : Params) (blockLastSolved : CBlockIndex)
    (targetBlocksSpacing pastBlocksMin pastBlocksMax : ℕ) :
    GravityState → List CBlockIndex → GravityState
  | s, [] => s
  | s, blockReading :: vPrev =>
    if blockReading.nHeight = 0 then s
    else if 0 < pastBlocksMax ∧ pastBlocksMax < s.pastBlocksMass + 1 then s
    else
      let s := s.next blockLastSolved blockReading targetBlocksSpacing
      if decide (pastBlocksMin ≤ s.pastBlocksMass) && P.beyondEventHorizon s.pastBlocksMass
          s.pastRateTargetSeconds s.pastRateActualSeconds then s
      else gravityLoop P blockLastSolved targetBlocksSpacing pastBlocksMin pastBlocksMax s vPrev

/-- The target after the loop: the average, scaled by the ratio of actual and target seconds. -/
def GravityState.bnNew (s : GravityState) : ℤ :=
  if s.pastRateActualSeconds ≠ 0 ∧ s.pastRateTargetSeconds ≠ 0 then
    (s.pastDifficultyAverage * s.pastRateActualSeconds).tdiv s.pastRateTargetSeconds
  else s.pastDifficultyAverage

/-- `KimotoGravityWell`, on the walk from `pindexLast` down. -/
def kimotoGravityWell (P : Params) (targetBlocksSpacing pastBlocksMin pastBlocksMax : ℕ)
    (pindexLast : List CBlockIndex) : ℕ :=
  match pindexLast with
  | [] => nProofOfWorkLimit
  | blockLastSolved :: vPrev =>
    if blockLastSolved.nHeight = 0 ∨ blockLastSolved.nHeight < pastBlocksMin then nProofOfWorkLimit
    else
      let s := gravityLoop P blockLastSolved targetBlocksSpacing pastBlocksMin pastBlocksMax .init
        (blockLastSolved :: vPrev)
      getCompact (min s.bnNew bnProofOfWorkLimit)

/-- `NeoGetNextWorkRequired`: one block a minute, over a quarter of a day to a day of blocks. -/
def neoGetNextWorkRequired (P : Params) (pindexLast : List CBlockIndex) : ℕ :=
  kimotoGravityWell P 60 360 1440 pindexLast

/-! ## The interval rule -/

/-- `nTargetTimespan`. -/
def nTargetTimespan : ℤ := 86400

/-- `nTargetSpacing`. -/
def nTargetSpacing : ℤ := 60

/-- `nInterval`. -/
def nInterval : ℕ := 1440

/-- The `nBits` of the last block of a walk that was not mined under the special rule of the test
network. -/
def lastRegularBits : List CBlockIndex → ℕ
  | [] => nProofOfWorkLimit
  | [pindex] => pindex.nBits
  | pindex :: pprev :: vPrev =>
    if pindex.nHeight % nInterval ≠ 0 ∧ pindex.nBits = nProofOfWorkLimit then
      lastRegularBits (pprev :: vPrev)
    else pindex.nBits

/-- `OldGetNextWorkRequired`. The walk of a block at the end of an interval is longer than the
interval, so the assertion that `pindexFirst` exists holds. -/
def oldGetNextWorkRequired (P : Params) (pindexLast : List CBlockIndex) (block : CBlock) : ℕ :=
  match pindexLast with
  | [] => nProofOfWorkLimit
  | last :: vPrev =>
    if (last.nHeight + 1) % nInterval ≠ 0 then
      if P.fTestNet then
        if last.nTime + nTargetSpacing * 2 < block.nTime then nProofOfWorkLimit
        else lastRegularBits (last :: vPrev)
      else last.nBits
    else
      let blockstogoback := if last.nHeight + 1 ≠ nInterval then nInterval else nInterval - 1
      let first := ((last :: vPrev).drop blockstogoback).headD last
      let nActualTimespan := min (nTargetTimespan * 4)
        (max (nTargetTimespan / 4) (last.getBlockTime - first.getBlockTime))
      let bnNew := (setCompact last.nBits * nActualTimespan).tdiv nTargetTimespan
      getCompact (min bnNew bnProofOfWorkLimit)

/-- `DIFFICULTYKIMOTOFORKHEIGHT`. -/
def difficultyKimotoForkHeight : ℕ := 4

/-- `GetNextWorkRequired`, on the walk from `pindexLast` down. -/
def getNextWorkRequired (P : Params) (pindexLast : List CBlockIndex) (block : CBlock) : ℕ :=
  if (pindexLast.head?.any fun last => decide (difficultyKimotoForkHeight < last.nHeight)) then
    neoGetNextWorkRequired P pindexLast
  else oldGetNextWorkRequired P pindexLast block

/-! ## The least work -/

/-- The loop of `ComputeMinWork`. Every round takes four target timespans off the time, which bounds
the number of rounds. -/
def minWorkLoop : ℕ → ℤ → ℤ → ℤ
  | 0, _, bnResult => bnResult
  | nFuel + 1, nTime, bnResult =>
    if 0 < nTime ∧ bnResult < bnProofOfWorkLimit then
      minWorkLoop nFuel (nTime - nTargetTimespan * 4) (bnResult * 4)
    else bnResult

/-- `ComputeMinWork`. -/
def computeMinWork (P : Params) (nBase : ℕ) (nTime : ℤ) : ℕ :=
  if P.fTestNet ∧ nTargetSpacing * 2 < nTime then getCompact bnProofOfWorkLimit
  else getCompact (min (minWorkLoop (nTime.toNat / 345600 + 1) nTime (setCompact nBase))
    bnProofOfWorkLimit)

end FoxCoin
