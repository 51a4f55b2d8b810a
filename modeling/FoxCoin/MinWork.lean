import FoxCoin.BlockTree
import FoxCoin.DifficultyBounds
import FoxCoin.ProcessBlock
import Mathlib.Data.List.GetD

/-! # The least work after a checkpoint

`ProcessBlock` holds a block that does not extend the tip against the last checkpoint: the block
must not be older, and its target must not exceed what `ComputeMinWork` allows. `ComputeMinWork`
lets the target grow fourfold for every four days begun since the checkpoint, which is how far the
interval rule can ease it. The gravity well retargets at every block and knows no such factor, and
the median rule lets a block be older than the one before it. -/

namespace FoxCoin

open Checked

/-! ## Compact targets as bounds -/

/-- A positive target is a mantissa of 23 bits times a power of 256. -/
theorem setCompact_eq_mul {c : ℕ} (h : 0 < setCompact c) :
    ∃ m k : ℕ, m < 2 ^ 23 ∧ setCompact c = (m * 256 ^ k : ℕ) := by
  have hm : c % 2 ^ 24 % 2 ^ 23 < 2 ^ 23 := Nat.mod_lt _ (by decide)
  unfold setCompact at h ⊢
  simp only at h ⊢
  split_ifs at h ⊢ with hsign hsize hsize
  · exact absurd h (not_lt.mpr (neg_nonpos.mpr (Int.natCast_nonneg _)))
  · exact absurd h (not_lt.mpr (neg_nonpos.mpr (Int.natCast_nonneg _)))
  · exact ⟨_, 0, (Nat.div_le_self _ _).trans_lt hm, by rw [pow_zero, mul_one]⟩
  · exact ⟨_, _, hm, rfl⟩

/-- A number that is not positive is not encoded as a positive target. -/
theorem setCompact_getCompact_nonpos {bn : ℤ} (h : bn ≤ 0) : setCompact (getCompact bn) ≤ 0 := by
  rcases h.lt_or_eq with h | rfl
  · have hmantissa := mantissa_lt (n := bn.natAbs) (by omega)
    have hword : 2 ^ 23 ≤ getCompact bn % 2 ^ 24 := by
      simp only [getCompact, if_pos h]
      omega
    simp only [setCompact, if_pos hword]
    omega
  · decide

/-- **Encoding a number does not move it past a target**: the compact form of a positive number is
the largest target that does not exceed it. -/
theorem setCompact_le_getCompact_iff {c : ℕ} {bn : ℤ} (h : 0 < setCompact c) :
    setCompact c ≤ setCompact (getCompact bn) ↔ setCompact c ≤ bn := by
  rcases le_or_gt bn 0 with hbn | hbn
  · have := setCompact_getCompact_nonpos hbn
    omega
  refine ⟨fun hle => hle.trans (setCompact_getCompact_bounds hbn).2, fun hle => ?_⟩
  obtain ⟨m, j, hm, hc⟩ := setCompact_eq_mul h
  obtain ⟨n, rfl⟩ := Int.eq_ofNat_of_zero_le hbn.le
  have hn : n ≠ 0 := by omega
  rw [hc, Nat.cast_le] at hle
  obtain ⟨hpos, hlow, -⟩ := mpiSize_spec hn
  rw [setCompact_getCompact, hc, Nat.cast_le]
  generalize mpiSize n = s at hpos hlow
  by_cases hs : s ≤ 3
  · rwa [if_pos hs]
  · obtain ⟨k, rfl⟩ : ∃ k, s = k + 4 := ⟨s - 4, by omega⟩
    have hk : 0 < 256 ^ (k + 1) := Nat.pow_pos (by omega)
    rw [if_neg hs, show k + 4 - 3 = k + 1 by omega]
    rcases le_or_gt (k + 1) j with hj | hj
    · -- the target is a multiple of the unit of the encoding
      obtain ⟨i, rfl⟩ := Nat.exists_eq_add_of_le hj
      have hsplit : m * 256 ^ (k + 1 + i) = m * 256 ^ i * 256 ^ (k + 1) := by ring
      rw [hsplit] at hle ⊢
      exact Nat.mul_le_mul_right _ ((Nat.le_div_iff_mul_le hk).mpr hle)
    · -- the target has fewer bytes than the number
      have hunit : 2 ^ 15 ≤ n / 256 ^ (k + 1) := by
        refine (Nat.le_div_iff_mul_le hk).mpr ?_
        have : 256 ^ (k + 4 - 1) = 2 * (2 ^ 15 * 256 ^ (k + 1)) := by
          rw [show k + 4 - 1 = k + 1 + 2 by omega]; ring
        omega
      calc m * 256 ^ j ≤ 2 ^ 23 * 256 ^ k :=
            Nat.mul_le_mul hm.le (Nat.pow_le_pow_right (by omega) (by omega))
        _ = 2 ^ 15 * 256 ^ (k + 1) := by ring
        _ ≤ n / 256 ^ (k + 1) * 256 ^ (k + 1) := Nat.mul_le_mul_right _ hunit

/-! ## The loop of ComputeMinWork -/

/-- The rounds of the loop: the spans of four days begun within a time. -/
def minWorkRounds (nTime : ℤ) : ℕ := (nTime.toNat + 345599) / 345600

/-- **The loop quadruples the target in every round**, up to the limit. -/
theorem min_minWorkLoop {nFuel : ℕ} {nTime : ℤ} (bn : ℤ) (h : minWorkRounds nTime ≤ nFuel) :
    min (minWorkLoop nFuel nTime bn) bnProofOfWorkLimit =
      min (bn * 4 ^ minWorkRounds nTime) bnProofOfWorkLimit := by
  induction nFuel generalizing nTime bn with
  | zero => rw [minWorkLoop, Nat.le_zero.mp h, pow_zero, mul_one]
  | succ nFuel ih =>
    rw [minWorkLoop]
    split_ifs with hround
    · have hnext : minWorkRounds nTime = minWorkRounds (nTime - nTargetTimespan * 4) + 1 := by
        unfold minWorkRounds nTargetTimespan
        omega
      rw [ih (bn * 4) (by omega), hnext, pow_succ, mul_assoc, mul_comm 4]
    · rcases le_or_gt nTime 0 with htime | htime
      · have hzero : minWorkRounds nTime = 0 := by
          unfold minWorkRounds
          omega
        rw [hzero, pow_zero, mul_one]
      · -- the limit is reached, and further rounds do not come back below it
        have hlimit : bnProofOfWorkLimit ≤ bn := not_lt.mp fun hlt => hround ⟨htime, hlt⟩
        have hpos : 0 < bnProofOfWorkLimit := by decide +kernel
        have hpow : (1 : ℤ) ≤ 4 ^ minWorkRounds nTime := one_le_pow₀ (by decide)
        rw [min_eq_right hlimit, min_eq_right (by nlinarith)]

/-- **What `ComputeMinWork` allows**, of targets within the limit. -/
theorem setCompact_le_computeMinWork_iff {P : Params} {c nBase : ℕ} {nTime : ℤ}
    (hnet : P.fTestNet = false) (hc : TargetInRange c) :
    setCompact c ≤ setCompact (computeMinWork P nBase nTime) ↔
      setCompact c ≤ setCompact nBase * 4 ^ minWorkRounds nTime := by
  have hrounds : minWorkRounds nTime ≤ nTime.toNat / 345600 + 1 := by
    unfold minWorkRounds
    omega
  rw [computeMinWork, if_neg (by simp [hnet]), setCompact_le_getCompact_iff hc.1,
    min_minWorkLoop _ hrounds, le_min_iff, and_iff_left hc.2]

/-! ## The checkpoint check -/

/-- What `ProcessBlock` reports when the checkpoint check fails; both cost the peer 100 points. -/
def checkpointReports : List Reject :=
  [⟨100, "ProcessBlock() : block with timestamp before last checkpoint"⟩,
    ⟨100, "ProcessBlock() : block with too little proof-of-work"⟩]

/-- `ProcessBlock` does not report that the block fails the checkpoint check. -/
def NodeState.Spares (P : Params) (env : Env) (s : NodeState) (block : CBlock) : Prop :=
  ∀ r ∈ checkpointReports, (s.processBlock P env block).1 ≠ .error r

/-- The block comes to the checkpoint check: it is new, and well formed. -/
structure NodeState.ReachesCheck (P : Params) (env : Env) (s : NodeState) (block : CBlock) :
    Prop where
  new : block.getHash P ∉ s.mapBlockIndex
  not_orphan : block.getHash P ∉ s.mapOrphanBlocks
  checkBlock : block.checkBlock P env.nAdjustedTime = .ok ()

/-- The block is no older than the checkpoint, and its target is at most that of the checkpoint
times four for every four days begun between the two. -/
def CBlock.WithinMinWork (block : CBlock) (pcheckpoint : CBlockIndex) : Prop :=
  pcheckpoint.nTime ≤ block.nTime ∧
    setCompact block.nBits ≤ setCompact pcheckpoint.nBits *
      4 ^ minWorkRounds (block.getBlockTime - pcheckpoint.nTime)

variable {P : Params} {env : Env} {s : NodeState} {block : CBlock}

/-- A block that comes to the checkpoint check is not stopped before it. -/
theorem NodeState.ReachesCheck.preliminaryChecks (h : s.ReachesCheck P env block) :
    s.preliminaryChecks P env block = s.checkMinWork P block := by
  simp [NodeState.preliminaryChecks, h.new, h.not_orphan, h.checkBlock, Except.mapError]

/-- A block that does not come to the checkpoint check is reported for something else. -/
theorem NodeState.preliminaryChecks_of_not_reachesCheck (h : ¬s.ReachesCheck P env block) :
    ∃ r, s.preliminaryChecks P env block = .error r ∧ r ∉ checkpointReports := by
  by_cases hnew : block.getHash P ∈ s.mapBlockIndex
  · exact ⟨_, by simp [NodeState.preliminaryChecks, hnew]; rfl, by decide⟩
  by_cases horphan : block.getHash P ∈ s.mapOrphanBlocks
  · exact ⟨_, by simp [NodeState.preliminaryChecks, hnew, horphan]; rfl, by decide⟩
  cases hcheck : block.checkBlock P env.nAdjustedTime with
  | ok u => exact absurd ⟨hnew, horphan, hcheck⟩ h
  | error r =>
    refine ⟨⟨r.nDoS, "ProcessBlock() : CheckBlock FAILED"⟩, ?_, by simp [checkpointReports]⟩
    simp [NodeState.preliminaryChecks, hnew, horphan, hcheck, Except.mapError]
    rfl

/-- A failed checkpoint check gives one of the two reports. -/
theorem NodeState.mem_checkpointReports {r : Reject} (h : s.checkMinWork P block = .error r) :
    r ∈ checkpointReports := by
  unfold NodeState.checkMinWork at h
  split at h
  · cases h
  split_ifs at h
  simp only [ensure_bind_eq_error, ensure_eq_error] at h
  rcases h with ⟨-, rfl⟩ | ⟨-, -, rfl⟩
  · exact List.mem_cons_self
  · exact List.mem_cons_of_mem _ List.mem_cons_self

/-- A block that passes the preliminary checks is not reported for the checkpoint check. -/
theorem NodeState.spares_of_preliminaryChecks {u : Unit}
    (h : s.preliminaryChecks P env block = .ok u) : s.Spares P env block := by
  intro r hr
  unfold NodeState.processBlock
  rw [h]
  simp only
  split_ifs
  · -- the block is accepted, or `AcceptBlock` has failed
    rcases s.acceptBlock P env block with ⟨e | u, s'⟩
    · intro heq
      cases heq
      simp [checkpointReports] at hr
    · simp
  · simp

/-- The reports of the checkpoint check come from no other check. -/
theorem NodeState.spares_iff : s.Spares P env block ↔
    (s.ReachesCheck P env block → s.checkMinWork P block = .ok ()) := by
  by_cases h : s.ReachesCheck P env block
  · rw [imp_iff_right h]
    cases hmin : s.checkMinWork P block with
    | ok u => exact iff_of_true (spares_of_preliminaryChecks (h.preliminaryChecks.trans hmin)) rfl
    | error r =>
      refine iff_of_false (fun hs => hs r (mem_checkpointReports hmin) ?_) (by simp)
      rw [NodeState.processBlock, h.preliminaryChecks, hmin]
  · refine iff_of_true (fun r hr heq => ?_) fun h' => absurd h' h
    obtain ⟨r', hpre, hr'⟩ := preliminaryChecks_of_not_reachesCheck h
    rw [NodeState.processBlock, hpre] at heq
    cases heq
    exact hr' hr

/-- **When the checkpoint check passes**: without a checkpoint, for a block that extends the tip,
and for a block within the work that the checkpoint asks for. -/
theorem NodeState.checkMinWork_eq_ok_iff (hc : TargetInRange block.nBits) :
    s.checkMinWork P block = .ok () ↔
      ∀ pcheckpoint ∈ Checkpoints.getLastCheckpoint P s.mapBlockIndex,
        block.hashPrevBlock = s.hashBestChain ∨ block.WithinMinWork pcheckpoint := by
  unfold NodeState.checkMinWork
  cases hlast : Checkpoints.getLastCheckpoint P s.mapBlockIndex with
  | none => simp
  | some pcheckpoint =>
    have hnet : P.fTestNet = false := by
      by_contra htest
      rw [Checkpoints.getLastCheckpoint, if_pos (by simpa using htest)] at hlast
      cases hlast
    simp only [Option.mem_some, forall_eq']
    split_ifs with htip
    · simp [htip]
    · rw [ensure_bind_eq_ok, ensure_eq_ok, decide_eq_true_eq, decide_eq_true_eq,
        setCompact_le_computeMinWork_iff hnet hc, or_iff_right htip, CBlock.WithinMinWork,
        CBlock.getBlockTime, sub_nonneg, Nat.cast_le]

/-- **The blocks that the checkpoint check spares**: those that are known or not well formed, those
that extend the tip, and those no older than the last checkpoint whose target is at most that of the
checkpoint times four for every four days begun between the two. -/
theorem NodeState.spares_iff_withinMinWork : s.Spares P env block ↔
    (s.ReachesCheck P env block →
      ∀ pcheckpoint ∈ Checkpoints.getLastCheckpoint P s.mapBlockIndex,
        block.hashPrevBlock = s.hashBestChain ∨ block.WithinMinWork pcheckpoint) := by
  rw [NodeState.spares_iff]
  refine imp_congr_right fun h => NodeState.checkMinWork_eq_ok_iff ?_
  exact (checkProofOfWork_eq_ok.mp (CBlock.checkProofOfWork_of_checkBlock h.checkBlock)).1

/-! ## Block trees -/

/-- `CBlockIndex::GetBlockHeader`. -/
def CBlockIndex.getBlockHeader (pindex : CBlockIndex) : CBlockHeader where
  nVersion := pindex.nVersion
  hashPrevBlock := pindex.pprev.getD 0
  hashMerkleRoot := pindex.hashMerkleRoot
  nTime := pindex.nTime
  nBits := pindex.nBits
  nNonce := pindex.nNonce

/-- The rules of `AcceptBlock` that do not depend on the time of arrival, for a block of the index
on top of its previous one. -/
structure CBlockIndex.KeepsRules (P : Params) (m : StdMap Uint256 CBlockIndex)
    (pindex pprev : CBlockIndex) : Prop where
  nBits_eq : pindex.nBits = getNextWorkRequired P (walkOf m pprev) ⟨pindex.getBlockHeader, []⟩
  medianTimePast_lt : getMedianTimePast (walkOf m pprev) < pindex.getBlockTime
  blockTime_lt : pprev.getBlockTime - 30 * 60 < pindex.getBlockTime
  checkBlock : Checkpoints.checkBlock P pindex.nHeight pindex.phashBlock = true

/-- A block tree of the node: rooted at the genesis block, every other block accepted on its branch,
with a tip of the most work. -/
structure NodeState.IsBlockTree (P : Params) (s : NodeState) (root tip : CBlockIndex) : Prop where
  tree : IsTree s.mapBlockIndex root
  root_hash : root.phashBlock = P.hashGenesisBlock
  getBlockHash_eq : ∀ p : CBlockIndex, p.In s.mapBlockIndex →
    P.getBlockHash p.getBlockHeader = p.phashBlock
  rules : ∀ p q : CBlockIndex, p.In s.mapBlockIndex → q.In s.mapBlockIndex →
    p.pprev = some q.phashBlock → p.KeepsRules P s.mapBlockIndex q
  tip_mem : tip.In s.mapBlockIndex
  pindexBest_eq : s.pindexBest = some tip
  hashBestChain_eq : s.hashBestChain = tip.phashBlock
  work_le : ∀ p : CBlockIndex, p.In s.mapBlockIndex → p.bnChainWork ≤ tip.bnChainWork

/-! ## A retarget right after the checkpoint

A chain with a block a minute, whose first block comes early, keeps the limit as its target. The
last block before the checkpoint comes a second early, so the checkpoint has a harder target. A day
passes before the checkpoint, and the gravity well goes back to the limit for the blocks on top of
it. One of them has become the tip; another one with the time of the checkpoint is honest, and too
easy for `ComputeMinWork`. -/

/-- The parameters of the main network, with hashes that give the checkpoints theirs. -/
def checkpointParams : Params := { exampleParams with
  fTestNet := false
  getBlockHash := fun header =>
    if header.nNonce = 0 then 0x351c6703813172725c6d660aa539ee6a3d7a9fe784c87fae7f36582e3b797058
    else if header.nNonce = 959 then
      0xaa0ef765cfd864c97a15443c7c328f86d1900d3d920b9b782f8cbb8fc07ea3eb
    else header.nNonce
  beyondEventHorizon := fun _ nTarget nActual =>
    decide (2 * nTarget ≤ nActual) || decide (2 * nActual ≤ nTarget) }

/-- The hash of the block at a height. -/
def easedHash (k : ℕ) : ℕ :=
  if k = 0 then 0x351c6703813172725c6d660aa539ee6a3d7a9fe784c87fae7f36582e3b797058
  else if k = 959 then 0xaa0ef765cfd864c97a15443c7c328f86d1900d3d920b9b782f8cbb8fc07ea3eb
  else k

/-- The time of the block at a height. -/
def easedTime (k : ℕ) : ℕ :=
  1400000000 + if k = 0 then 0 else if k = 1 then 1 else if k ≤ 957 then 60 * k + 1
    else if k = 958 then 57480 else 86340 + 60 * k

/-- The bits of the block at a height. -/
def easedBits (k : ℕ) : ℕ := if k = 959 then 0x1e0fffec else nProofOfWorkLimit

/-- The chain work of the block at a height. -/
def easedWork : ℕ → ℕ
  | 0 => getBlockWork (easedBits 0)
  | k + 1 => easedWork k + getBlockWork (easedBits (k + 1))

/-- The block at a height. -/
def easedIndex (k : ℕ) : CBlockIndex where
  phashBlock := easedHash k
  pprev := if k = 0 then none else some (easedHash (k - 1))
  nFile := 1
  nBlockPos := 1
  nHeight := k
  bnChainWork := easedWork k
  nVersion := 1
  hashMerkleRoot := 0
  nTime := easedTime k
  nBits := easedBits k
  nNonce := k

/-- The walk from the block at a height. -/
def easedWalk : ℕ → List CBlockIndex
  | 0 => [easedIndex 0]
  | k + 1 => easedIndex (k + 1) :: easedWalk k

/-- The chain up to the block on top of the checkpoint. -/
def easedMap : StdMap Uint256 CBlockIndex :=
  ((List.range 961).map fun k => (⟨easedHash k, easedIndex k⟩ : Σ _ : Uint256, CBlockIndex)).toFinmap

theorem easedHash_inj {k l : ℕ} (hk : k ≤ 960) (hl : l ≤ 960) (h : easedHash k = easedHash l) :
    k = l := by
  unfold easedHash at h
  split_ifs at h <;> omega

/-- The blocks of the chain, by their hashes. -/
theorem lookup_easedMap {hash : Uint256} {p : CBlockIndex} :
    easedMap.lookup hash = some p ↔ ∃ k ≤ 960, hash = easedHash k ∧ p = easedIndex k := by
  have hnodup : ((List.range 961).map fun k =>
      (⟨easedHash k, easedIndex k⟩ : Σ _ : Uint256, CBlockIndex)).NodupKeys := by
    rw [List.NodupKeys, List.keys, List.map_map]
    refine List.Nodup.map_on (fun k hk l hl h => ?_) List.nodup_range
    rw [List.mem_range] at hk hl
    exact easedHash_inj (by omega) (by omega) h
  rw [easedMap, Finmap.dlookup_list_toFinmap, ← Option.mem_def, List.mem_dlookup_iff hnodup,
    List.mem_map]
  constructor
  · rintro ⟨k, hk, heq⟩
    obtain ⟨rfl, hp⟩ := Sigma.mk.inj_iff.mp heq
    rw [List.mem_range] at hk
    exact ⟨k, by omega, rfl, (eq_of_heq hp).symm⟩
  · rintro ⟨k, hk, rfl, rfl⟩
    exact ⟨k, List.mem_range.mpr (by omega), rfl⟩

theorem in_easedMap {p : CBlockIndex} : p.In easedMap ↔ ∃ k ≤ 960, p = easedIndex k := by
  rw [CBlockIndex.In, lookup_easedMap]
  constructor
  · rintro ⟨k, hk, -, rfl⟩
    exact ⟨k, hk, rfl⟩
  · rintro ⟨k, hk, rfl⟩
    exact ⟨k, hk, rfl, rfl⟩

theorem easedMap_isTree : IsTree easedMap (easedIndex 0) where
  hash_eq hash p h := by
    obtain ⟨k, -, rfl, rfl⟩ := lookup_easedMap.mp h
    rfl
  linked hash p h := by
    obtain ⟨k, hk, rfl, rfl⟩ := lookup_easedMap.mp h
    cases k with
    | zero => exact ⟨fun _ => ⟨rfl, rfl⟩, fun _ h => by cases h⟩
    | succ k =>
      refine ⟨fun h => (by cases h), fun hash' h => ?_⟩
      obtain rfl : easedHash k = hash' := Option.some.inj h
      exact ⟨easedIndex k, lookup_easedMap.mpr ⟨k, by omega, rfl, rfl⟩, rfl, rfl⟩
  root_mem := lookup_easedMap.mpr ⟨0, by omega, rfl, rfl⟩
  root_pprev := rfl
  root_unique hash p h hp := by
    obtain ⟨k, hk, rfl, rfl⟩ := lookup_easedMap.mp h
    cases k with
    | zero => rfl
    | succ k => cases hp

/-- The walks of the chain. -/
theorem walkOf_easedIndex {k : ℕ} (hk : k ≤ 960) : walkOf easedMap (easedIndex k) = easedWalk k := by
  induction k with
  | zero => exact easedMap_isTree.walkOf_root (in_easedMap.mpr ⟨0, hk, rfl⟩) rfl
  | succ k ih =>
    rw [easedMap_isTree.walkOf_prev (in_easedMap.mpr ⟨k + 1, hk, rfl⟩)
      (in_easedMap.mpr ⟨k, by omega, rfl⟩) rfl, ih (by omega)]
    rfl

/-! ### The targets of the chain -/

/-- The time between two blocks before the checkpoint is a minute a block, up to a minute and a
second. -/
theorem easedTime_sub {k j : ℕ} (hk : k ≤ 958) (hj : j < k) :
    60 * (k - j : ℤ) ≤ easedTime k - easedTime (j + 1) + 61 ∧
      (easedTime k : ℤ) - easedTime (j + 1) ≤ 60 * (k - j) := by
  unfold easedTime
  split_ifs <;> first | contradiction | (push_cast; omega)

/-- No walk that has visited a quarter of a day of blocks is beyond the event horizon. -/
theorem gravityLoop_easedWalk {k j : ℕ} (hk : k ≤ 958) (hj : j ≤ k) {visited : List CBlockIndex}
    (hvisited : visited.length = k - j) :
    gravityLoop checkpointParams (easedIndex k) 60 360 1440
      (gravityState (easedIndex k) 60 visited) (easedWalk j) =
        gravityState (easedIndex k) 60 (visited ++ (easedWalk j).dropLast) := by
  induction j generalizing visited with
  | zero =>
    rw [easedWalk, gravityLoop, if_pos (show (easedIndex 0).nHeight = 0 from rfl),
      List.dropLast_singleton, List.append_nil]
  | succ j ih =>
    have hne : easedWalk j ≠ [] := by cases j <;> simp [easedWalk]
    have hlen : (visited ++ [easedIndex (j + 1)]).length = k - j := by simp; omega
    obtain ⟨hlow, hhigh⟩ := easedTime_sub hk (show j < k by omega)
    rw [easedWalk, gravityLoop,
      if_neg (show (easedIndex (j + 1)).nHeight ≠ 0 from Nat.succ_ne_zero j), gravityState_mass,
      if_neg (by omega), ← gravityState_concat, List.dropLast_cons_of_ne_nil hne]
    simp only
    rw [if_neg, ih (by omega) hlen, List.append_assoc]
    · rfl
    · rw [gravityState_mass, hlen, gravityState_concat, GravityState.next, gravityState_mass]
      simp only [Bool.and_eq_true, decide_eq_true_eq, checkpointParams, Bool.or_eq_true,
        easedIndex, CBlockIndex.getBlockTime]
      push_cast
      omega

/-- The walk without the genesis block ends with the first block. -/
theorem dropLast_easedWalk (k : ℕ) : ∃ l : List CBlockIndex, l.length = k ∧
    (easedWalk (k + 1)).dropLast = l ++ [easedIndex 1] := by
  induction k with
  | zero => exact ⟨[], rfl, rfl⟩
  | succ k ih =>
    obtain ⟨l, hl, heq⟩ := ih
    refine ⟨easedIndex (k + 2) :: l, by rw [List.length_cons, hl], ?_⟩
    rw [easedWalk, List.dropLast_cons_of_ne_nil (by simp [easedWalk]), heq]
    rfl

/-- The blocks of a walk are those up to its height. -/
theorem mem_easedWalk {k : ℕ} {p : CBlockIndex} :
    p ∈ easedWalk k ↔ ∃ j ≤ k, p = easedIndex j := by
  induction k with
  | zero => simp [easedWalk]
  | succ k ih =>
    rw [easedWalk, List.mem_cons, ih]
    constructor
    · rintro (rfl | ⟨j, hj, rfl⟩)
      · exact ⟨k + 1, le_rfl, rfl⟩
      · exact ⟨j, by omega, rfl⟩
    · rintro ⟨j, hj, rfl⟩
      rcases hj.lt_or_eq with hj | rfl
      · exact .inr ⟨j, by omega, rfl⟩
      · exact .inl rfl

/-- Every target of a walk before the checkpoint is the limit, and so is their average. -/
theorem average_easedWalk {k : ℕ} (hk : k ≤ 958) {visited : List CBlockIndex} (hne : visited ≠ [])
    (hvisited : ∀ p ∈ visited, p ∈ easedWalk k) (last : CBlockIndex) :
    (gravityState last 60 visited).pastDifficultyAverage = setCompact nProofOfWorkLimit := by
  have hbits : ∀ p ∈ visited, setCompact p.nBits = setCompact nProofOfWorkLimit := by
    intro p hp
    obtain ⟨j, hj, rfl⟩ := mem_easedWalk.mp (hvisited p hp)
    show setCompact (easedBits j) = _
    rw [easedBits, if_neg (by omega)]
  obtain ⟨⟨pmin, hmin, hlow⟩, pmax, hmax, hhigh⟩ := gravityState_average last 60 hne
  rw [hbits pmin hmin] at hlow
  rw [hbits pmax hmax] at hhigh
  exact le_antisymm hhigh hlow

/-- The ratio over a whole walk is one, so the new target is the average. -/
theorem bnNew_easedWalk {k : ℕ} (hk : 1 ≤ k) (hk' : k + 1 ≤ 957) {l : List CBlockIndex}
    (hl : l.length = k) (hlast : (easedWalk (k + 1)).dropLast = l ++ [easedIndex 1]) :
    (gravityState (easedIndex (k + 1)) 60 (l ++ [easedIndex 1])).bnNew =
      setCompact nProofOfWorkLimit := by
  have hne : l ++ [easedIndex 1] ≠ [] := by simp
  have havg := average_easedWalk (k := k + 1) (by omega) hne
    (fun p hp => List.mem_of_mem_dropLast (hlast ▸ hp)) (easedIndex (k + 1))
  have hactual : (gravityState (easedIndex (k + 1)) 60
      (l ++ [easedIndex 1])).pastRateActualSeconds = 60 * (k + 1) := by
    rw [gravityState_concat, GravityState.next]
    simp only [CBlockIndex.getBlockTime, easedIndex, easedTime]
    split_ifs <;> first | contradiction | (push_cast; omega)
  have htarget : (gravityState (easedIndex (k + 1)) 60
      (l ++ [easedIndex 1])).pastRateTargetSeconds = 60 * (k + 1) := by
    rw [(gravityState_seconds _ _ _).1, List.length_append, hl]
    push_cast
    rfl
  rw [GravityState.bnNew, havg, hactual, htarget, if_pos ⟨by omega, by omega⟩]
  exact Int.mul_tdiv_cancel _ (by omega)

/-- **The gravity well keeps the limit** for the blocks before the last one. -/
theorem neoGetNextWorkRequired_easedWalk {k : ℕ} (hk : k ≤ 957) :
    neoGetNextWorkRequired checkpointParams (easedWalk k) = nProofOfWorkLimit := by
  cases k with
  | zero => rfl
  | succ k =>
    unfold neoGetNextWorkRequired kimotoGravityWell
    rw [easedWalk]
    simp only
    split_ifs with hheight
    · rfl
    have hk360 : 360 ≤ k + 1 := by
      simp only [easedIndex] at hheight
      omega
    have hnil : ([] : List CBlockIndex).length = k + 1 - (k + 1) := by simp
    have hloop := gravityLoop_easedWalk (k := k + 1) (by omega) le_rfl hnil
    obtain ⟨l, hl, hlast⟩ := dropLast_easedWalk k
    rw [List.nil_append, hlast] at hloop
    rw [show GravityState.init = gravityState (easedIndex (k + 1)) 60 [] from rfl, ← easedWalk, hloop,
      bnNew_easedWalk (by omega) hk hl hlast]
    decide +kernel

/-- The target of every block is the one its branch asks for. -/
theorem getNextWorkRequired_easedWalk {k : ℕ} (hk : k ≤ 959) (block : CBlock) :
    getNextWorkRequired checkpointParams (easedWalk k) block = easedBits (k + 1) := by
  rcases (show k ≤ 957 ∨ k = 958 ∨ k = 959 by omega) with hlow | rfl | rfl
  · have hbits : easedBits (k + 1) = nProofOfWorkLimit := if_neg (by omega)
    obtain ⟨l, hwalk⟩ : ∃ l, easedWalk k = easedIndex k :: l := by cases k <;> exact ⟨_, rfl⟩
    rw [getNextWorkRequired, hbits]
    split_ifs with hfork
    · exact neoGetNextWorkRequired_easedWalk hlow
    · have hfour : ¬difficultyKimotoForkHeight < k :=
        of_decide_eq_false (by simpa [hwalk, easedIndex] using hfork)
      unfold difficultyKimotoForkHeight at hfour
      unfold oldGetNextWorkRequired
      rw [hwalk]
      simp only
      rw [if_pos (by simp only [easedIndex, nInterval]; omega), if_neg (by decide)]
      exact if_neg (by omega)
  · rw [getNextWorkRequired, if_pos (by decide +kernel)]
    decide +kernel
  · rw [getNextWorkRequired, if_pos (by decide +kernel)]
    decide +kernel

/-! ### The honest block -/

/-- The times go up along the chain. -/
theorem easedTime_lt {j k : ℕ} (h : j < k) : easedTime j < easedTime k := by
  unfold easedTime
  split_ifs <;> omega

theorem keepsRules_easedIndex {k : ℕ} (hk : k + 1 ≤ 960) :
    (easedIndex (k + 1)).KeepsRules checkpointParams easedMap (easedIndex k) where
  nBits_eq := by
    rw [walkOf_easedIndex (by omega), getNextWorkRequired_easedWalk (by omega)]
    rfl
  medianTimePast_lt := by
    rw [walkOf_easedIndex (by omega)]
    have hne : easedWalk k ≠ [] := by cases k <;> simp [easedWalk]
    obtain ⟨p, hp, heq⟩ := getMedianTimePast_mem hne
    obtain ⟨j, hj, rfl⟩ := mem_easedWalk.mp hp
    rw [heq]
    exact Int.ofNat_lt.mpr (easedTime_lt (show j < k + 1 by omega))
  blockTime_lt := by
    have := easedTime_lt (show k < k + 1 by omega)
    simp only [CBlockIndex.getBlockTime, easedIndex]
    omega
  checkBlock := by
    rcases eq_or_ne (k + 1) 959 with h | h
    · obtain rfl : k = 958 := by omega
      rfl
    · have h958 : (k == 958) = false := beq_false_of_ne (by omega)
      have hlookup : Checkpoints.mapCheckpoints.lookup (k + 1) = none := by
        simp [Checkpoints.mapCheckpoints, List.lookup_cons, h958]
      show (_ || (Checkpoints.mapCheckpoints.lookup (k + 1)).all _) = true
      rw [hlookup]
      rfl

/-- The work grows along the chain. -/
theorem easedWork_mono : Monotone easedWork :=
  monotone_nat_of_le_succ fun k => Nat.le_add_right (easedWork k) _

/-- The node that holds the chain, with the block on top of the checkpoint as its tip. -/
def easedNode : NodeState := { NodeState.empty [] with
  mapBlockIndex := easedMap
  pindexGenesisBlock := some (easedIndex 0)
  pindexBest := some (easedIndex 960)
  hashBestChain := easedHash 960
  nBestHeight := 960
  bnBestChainWork := easedWork 960 }

theorem easedNode_isBlockTree :
    easedNode.IsBlockTree checkpointParams (easedIndex 0) (easedIndex 960) where
  tree := easedMap_isTree
  root_hash := rfl
  getBlockHash_eq p hp := by
    obtain ⟨k, -, rfl⟩ := in_easedMap.mp hp
    rfl
  rules p q hp hq hprev := by
    obtain ⟨k, hk, rfl⟩ := in_easedMap.mp hp
    obtain ⟨l, hl, rfl⟩ := in_easedMap.mp hq
    cases k with
    | zero => cases hprev
    | succ k =>
      obtain rfl : k = l := easedHash_inj (by omega) hl (Option.some.inj hprev)
      exact keepsRules_easedIndex hk
  tip_mem := in_easedMap.mpr ⟨960, le_rfl, rfl⟩
  pindexBest_eq := rfl
  hashBestChain_eq := rfl
  work_le p hp := by
    obtain ⟨k, hk, rfl⟩ := in_easedMap.mp hp
    exact easedWork_mono hk

/-- A block on top of the checkpoint, with the time of the checkpoint. -/
def honestBlock : CBlock :=
  let block : CBlock := ⟨⟨1, easedHash 959, 0, easedTime 959, nProofOfWorkLimit, 961⟩,
    [exampleCoinbase 1 [100000000]]⟩
  { block with hashMerkleRoot := block.buildMerkleTree checkpointParams }

/-- The disk works, and the checkpoint is a minute old. -/
def easedEnv : Env := ⟨Io.reliable, easedTime 960⟩

theorem honestBlock_new : honestBlock.getHash checkpointParams ∉ easedNode.mapBlockIndex := by
  intro hmem
  obtain ⟨p, hp⟩ := Finmap.mem_iff.mp hmem
  obtain ⟨k, hk, heq, -⟩ := lookup_easedMap.mp hp
  replace heq : 961 = easedHash k := heq
  unfold easedHash at heq
  split_ifs at heq <;> omega

/-- Its previous block is the checkpoint. -/
theorem honestBlock_prev :
    easedNode.mapBlockIndex.lookup honestBlock.hashPrevBlock = some (easedIndex 959) :=
  lookup_easedMap.mpr ⟨959, by omega, rfl, rfl⟩

theorem honestBlock_checkBranch :
    easedNode.checkBranch checkpointParams easedEnv honestBlock = .ok () := by
  have hwalk : easedNode.walkFrom (easedIndex 959) = easedWalk 959 := walkOf_easedIndex (by omega)
  have hbits := getNextWorkRequired_easedWalk le_rfl honestBlock
  unfold NodeState.checkBranch
  rw [honestBlock_prev]
  simp only [hwalk, hbits, honestBlock_new, not_false_eq_true, decide_true, ensure_true, ok_bind]
  decide +kernel

theorem honestBlock_reachesCheck :
    easedNode.ReachesCheck checkpointParams easedEnv honestBlock where
  new := honestBlock_new
  not_orphan := Finmap.notMem_empty
  checkBlock := by decide +kernel

/-- The last checkpoint is the block before the honest one. -/
theorem getLastCheckpoint_easedMap :
    Checkpoints.getLastCheckpoint checkpointParams easedMap = some (easedIndex 959) := by
  have h : easedMap.lookup (easedHash 959) = some (easedIndex 959) :=
    lookup_easedMap.mpr ⟨959, by omega, rfl, rfl⟩
  rw [Checkpoints.getLastCheckpoint, if_neg (by decide)]
  refine List.findSome?_eq_some_iff.mpr ?_
  exact ⟨[], (959, easedHash 959), _, rfl, h, by simp⟩

/-- **An honest block can be charged**: in a block tree that keeps the rules, the check rejects a
block that descends from the last checkpoint and keeps them too. -/
theorem not_forall_spares :
    ¬∀ (P : Params) (env : Env) (s : NodeState) (root tip : CBlockIndex) (block : CBlock)
        (pindexPrev pcheckpoint : CBlockIndex),
      s.IsBlockTree P root tip → s.mapBlockIndex.lookup block.hashPrevBlock = some pindexPrev →
        Checkpoints.getLastCheckpoint P s.mapBlockIndex = some pcheckpoint →
        pcheckpoint ∈ s.walkFrom pindexPrev → s.checkBranch P env block = .ok () →
        s.Spares P env block := by
  intro h
  have hspares := h _ _ _ _ _ _ _ _ easedNode_isBlockTree honestBlock_prev
    getLastCheckpoint_easedMap List.mem_cons_self honestBlock_checkBranch
  -- the block does not extend the tip, and its target exceeds that of the checkpoint
  rcases NodeState.spares_iff_withinMinWork.mp hspares honestBlock_reachesCheck _
    getLastCheckpoint_easedMap with htip | ⟨-, hwork⟩
  · exact absurd htip (by decide +kernel)
  · exact absurd hwork (by decide +kernel)

end FoxCoin
