import FoxCoin.Difficulty

/-! # The bounds of the retarget rules

The gravity well keeps a running average of the targets it visits, with a truncating division in
every round. Whatever the timestamps are and wherever the event horizon lies, the average stays
between the targets visited so far, and the scaled average is a positive target. -/

namespace FoxCoin

variable {P : Params} {last : CBlockIndex} {targetBlocksSpacing : ℕ}

/-! ## Truncating division -/

/-- A truncated quotient of a number that is not negative lies between zero and the number. -/
theorem tdiv_bounds_of_nonneg {x d : ℤ} (hx : 0 ≤ x) (hd : 0 < d) : 0 ≤ x.tdiv d ∧ x.tdiv d ≤ x := by
  rw [Int.tdiv_eq_ediv_of_nonneg hx]
  exact ⟨Int.ediv_nonneg hx hd.le, Int.ediv_le_self d hx⟩

/-- Moving an average towards a number by a truncated part of the distance does not pass it. -/
theorem average_bounds (a t : ℤ) {d : ℤ} (hd : 0 < d) :
    min a t ≤ (t - a).tdiv d + a ∧ (t - a).tdiv d + a ≤ max a t := by
  rcases le_total a t with h | h
  · have := tdiv_bounds_of_nonneg (sub_nonneg.mpr h) hd
    rw [min_eq_left h, max_eq_right h]
    omega
  · -- the distance is negative, and truncation is symmetric
    have := tdiv_bounds_of_nonneg (sub_nonneg.mpr h) hd
    rw [← neg_sub a t, Int.neg_tdiv, min_eq_right h, max_eq_left h]
    omega

/-! ## The states of the loop -/

/-- The state of the loop of `KimotoGravityWell` after it has visited a list of blocks. -/
def gravityState (last : CBlockIndex) (targetBlocksSpacing : ℕ) (visited : List CBlockIndex) :
    GravityState :=
  visited.foldl (fun s blockReading => s.next last blockReading targetBlocksSpacing) .init

theorem gravityState_concat (visited : List CBlockIndex) (p : CBlockIndex) :
    gravityState last targetBlocksSpacing (visited ++ [p]) =
      (gravityState last targetBlocksSpacing visited).next last p targetBlocksSpacing := by
  rw [gravityState, List.foldl_append]
  rfl

/-- The mass is the number of blocks visited. -/
theorem gravityState_mass (visited : List CBlockIndex) :
    (gravityState last targetBlocksSpacing visited).pastBlocksMass = visited.length := by
  induction visited using List.reverseRecOn with
  | nil => rfl
  | append_singleton visited p ih =>
    rw [gravityState_concat, GravityState.next, List.length_append, ih]
    rfl

/-- The target seconds go with the mass, and the actual seconds are not negative. -/
theorem gravityState_seconds (last : CBlockIndex) (targetBlocksSpacing : ℕ)
    (visited : List CBlockIndex) :
    (gravityState last targetBlocksSpacing visited).pastRateTargetSeconds =
        targetBlocksSpacing * visited.length ∧
      0 ≤ (gravityState last targetBlocksSpacing visited).pastRateActualSeconds := by
  induction visited using List.reverseRecOn with
  | nil => exact ⟨by simp [gravityState, GravityState.init], le_rfl⟩
  | append_singleton visited p ih =>
    rw [gravityState_concat, GravityState.next, gravityState_mass]
    exact ⟨by simp, le_max_left _ _⟩

/-- A number is between the least and the largest target of the blocks visited. -/
def BetweenTargets (visited : List CBlockIndex) (n : ℤ) : Prop :=
  (∃ p ∈ visited, setCompact p.nBits ≤ n) ∧ ∃ p ∈ visited, n ≤ setCompact p.nBits

/-- **The running average lies between the targets visited so far.** -/
theorem gravityState_average (last : CBlockIndex) (targetBlocksSpacing : ℕ)
    {visited : List CBlockIndex} (h : visited ≠ []) :
    BetweenTargets visited
      (gravityState last targetBlocksSpacing visited).pastDifficultyAverage := by
  induction visited using List.reverseRecOn with
  | nil => exact absurd rfl h
  | append_singleton visited p ih =>
    have hp : p ∈ visited ++ [p] := by simp
    rw [gravityState_concat, GravityState.next, gravityState_mass]
    cases visited with
    | nil => exact ⟨⟨p, hp, le_rfl⟩, p, hp, le_rfl⟩
    | cons q visited =>
      obtain ⟨⟨pmin, hmin, hlow⟩, pmax, hmax, hhigh⟩ := ih (List.cons_ne_nil q visited)
      set avg := (gravityState last targetBlocksSpacing (q :: visited)).pastDifficultyAverage
      rw [if_neg (by simp)]
      -- the average moves towards the new target, so it stays between the old bound and the target
      have hbounds := average_bounds avg (setCompact p.nBits)
        (d := ((q :: visited).length + 1 : ℕ)) (by positivity)
      have hmin' := List.mem_append_left [p] hmin
      have hmax' := List.mem_append_left [p] hmax
      push_cast at hbounds ⊢
      constructor
      · rcases min_le_iff.mp hbounds.1 with h | h
        · exact ⟨pmin, hmin', hlow.trans h⟩
        · exact ⟨p, hp, h⟩
      · rcases le_max_iff.mp hbounds.2 with h | h
        · exact ⟨pmax, hmax', h.trans hhigh⟩
        · exact ⟨p, hp, h⟩

/-- **The loop ends in the state after a prefix of the walk.** When the walk is longer than the
greatest mass, the prefix is not. -/
theorem gravityLoop_eq (P : Params) (last : CBlockIndex)
    (targetBlocksSpacing pastBlocksMin : ℕ) {pastBlocksMax : ℕ} (hmax : 0 < pastBlocksMax)
    (visited walk : List CBlockIndex) (hvisited : visited.length ≤ pastBlocksMax) :
    ∃ more, more <+: walk ∧ (visited ++ more).length ≤ pastBlocksMax ∧
      gravityLoop P last targetBlocksSpacing pastBlocksMin pastBlocksMax
        (gravityState last targetBlocksSpacing visited) walk =
          gravityState last targetBlocksSpacing (visited ++ more) ∧
      ((∃ p, walk.head? = some p ∧ p.nHeight ≠ 0) → visited.length < pastBlocksMax → more ≠ []) := by
  induction walk generalizing visited with
  | nil => exact ⟨[], List.prefix_rfl, by simpa using hvisited, by simp [gravityLoop], by simp⟩
  | cons p walk ih =>
    rw [gravityLoop]
    have hstop : ∃ more, more <+: p :: walk ∧ (visited ++ more).length ≤ pastBlocksMax ∧
        gravityState last targetBlocksSpacing visited =
          gravityState last targetBlocksSpacing (visited ++ more) ∧ more = [] :=
      ⟨[], List.nil_prefix, by simpa using hvisited, by simp, rfl⟩
    by_cases hheight : p.nHeight = 0
    · -- the genesis block is not visited
      obtain ⟨more, hsub, hlen, heq, -⟩ := hstop
      rw [if_pos hheight]
      exact ⟨more, hsub, hlen, heq, by simp [hheight]⟩
    rw [if_neg hheight, gravityState_mass]
    by_cases hmass : 0 < pastBlocksMax ∧ pastBlocksMax < visited.length + 1
    · obtain ⟨more, hsub, hlen, heq, -⟩ := hstop
      rw [if_pos hmass]
      exact ⟨more, hsub, hlen, heq, fun _ h => absurd hmass.2 (by omega)⟩
    have hlen' : (visited ++ [p]).length ≤ pastBlocksMax := by simp; omega
    rw [if_neg hmass, ← gravityState_concat]
    simp only
    split_ifs with hhorizon
    · exact ⟨[p], ⟨walk, rfl⟩, hlen', rfl, fun _ _ => by simp⟩
    · obtain ⟨more, ⟨rest, hrest⟩, hlen, heq, -⟩ := ih (visited ++ [p]) hlen'
      rw [List.append_assoc] at hlen heq
      exact ⟨p :: more, ⟨rest, by rw [← hrest]; rfl⟩, hlen, heq, fun _ _ => by simp⟩

/-! ## Targets in range -/

/-- The target that `nBits` stands for is positive and within the proof-of-work limit. -/
def TargetInRange (nBits : ℕ) : Prop :=
  0 < setCompact nBits ∧ setCompact nBits ≤ bnProofOfWorkLimit

/-- A block whose target is at least a day of seconds and within the limit. -/
def CBlockIndex.HasRegularTarget (p : CBlockIndex) : Prop :=
  86400 ≤ setCompact p.nBits ∧ setCompact p.nBits ≤ bnProofOfWorkLimit

theorem CBlockIndex.HasRegularTarget.inRange {p : CBlockIndex} (h : p.HasRegularTarget) :
    TargetInRange p.nBits := ⟨by have := h.1; omega, h.2⟩

/-- A positive number, capped at the limit and encoded, is a target in range. -/
theorem targetInRange_getCompact {n : ℤ} (h : 0 < n) :
    TargetInRange (getCompact (min n bnProofOfWorkLimit)) := by
  have hlimit : 0 < bnProofOfWorkLimit := by decide +kernel
  obtain ⟨hpos, hle⟩ := setCompact_getCompact_bounds (lt_min h hlimit)
  exact ⟨hpos, hle.trans (min_le_right _ _)⟩

theorem targetInRange_nProofOfWorkLimit : TargetInRange nProofOfWorkLimit := by
  have h := targetInRange_getCompact (n := bnProofOfWorkLimit) (by decide +kernel)
  rwa [min_self] at h

/-! ## The gravity well -/

/-- The numbers by which the round that ends in a state divides, and by which the result is divided
when the loop ends there: the loop counter, and the seconds where the ratio is taken. -/
def GravityState.divisors (s : GravityState) : List ℤ :=
  (s.pastBlocksMass : ℤ) ::
    if s.pastRateActualSeconds ≠ 0 ∧ s.pastRateTargetSeconds ≠ 0 then
      [s.pastRateActualSeconds, s.pastRateTargetSeconds] else []

/-- No round divides by zero. -/
theorem gravityState_divisors {visited : List CBlockIndex} (h : visited ≠ []) :
    ∀ d ∈ (gravityState last targetBlocksSpacing visited).divisors, d ≠ 0 := by
  intro d hd
  rw [GravityState.divisors, gravityState_mass, List.mem_cons] at hd
  rcases hd with rfl | hd
  · exact_mod_cast (List.length_pos_of_ne_nil h).ne'
  · split_ifs at hd with hseconds
    · rcases List.mem_pair.mp hd with rfl | rfl
      · exact hseconds.1
      · exact hseconds.2
    · cases hd

/-- The average over regular targets, scaled by the ratio of the seconds, is positive: the ratio is
at least the inverse of a day. -/
theorem gravityState_bnNew_pos {visited : List CBlockIndex} (h : visited ≠ [])
    (hlen : visited.length ≤ 1440) (hbits : ∀ p ∈ visited, p.HasRegularTarget) :
    0 < (gravityState last 60 visited).bnNew := by
  obtain ⟨⟨pmin, hmin, hlow⟩, -⟩ := gravityState_average last 60 h
  obtain ⟨htarget, hactual⟩ := gravityState_seconds last 60 visited
  have havg : 86400 ≤ (gravityState last 60 visited).pastDifficultyAverage :=
    (hbits pmin hmin).1.trans hlow
  rw [GravityState.bnNew]
  generalize (gravityState last 60 visited).pastDifficultyAverage = avg at havg
  generalize (gravityState last 60 visited).pastRateActualSeconds = actual at hactual
  generalize (gravityState last 60 visited).pastRateTargetSeconds = target at htarget
  split_ifs with hseconds
  · have hactual' : 1 ≤ actual := by omega
    have htarget' : 0 < target ∧ target ≤ 86400 := by push_cast at htarget; omega
    have hle : target ≤ avg * actual := by nlinarith
    rw [Int.tdiv_eq_ediv_of_nonneg (by positivity)]
    have hone : 1 ≤ avg * actual / target := Int.le_ediv_of_mul_le htarget'.1 (by omega)
    omega
  · omega

/-- **The gravity well returns a target in range.** -/
theorem targetInRange_neoGetNextWorkRequired (P : Params) {pindexLast : List CBlockIndex}
    (hbits : ∀ p ∈ pindexLast, p.HasRegularTarget) :
    TargetInRange (neoGetNextWorkRequired P pindexLast) := by
  unfold neoGetNextWorkRequired kimotoGravityWell
  cases pindexLast with
  | nil => exact targetInRange_nProofOfWorkLimit
  | cons last vPrev =>
    simp only
    split_ifs with hheight
    · exact targetInRange_nProofOfWorkLimit
    · obtain ⟨visited, ⟨rest, hrest⟩, hlen, heq, hne⟩ := gravityLoop_eq P last 60 360
        (by decide : 0 < 1440) [] (last :: vPrev) (by simp)
      rw [not_or] at hheight
      have hvisited : visited ≠ [] := hne ⟨last, rfl, hheight.1⟩ (by simp)
      rw [List.nil_append] at hlen heq
      rw [show GravityState.init = gravityState last 60 [] from rfl, heq]
      refine targetInRange_getCompact (gravityState_bnNew_pos hvisited hlen fun p hp => hbits p ?_)
      rw [← hrest]
      exact List.mem_append_left rest hp

/-! ## The interval rule -/

/-- `blockstogoback`. -/
def blocksToGoBack (last : CBlockIndex) : ℕ :=
  if last.nHeight + 1 ≠ nInterval then nInterval else nInterval - 1

/-- A walk that goes down to the genesis block, at height zero. -/
def ReachesGenesis (walk : List CBlockIndex) : Prop :=
  ∀ i (h : i < walk.length), walk[i].nHeight + i + 1 = walk.length

/-- `assert(pindexFirst)`: at the end of an interval the walk back does not run past genesis. -/
theorem pindexFirst_isSome {vPrev : List CBlockIndex} (hwalk : ReachesGenesis (last :: vPrev))
    (hinterval : (last.nHeight + 1) % nInterval = 0) :
    ((last :: vPrev)[blocksToGoBack last]?).isSome = true := by
  have hlen := hwalk 0 (by simp)
  rw [List.getElem_cons_zero] at hlen
  have hback : blocksToGoBack last < (last :: vPrev).length := by
    -- the first retarget goes back to the genesis block, later ones over a full interval
    unfold blocksToGoBack nInterval at *
    split_ifs <;> omega
  rw [List.getElem?_eq_getElem hback]
  rfl

/-- The last regular `nBits` of a walk is that of one of its blocks, or the limit. -/
theorem lastRegularBits_mem (walk : List CBlockIndex) :
    lastRegularBits walk = nProofOfWorkLimit ∨ ∃ p ∈ walk, lastRegularBits walk = p.nBits := by
  induction walk with
  | nil => exact .inl rfl
  | cons p walk ih =>
    cases walk with
    | nil => exact .inr ⟨p, by simp, rfl⟩
    | cons q walk =>
      rw [lastRegularBits]
      split_ifs
      · rcases ih with h | ⟨r, hr, h⟩
        · exact .inl h
        · exact .inr ⟨r, List.mem_cons_of_mem p hr, h⟩
      · exact .inr ⟨p, by simp, rfl⟩

/-- **The interval rule returns a target in range.** -/
theorem targetInRange_oldGetNextWorkRequired (P : Params) {pindexLast : List CBlockIndex}
    (block : CBlock) (hbits : ∀ p ∈ pindexLast, p.HasRegularTarget) :
    TargetInRange (oldGetNextWorkRequired P pindexLast block) := by
  unfold oldGetNextWorkRequired
  cases pindexLast with
  | nil => exact targetInRange_nProofOfWorkLimit
  | cons last vPrev =>
    have hlast := hbits last List.mem_cons_self
    simp only
    split_ifs
    · exact targetInRange_nProofOfWorkLimit
    · rcases lastRegularBits_mem (last :: vPrev) with h | ⟨p, hp, h⟩
      · rw [h]
        exact targetInRange_nProofOfWorkLimit
      · rw [h]
        exact (hbits p hp).inRange
    · exact hlast.inRange
    all_goals
      -- the timespan is at least a quarter of the target timespan
      refine targetInRange_getCompact ?_
      generalize hspan : min (nTargetTimespan * 4) (max (nTargetTimespan / 4) _) = span
      have hspan' : 21600 ≤ span := by
        rw [← hspan]
        exact le_min (by decide) (le_max_of_le_left (by decide))
      have hle : nTargetTimespan ≤ setCompact last.nBits * span := by
        have := hlast.1
        unfold nTargetTimespan
        nlinarith
      have htimespan : 0 < nTargetTimespan := by decide
      rw [Int.tdiv_eq_ediv_of_nonneg (by omega)]
      have hone : 1 ≤ setCompact last.nBits * span / nTargetTimespan :=
        Int.le_ediv_of_mul_le htimespan (by omega)
      omega

/-! ## Both rules -/

/-- **The retarget rules on regular targets**, for any timestamps and any event horizon. In the
gravity well the running average lies between the targets visited so far, and nothing is divided by
zero; both rules return a target in range; and the walk back of the interval rule does not run past
genesis. -/
theorem retarget_bounds (P : Params) (pindexLast : List CBlockIndex) (block : CBlock)
    (hbits : ∀ p ∈ pindexLast, p.HasRegularTarget) (hwalk : ReachesGenesis pindexLast) :
    (∀ last ∈ pindexLast.head?, ∀ visited, visited <+: pindexLast → visited ≠ [] →
      BetweenTargets visited (gravityState last 60 visited).pastDifficultyAverage ∧
        ∀ d ∈ (gravityState last 60 visited).divisors, d ≠ 0) ∧
    (∀ last ∈ pindexLast.head?, ∃ visited, visited <+: pindexLast ∧
      gravityLoop P last 60 360 1440 .init pindexLast = gravityState last 60 visited) ∧
    TargetInRange (neoGetNextWorkRequired P pindexLast) ∧
    TargetInRange (oldGetNextWorkRequired P pindexLast block) ∧
    ∀ last ∈ pindexLast.head?, (last.nHeight + 1) % nInterval = 0 →
      (pindexLast[blocksToGoBack last]?).isSome = true := by
  refine ⟨fun last _ visited _ hne => ⟨gravityState_average last 60 hne, gravityState_divisors hne⟩,
    fun last _ => ?_, targetInRange_neoGetNextWorkRequired P hbits,
    targetInRange_oldGetNextWorkRequired P block hbits, fun last hlast hinterval => ?_⟩
  · obtain ⟨visited, hsub, -, heq, -⟩ := gravityLoop_eq P last 60 360
      (by decide : 0 < 1440) [] pindexLast (by simp)
    exact ⟨visited, hsub, heq⟩
  · cases pindexLast with
    | nil => cases hlast
    | cons p vPrev =>
      obtain rfl : p = last := by simpa using hlast
      exact pindexFirst_isSome hwalk hinterval

/-- The walk from the given height down to genesis, with a block a minute, every target at the
limit. -/
def exampleWalk (nHeight : ℕ) : List CBlockIndex :=
  (List.range (nHeight + 1)).reverse.map fun k =>
    ⟨k, if k = 0 then none else some (k - 1), 1, 1, k, 0, 1, 0, 60 * k, nProofOfWorkLimit, 0⟩

/-- Both rules at the end of the first interval. -/
theorem retarget_bounds_exampleWalk :
    TargetInRange (neoGetNextWorkRequired exampleParams (exampleWalk 1439)) ∧
      TargetInRange (oldGetNextWorkRequired exampleParams (exampleWalk 1439)
        ⟨⟨1, 0, 0, 86400, 0, 0⟩, []⟩) := by
  have hbits : ∀ p ∈ exampleWalk 1439, p.HasRegularTarget := by
    intro p hp
    obtain ⟨k, -, rfl⟩ := List.mem_map.mp hp
    show 86400 ≤ setCompact nProofOfWorkLimit ∧ setCompact nProofOfWorkLimit ≤ bnProofOfWorkLimit
    decide +kernel
  have hwalk : ReachesGenesis (exampleWalk 1439) := by
    intro i hi
    simp only [exampleWalk, List.length_map, List.length_reverse, List.length_range] at hi
    simp only [exampleWalk, List.getElem_map, List.getElem_reverse, List.length_range,
      List.getElem_range, List.length_map, List.length_reverse]
    omega
  obtain ⟨-, -, hneo, hold, -⟩ := retarget_bounds exampleParams _ _ hbits hwalk
  exact ⟨hneo, hold⟩

end FoxCoin
