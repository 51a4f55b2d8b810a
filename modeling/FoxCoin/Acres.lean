import FoxCoin.TipInvariant
import FoxCoin.Hex

/-! # Blocks in the past hours

`acresInPastHours` counts the blocks of the last hours. It goes down from the tip until a block is
too early, and below the genesis block it asks for the time of a fixed hash. The arithmetic is that
of `int`. -/

namespace FoxCoin

open Overlay

/-! ## The code -/

/-- The hash that `getAcreHash` returns for heights off the chain. -/
def offChainHash : StdString :=
  literal "351c6703813172725c6d660aa539ee6a3d7a9fe784c87fae7f36582e3b797058"

/-- `getAcreHash`. Null pointers, which the source follows, give nothing. -/
def NodeState.getAcreHash (s : NodeState) (Height : ℤ) : Option StdString :=
  match s.pindexBest with
  | none => none
  | some pindexBest =>
    if Height > pindexBest.nHeight then some offChainHash
    else if Height < 0 then some offChainHash
    -- `return 0` makes a string from a null pointer, which throws
    else if Height < 0 ∨ Height > s.nBestHeight then none
    else
      match s.mapBlockIndex.lookup s.hashBestChain with
      | none => none
      | some pblockindex =>
        (((s.walkFrom pblockindex).dropWhile fun p => decide (p.nHeight > Height)).head?).map
          fun p => getHex p.phashBlock

/-- `getAcreTime`. -/
def NodeState.getAcreTime (s : NodeState) (Height : ℤ) : Option ℤ :=
  (s.getAcreHash Height).map fun strHash =>
    (s.mapBlockIndex.lookup (setHex strHash)).elim 0 fun pblockindex => int32 pblockindex.nTime

/-- The loop of `acresInPastHours`, as far as the fuel goes. -/
def NodeState.acresLoop (s : NodeState) (target height : ℤ) : ℕ → ℤ → Option ℤ
  | 0, _ => none
  | nFuel + 1, heightHour =>
    match s.getAcreTime heightHour with
    | none => none
    | some nTime =>
      if nTime < target then some (int32 (height - heightHour))
      else s.acresLoop target height nFuel (int32 (heightHour - 1))

/-- The variable `target` of `acresInPastHours` at the time `now`. -/
def acresTarget (now hours : ℤ) : ℤ := int32 (int32 now - int32 (hours * 3600))

/-- `acresInPastHours` at the time `now`, as far as the fuel goes. -/
def NodeState.acresInPastHours (s : NodeState) (now hours : ℤ) (nFuel : ℕ) : Option ℤ :=
  match s.pindexBest with
  | none => none
  | some pindexBest =>
    s.acresLoop (acresTarget now hours) pindexBest.nHeight nFuel pindexBest.nHeight

/-! ## The blocks that count -/

/-- The number of blocks from the tip down to the genesis block, without it, that are not earlier
than `start`. -/
def NodeState.recentBlocks (s : NodeState) (start : ℤ) : ℕ :=
  (s.bestWalk.dropLast.takeWhile fun p => decide (start ≤ p.nTime)).length

/-- The comparison of the loop for a block of the chain. -/
def CBlockIndex.isEarly (target : ℤ) (p : CBlockIndex) : Bool := decide (int32 p.nTime < target)

/-- **An `int` comparison finds an early block**, and none that is made until then for a block above
the genesis block is wrong. -/
def NodeState.ComparesRight (s : NodeState) (start target : ℤ) : Prop :=
  ∃ (n : ℕ) (p : CBlockIndex), s.bestWalk[n]? = some p ∧ p.isEarly target = true ∧
    ∀ i ≤ n, ∀ q : CBlockIndex, s.bestWalk.dropLast[i]? = some q →
      (q.isEarly target = true ↔ q.nTime < start)

variable {s : NodeState} {root p q : CBlockIndex} {target now hours : ℤ}

/-- The tip in memory is an index of a tree of blocks whose heights are not larger than an `int` and
whose hashes have 256 bits. -/
structure NodeState.HasChain (s : NodeState) (root p : CBlockIndex) : Prop where
  tree : IsTree s.mapBlockIndex root
  tip : s.MemoryTip p
  indexed : p.In s.mapBlockIndex
  nHeight_lt : p.nHeight < 2 ^ 31
  hash_lt : ∀ q : CBlockIndex, q.In s.mapBlockIndex → q.phashBlock < 2 ^ 256

/-- A block of a walk is as far below its start as its height says. -/
theorem IsTree.nHeight_of_getElem? {m : StdMap Uint256 CBlockIndex} (ht : IsTree m root)
    (hp : p.In m) {n : ℕ} (hn : (walkOf m p)[n]? = some q) : q.nHeight + n = p.nHeight := by
  refine ht.induction (motive := fun p l => ∀ n, l[n]? = some q → q.nHeight + n = p.nHeight) ?_ ?_ hp
    n hn
  · intro n hn
    obtain ⟨rfl, rfl⟩ : n = 0 ∧ root = q := by
      cases n with
      | zero => exact ⟨rfl, Option.some.inj hn⟩
      | succ n => simp at hn
    rfl
  · intro p r _ _ _ hheight _ _ ih n hn
    cases n with
    | zero =>
      obtain rfl : p = q := Option.some.inj hn
      rfl
    | succ n =>
      have := ih n hn
      omega

/-- On a walk of decreasing heights, cutting off what is higher leads to the block of the height. -/
theorem head?_dropWhile_of_heights {walk : List CBlockIndex}
    (hdesc : walk.Pairwise fun p q => q.nHeight < p.nHeight) {n : ℕ} (hn : walk[n]? = some q) :
    (walk.dropWhile fun p => decide ((p.nHeight : ℤ) > q.nHeight)).head? = some q := by
  induction walk generalizing n with
  | nil => simp at hn
  | cons r walk ih =>
    obtain ⟨hr, hdesc'⟩ := List.pairwise_cons.mp hdesc
    cases n with
    | zero =>
      obtain rfl : r = q := Option.some.inj hn
      rw [List.dropWhile_cons_of_neg (by simp)]
      rfl
    | succ n =>
      have hlt := hr q (List.mem_of_getElem? hn)
      rw [List.dropWhile_cons_of_pos (by simpa using hlt)]
      exact ih hdesc' hn

/-- The time that the loop meets below the genesis block. -/
def NodeState.offChainTime (s : NodeState) : ℤ :=
  (s.mapBlockIndex.lookup (setHex offChainHash)).elim 0 fun q => int32 q.nTime

/-- The time that the loop meets a number of blocks below the tip. -/
def NodeState.timeBelow (s : NodeState) (n : ℕ) : ℤ :=
  (s.bestWalk[n]?).elim s.offChainTime fun q => int32 q.nTime

/-- The time of the block with the hash. -/
theorem NodeState.getAcreTime_of_getAcreHash {Height : ℤ} {strHash : StdString}
    (hhash : s.getAcreHash Height = some strHash) :
    s.getAcreTime Height =
      some ((s.mapBlockIndex.lookup (setHex strHash)).elim 0 fun q => int32 q.nTime) := by
  rw [NodeState.getAcreTime, hhash, Option.map_some]

namespace NodeState.HasChain

variable (h : s.HasChain root p)

include h

theorem bestWalk_eq : s.bestWalk = walkOf s.mapBlockIndex p := by
  rw [NodeState.bestWalk, h.tip.pindexBest]
  rfl

theorem length_bestWalk : s.bestWalk.length = p.nHeight + 1 := by
  rw [h.bestWalk_eq, h.tree.length_walkOf h.indexed]

/-- The time of a block of the chain. -/
theorem getAcreTime_eq {n : ℕ} (hn : s.bestWalk[n]? = some q) :
    s.getAcreTime (p.nHeight - n) = some (int32 q.nTime) := by
  rw [h.bestWalk_eq] at hn
  have hheight := h.tree.nHeight_of_getElem? h.indexed hn
  have hq : q.In s.mapBlockIndex :=
    h.tree.in_of_mem_walkOf h.indexed q (List.mem_of_getElem? hn)
  have hat : (p.nHeight : ℤ) - n = q.nHeight := by omega
  have hhash : s.getAcreHash q.nHeight = some (getHex q.phashBlock) := by
    have htip : s.mapBlockIndex.lookup s.hashBestChain = some p := by
      rw [h.tip.hashBestChain]
      exact h.indexed
    rw [NodeState.getAcreHash, h.tip.pindexBest]
    simp only [h.tip.nBestHeight, htip]
    rw [if_neg (by omega), if_neg (by omega), if_neg (by omega), NodeState.walkFrom_eq,
      head?_dropWhile_of_heights (h.tree.heights h.indexed).1 hn]
    rfl
  rw [CBlockIndex.In] at hq
  rw [hat, getAcreTime_of_getAcreHash hhash, setHex_getHex (h.hash_lt q hq), hq, Option.elim_some]

/-- The time below the genesis block, or above the tip. -/
theorem getAcreTime_offChain {Height : ℤ} (hoff : Height < 0 ∨ p.nHeight < Height) :
    s.getAcreTime Height = some s.offChainTime := by
  have hhash : s.getAcreHash Height = some offChainHash := by
    rw [NodeState.getAcreHash, h.tip.pindexBest]
    simp only
    split_ifs
    · rfl
    · rfl
    · omega
    · omega
  exact getAcreTime_of_getAcreHash hhash

/-- The times that the loop meets, from the tip down. -/
theorem getAcreTime_sub {n : ℕ} (hn : n ≤ p.nHeight + 1) :
    s.getAcreTime (p.nHeight - n) = some (s.timeBelow n) := by
  rewrite [NodeState.timeBelow]
  cases hq : s.bestWalk[n]? with
  | none =>
    rw [List.getElem?_eq_none_iff, h.length_bestWalk] at hq
    rewrite [Option.elim_none]
    exact h.getAcreTime_offChain (.inl (by omega))
  | some q =>
    rewrite [Option.elim_some]
    exact h.getAcreTime_eq hq

/-- **The loop ends at the first early time.** -/
theorem acresLoop_of_early {n : ℕ} (hn : n ≤ p.nHeight + 1) (hlate : ∀ i < n, ¬s.timeBelow i < target)
    (hearly : s.timeBelow n < target) :
    s.acresLoop target p.nHeight (n + 1) p.nHeight = some (int32 n) := by
  have hlt := h.nHeight_lt
  have hbelow : ∀ k i, i + k = n →
      s.acresLoop target p.nHeight (k + 1) (p.nHeight - i) = some (int32 n) := by
    intro k
    induction k with
    | zero =>
      intro i hi
      obtain rfl : i = n := hi
      rw [NodeState.acresLoop, h.getAcreTime_sub hn]
      simp only
      rw [if_pos hearly, sub_sub_cancel]
    | succ k ih =>
      intro i hi
      have hnext : int32 ((p.nHeight : ℤ) - i - 1) = p.nHeight - (i + 1 : ℕ) := by
        rw [int32_eq_self (by omega) (by omega)]
        omega
      rw [NodeState.acresLoop, h.getAcreTime_sub (by omega)]
      simp only [if_neg (hlate i (by omega)), hnext]
      -- one block further down, with one round less to go
      exact ih (i + 1) (by omega)
  simpa using hbelow n 0 (by omega)

/-- Without an early time, it does not end. -/
theorem acresLoop_eq_none (hlate : ∀ i ≤ p.nHeight + 1, ¬s.timeBelow i < target) (nFuel : ℕ)
    (heightHour : ℤ) : s.acresLoop target p.nHeight nFuel heightHour = none := by
  induction nFuel generalizing heightHour with
  | zero => rfl
  | succ nFuel ih =>
    have htime : ∃ i ≤ p.nHeight + 1, s.getAcreTime heightHour = some (s.timeBelow i) := by
      by_cases hoff : heightHour < 0 ∨ p.nHeight < heightHour
      · -- off the chain, where the height may have wrapped around, there is one time only
        have hbelow := h.getAcreTime_sub (n := p.nHeight + 1) le_rfl
        rw [h.getAcreTime_offChain (.inl (by omega))] at hbelow
        exact ⟨p.nHeight + 1, le_rfl, (h.getAcreTime_offChain hoff).trans hbelow⟩
      · refine ⟨p.nHeight - heightHour.toNat, by omega, ?_⟩
        rw [← h.getAcreTime_sub (by omega)]
        congr 1
        omega
    obtain ⟨i, hi, htime⟩ := htime
    rw [NodeState.acresLoop, htime]
    simp only [if_neg (hlate i hi)]
    exact ih _

end NodeState.HasChain

/-- More fuel changes nothing. -/
theorem NodeState.acresLoop_mono {nFuel nFuel' : ℕ} (hle : nFuel ≤ nFuel')
    {height heightHour n : ℤ} (hn : s.acresLoop target height nFuel heightHour = some n) :
    s.acresLoop target height nFuel' heightHour = some n := by
  induction nFuel generalizing nFuel' heightHour with
  | zero => cases hn
  | succ nFuel ih =>
    obtain ⟨nFuel', rfl⟩ : ∃ k, nFuel' = k + 1 := ⟨nFuel' - 1, by omega⟩
    rw [NodeState.acresLoop] at hn ⊢
    cases htime : s.getAcreTime heightHour with
    | none =>
      rw [htime] at hn
      cases hn
    | some nTime =>
      rw [htime] at hn
      simp only at hn ⊢
      by_cases hearly : nTime < target
      · rwa [if_pos hearly] at hn ⊢
      · rw [if_neg hearly] at hn ⊢
        exact ih (by omega) hn

/-! ## When it counts right -/

/-- Where the elements of a list that satisfy a condition end. -/
theorem length_takeWhile_eq_iff {A : Type} {f : A → Bool} {l : List A} {n : ℕ} :
    (l.takeWhile f).length = n ↔
      n ≤ l.length ∧ (∀ i < n, ∀ a, l[i]? = some a → f a = true) ∧
        ∀ a, l[n]? = some a → f a = false := by
  induction l generalizing n with
  | nil =>
    refine ⟨fun h => ?_, fun h => (Nat.le_zero.mp h.1).symm⟩
    obtain rfl : 0 = n := h
    exact ⟨le_rfl, fun i hi => absurd hi (Nat.not_lt_zero i), fun a ha => by cases ha⟩
  | cons b l ih =>
    cases n with
    | zero => simp
    | succ n =>
      rw [List.takeWhile_cons]
      cases hb : f b with
      | false =>
        refine iff_of_false (by simp) fun hall => ?_
        exact Bool.false_ne_true (hb.symm.trans (hall.2.1 0 (by omega) b rfl))
      | true =>
        simp only [if_true, List.length_cons, Nat.add_right_cancel_iff, ih, Nat.add_le_add_iff_right,
          List.getElem?_cons_succ]
        refine and_congr_right fun _ => and_congr_left fun _ => ⟨fun h i hi c hc => ?_, fun h i hi c hc =>
          h (i + 1) (by omega) c hc⟩
        cases i with
        | zero => rwa [← Option.some.inj hc]
        | succ i => exact h i (by omega) c hc

namespace NodeState.HasChain

variable (h : s.HasChain root p)

include h

omit h in
/-- The time of a block of the chain is early if the comparison says so. -/
theorem timeBelow_lt_iff {n : ℕ} (hn : s.bestWalk[n]? = some q) :
    s.timeBelow n < target ↔ q.isEarly target = true := by
  rw [NodeState.timeBelow, hn, Option.elim_some, CBlockIndex.isEarly, decide_eq_true_iff]

theorem getElem?_bestWalk {n : ℕ} (hn : n ≤ p.nHeight) : ∃ q, s.bestWalk[n]? = some q := by
  have hlt : n < s.bestWalk.length := by
    rw [h.length_bestWalk]
    omega
  exact ⟨_, List.getElem?_eq_getElem hlt⟩

theorem recentBlocks_eq_iff {start : ℤ} {n : ℕ} :
    s.recentBlocks start = n ↔ n ≤ p.nHeight ∧
      (∀ i < n, ∀ q : CBlockIndex, s.bestWalk.dropLast[i]? = some q → start ≤ q.nTime) ∧
        ∀ q : CBlockIndex, s.bestWalk.dropLast[n]? = some q → q.nTime < start := by
  rw [NodeState.recentBlocks, length_takeWhile_eq_iff, List.length_dropLast, h.length_bestWalk]
  simp only [decide_eq_true_iff, decide_eq_false_iff_not, not_le, Nat.add_sub_cancel]

/-- Whatever the loop returns is where the first early time stands. -/
theorem acresInPastHours_eq_some {nFuel : ℕ} {n : ℤ}
    (hn : s.acresInPastHours now hours nFuel = some n) :
    ∃ k ≤ p.nHeight + 1, n = int32 k ∧ s.timeBelow k < acresTarget now hours ∧
      ∀ i < k, ¬s.timeBelow i < acresTarget now hours := by
  rw [NodeState.acresInPastHours, h.tip.pindexBest] at hn
  simp only at hn
  by_cases hex : ∃ i, i ≤ p.nHeight + 1 ∧ s.timeBelow i < acresTarget now hours
  · obtain ⟨hle, hearly⟩ := Nat.find_spec hex
    have hlate : ∀ i < Nat.find hex, ¬s.timeBelow i < acresTarget now hours := fun i hi hlt =>
      Nat.find_min hex hi ⟨by omega, hlt⟩
    refine ⟨Nat.find hex, hle, ?_, hearly, hlate⟩
    have hfirst := NodeState.acresLoop_mono (Nat.le_max_left _ nFuel)
      (h.acresLoop_of_early hle hlate hearly)
    have hfound := NodeState.acresLoop_mono (Nat.le_max_right (Nat.find hex + 1) nFuel) hn
    exact Option.some.inj (hfound.symm.trans hfirst)
  · push Not at hex
    rw [h.acresLoop_eq_none fun i hi => not_lt.mpr (hex i hi)] at hn
    cases hn

/-- The blocks are counted right exactly when an early one is found and the comparisons until then
are right. -/
theorem counts_iff : (∃ nFuel, s.acresInPastHours now hours nFuel =
      some (s.recentBlocks (now - 3600 * hours) : ℤ)) ↔
    s.ComparesRight (now - 3600 * hours) (acresTarget now hours) := by
  have hlt := h.nHeight_lt
  have hdrop : ∀ (i : ℕ) (q : CBlockIndex), s.bestWalk.dropLast[i]? = some q →
      s.bestWalk[i]? = some q := by
    intro i q hq
    rw [List.getElem?_dropLast, Option.ite_none_right_eq_some] at hq
    exact hq.2
  constructor
  · rintro ⟨nFuel, hn⟩
    obtain ⟨k, _, hcount, hearly, hlate⟩ := h.acresInPastHours_eq_some hn
    obtain ⟨hle, hrecent, hend⟩ := h.recentBlocks_eq_iff.mp rfl
    -- both numbers fit in an `int`
    have hkeq : s.recentBlocks (now - 3600 * hours) = k := by
      rw [int32, Int.bmod_def] at hcount
      omega
    rw [hkeq] at hle hrecent hend
    obtain ⟨q, hq⟩ := h.getElem?_bestWalk hle
    refine ⟨k, q, hq, (timeBelow_lt_iff hq).mp hearly, fun i hi r hr => ?_⟩
    -- the blocks that are counted are compared right, and so is the one the loop ends at
    obtain hi | rfl := hi.lt_or_eq
    · refine iff_of_false (fun hr' => hlate i hi ((timeBelow_lt_iff (hdrop i r hr)).mpr hr')) ?_
      exact not_lt.mpr (hrecent i hi r hr)
    · exact iff_of_true ((timeBelow_lt_iff (hdrop i r hr)).mp hearly) (hend r hr)
  · rintro ⟨n, q, hq, hearly, hright⟩
    have hex : ∃ i, s.timeBelow i < acresTarget now hours := ⟨n, (timeBelow_lt_iff hq).mpr hearly⟩
    have hle : Nat.find hex ≤ n := Nat.find_min' hex ((timeBelow_lt_iff hq).mpr hearly)
    have hn : n ≤ p.nHeight := by
      have := (List.getElem?_eq_some_iff.mp hq).1
      rw [h.length_bestWalk] at this
      omega
    -- the loop ends at the first early time, and up to it the comparisons are right
    have hcount : s.recentBlocks (now - 3600 * hours) = Nat.find hex := by
      refine h.recentBlocks_eq_iff.mpr ⟨hle.trans hn, fun i hi r hr => ?_, fun r hr => ?_⟩
      · refine not_lt.mp fun hlt' => Nat.find_min hex hi ?_
        exact (timeBelow_lt_iff (hdrop i r hr)).mpr ((hright i (by omega) r hr).mpr hlt')
      · exact (hright _ hle r hr).mp ((timeBelow_lt_iff (hdrop _ r hr)).mp (Nat.find_spec hex))
    refine ⟨Nat.find hex + 1, ?_⟩
    rw [hcount, NodeState.acresInPastHours, h.tip.pindexBest]
    simp only
    rw [h.acresLoop_of_early (by omega) (fun i hi => Nat.find_min hex hi) (Nat.find_spec hex),
      int32_eq_self (by omega) (by omega)]

end NodeState.HasChain

/-- Where the numbers fit in an `int`, the comparisons are right, and what matters is that some block
of the chain is earlier than the start. -/
theorem NodeState.comparesRight_iff (hnow : -2 ^ 31 ≤ now ∧ now < 2 ^ 31)
    (hhours : -2 ^ 31 ≤ 3600 * hours ∧ 3600 * hours < 2 ^ 31)
    (hstart : -2 ^ 31 ≤ now - 3600 * hours ∧ now - 3600 * hours < 2 ^ 31)
    (htimes : ∀ q ∈ s.bestWalk, q.nTime < 2 ^ 31) :
    s.ComparesRight (now - 3600 * hours) (acresTarget now hours) ↔
      ∃ q ∈ s.bestWalk, (q.nTime : ℤ) < now - 3600 * hours := by
  have htarget : acresTarget now hours = now - 3600 * hours := by
    rw [acresTarget, int32_eq_self hnow.1 hnow.2, mul_comm hours, int32_eq_self hhours.1 hhours.2,
      int32_eq_self hstart.1 hstart.2]
  have hearly : ∀ q ∈ s.bestWalk,
      (q.isEarly (acresTarget now hours) = true ↔ (q.nTime : ℤ) < now - 3600 * hours) := by
    intro q hq
    have := htimes q hq
    rw [CBlockIndex.isEarly, decide_eq_true_iff, int32_eq_self (by omega) (by omega), htarget]
  constructor
  · rintro ⟨n, q, hq, hlt, _⟩
    have hmem := List.mem_of_getElem? hq
    exact ⟨q, hmem, (hearly q hmem).mp hlt⟩
  · rintro ⟨q, hmem, hlt⟩
    obtain ⟨n, hn⟩ := List.mem_iff_getElem?.mp hmem
    refine ⟨n, q, hn, (hearly q hmem).mpr hlt, fun i _ r hr => hearly r ?_⟩
    exact List.mem_of_mem_dropLast (List.mem_of_getElem? hr)

/-- **`acresInPastHours` returns the number of recent blocks exactly when its loop finds an early
block on the chain** and compares right until then. Where nothing overflows, that is to say that some
block of the chain is earlier than the start. -/
theorem acresInPastHours_eq_iff (h : s.HasChain root p) (now hours : ℤ) :
    ((∃ nFuel, s.acresInPastHours now hours nFuel =
        some (s.recentBlocks (now - 3600 * hours) : ℤ)) ↔
      s.ComparesRight (now - 3600 * hours) (acresTarget now hours)) ∧
    ((-2 ^ 31 ≤ now ∧ now < 2 ^ 31) → (-2 ^ 31 ≤ 3600 * hours ∧ 3600 * hours < 2 ^ 31) →
      (-2 ^ 31 ≤ now - 3600 * hours ∧ now - 3600 * hours < 2 ^ 31) →
      (∀ q ∈ s.bestWalk, q.nTime < 2 ^ 31) →
      ((∃ nFuel, s.acresInPastHours now hours nFuel =
          some (s.recentBlocks (now - 3600 * hours) : ℤ)) ↔
        ∃ q ∈ s.bestWalk, (q.nTime : ℤ) < now - 3600 * hours)) :=
  ⟨h.counts_iff, fun hnow hhours hstart htimes =>
    h.counts_iff.trans (NodeState.comparesRight_iff hnow hhours hstart htimes)⟩

/-! ## A node with the genesis block only -/

/-- The genesis block of the main network, as far as it matters here. -/
def launchIndex : CBlockIndex where
  phashBlock := setHex offChainHash
  pprev := none
  nFile := 1
  nBlockPos := 8
  nHeight := 0
  bnChainWork := getBlockWork 0x1e0ffff0
  nVersion := 1
  hashMerkleRoot := 0
  nTime := 1390207760
  nBits := 0x1e0ffff0
  nNonce := 3175355

/-- The node at its first start. -/
def launchNode : NodeState where
  __ := NodeState.empty []
  mapBlockIndex := (∅ : StdMap Uint256 CBlockIndex).insert launchIndex.phashBlock launchIndex
  pindexGenesisBlock := some launchIndex
  pindexBest := some launchIndex
  hashBestChain := launchIndex.phashBlock
  nBestHeight := 0
  bnBestChainWork := launchIndex.bnChainWork

theorem hasChain_launchNode : launchNode.HasChain launchIndex launchIndex where
  tree := isTree_singleton rfl rfl rfl
  tip := ⟨rfl, rfl, rfl, rfl⟩
  indexed := by
    rw [CBlockIndex.In, launchNode, lookup_insert_eq_ite, if_pos rfl]
  nHeight_lt := by decide
  hash_lt := by
    intro q hq
    have hcases : q.phashBlock = launchIndex.phashBlock := by
      rw [CBlockIndex.In, launchNode, lookup_insert_eq_ite, Finmap.lookup_empty,
        Option.ite_none_right_eq_some] at hq
      exact hq.1
    rw [hcases]
    exact Nat.mod_lt _ (by norm_num)

theorem bestWalk_launchNode : launchNode.bestWalk = [launchIndex] :=
  hasChain_launchNode.bestWalk_eq.trans
    (hasChain_launchNode.tree.walkOf_root hasChain_launchNode.indexed rfl)

theorem acresInPastHours_launchNode : ∃ nFuel, launchNode.acresInPastHours 1390220000 1 nFuel =
    some (launchNode.recentBlocks (1390220000 - 3600 * 1) : ℤ) := by
  refine ((acresInPastHours_eq_iff hasChain_launchNode 1390220000 1).2 (by decide) (by decide)
    (by decide) ?_).mpr ⟨launchIndex, ?_, by decide⟩
  · rw [bestWalk_launchNode]
    decide
  · rw [bestWalk_launchNode]
    exact List.mem_singleton_self _

/-- In the first hours the loop never ends: below the genesis block it meets the genesis block. -/
theorem not_forall_acresInPastHours :
    ¬∀ (s : NodeState) (root p : CBlockIndex) (now hours : ℤ), s.HasChain root p →
      ∃ nFuel, s.acresInPastHours now hours nFuel =
        some (s.recentBlocks (now - 3600 * hours) : ℤ) := by
  intro hall
  have hcounts := hall launchNode launchIndex launchIndex 1390207761 1 hasChain_launchNode
  rw [hasChain_launchNode.counts_iff, NodeState.comparesRight_iff (by decide) (by decide) (by decide)
    (by rw [bestWalk_launchNode]; decide), bestWalk_launchNode] at hcounts
  obtain ⟨q, hq, hlt⟩ := hcounts
  rw [List.mem_singleton.mp hq] at hlt
  exact absurd hlt (by decide)

end FoxCoin
