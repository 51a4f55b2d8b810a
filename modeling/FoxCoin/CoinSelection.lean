import FoxCoin.PoolAccept
import FoxCoin.Lib.Masked

/-! # Choosing coins

`SelectCoinsMinConf` looks for coins that pay an amount: one coin of just that amount, all the
smaller coins together, a random subset of them, or the least of the larger coins. What is left over
is nothing or at least `CENT`, if the coins allow it. -/

namespace FoxCoin

open Masked

/-! ## Coins -/

/-- `pair<const CWalletTx*, unsigned int>`: a wallet transaction, by its key in the wallet, and the
number of an output. -/
abbrev CoinKey := Uint256 × ℕ

/-- An element of `vValue`: an amount and where it comes from. -/
abbrev CoinValue := ℤ × CoinKey

/-- `COutput`, with what the selection reads of its transaction: the amount of the output and
`IsFromMe()`. -/
structure COutput where
  tx : Uint256
  i : ℕ
  nDepth : ℤ
  nValue : ℤ
  fFromMe : Bool
  deriving DecidableEq

/-- `make_pair(pcoin, i)`. -/
def COutput.key (output : COutput) : CoinKey := (output.tx, output.i)

/-- `make_pair(n, make_pair(pcoin, i))`. -/
def COutput.coin (output : COutput) : CoinValue := (output.nValue, output.key)

/-- What the selection returns besides `true`. -/
structure Selection where
  setCoinsRet : Finset CoinKey
  nValueRet : ℤ
  deriving DecidableEq

/-- Coins that are inserted one after the other. -/
def Selection.ofCoins (coins : List CoinValue) : Selection :=
  ⟨(coins.map Prod.snd).toFinset, coins.foldl (fun nValueRet coin => int64 (nValueRet + coin.1)) 0⟩

/-- What chance decides: the order of the coins after `random_shuffle`, the order of equal amounts
after `sort`, and the random bits of the two searches for a subset, by repetition and position. -/
structure CoinChances where
  shuffle : List COutput → List COutput
  shuffle_perm : ∀ vCoins, (shuffle vCoins).Perm vCoins
  sort : List CoinValue → List CoinValue
  sort_perm : ∀ vValue, (sort vValue).Perm vValue
  sort_sorted : ∀ vValue, (sort vValue).Pairwise fun a b => b.1 ≤ a.1
  bits : ℕ → ℕ → Bool
  bitsCent : ℕ → ℕ → Bool

/-! ## ApproximateBestSubset -/

/-- The variables of `ApproximateBestSubset`. -/
structure SubsetState where
  vfIncluded : List Bool
  nTotal : ℤ
  fReachedTarget : Bool
  vfBest : List Bool
  nBest : ℤ

/-- One round of the innermost loop, for a coin that is to be tried or not. -/
def tryCoin (vValue : List ℤ) (nTargetValue : ℤ) (fTry : Bool) (st : SubsetState) (i : ℕ) :
    SubsetState :=
  if fTry then
    let nTotal := int64 (st.nTotal + vValue.getD i 0)
    let vfIncluded := st.vfIncluded.set i true
    if nTargetValue ≤ nTotal then
      { vfIncluded := vfIncluded.set i false
        nTotal := int64 (nTotal - vValue.getD i 0)
        fReachedTarget := true
        vfBest := if nTotal < st.nBest then vfIncluded else st.vfBest
        nBest := if nTotal < st.nBest then nTotal else st.nBest }
    else { st with vfIncluded, nTotal }
  else st

/-- The innermost loop. -/
def subsetPass (vValue : List ℤ) (nTargetValue : ℤ) (fTry : ℕ → List Bool → Bool) (is : List ℕ)
    (st : SubsetState) : SubsetState :=
  is.foldl (fun st i => tryCoin vValue nTargetValue (fTry i st.vfIncluded) st i) st

/-- One repetition: random coins are tried first, and then all others, if the target has not been
reached. -/
def subsetRep (vValue : List ℤ) (nTargetValue : ℤ) (bits : ℕ → Bool) (st : SubsetState) :
    SubsetState :=
  let is := List.range vValue.length
  let st := { st with
    vfIncluded := List.replicate vValue.length false, nTotal := 0, fReachedTarget := false }
  let st := subsetPass vValue nTargetValue (fun i _ => bits i) is st
  if st.fReachedTarget then st
  else subsetPass vValue nTargetValue (fun i vfIncluded => !vfIncluded.getD i false) is st

/-- `ApproximateBestSubset`: `vfBest` and `nBest`. -/
def approximateBestSubset (vValue : List ℤ) (nTotalLower nTargetValue : ℤ) (bits : ℕ → ℕ → Bool)
    (iterations : ℕ) : List Bool × ℤ :=
  let st := (List.range iterations).foldl (fun st nRep =>
    if st.nBest ≠ nTargetValue then subsetRep vValue nTargetValue (bits nRep) st else st)
    ⟨[], 0, false, List.replicate vValue.length true, nTotalLower⟩
  (st.vfBest, st.nBest)

/-! ## SelectCoinsMinConf -/

/-- `numeric_limits<int64>::max()`. -/
def int64Max : ℤ := 2 ^ 63 - 1

/-- The variables of the loop over the coins. `coinLowestLarger` has no transaction at first. -/
structure ScanState where
  vValue : List CoinValue
  nTotalLower : ℤ
  coinLowestLarger : ℤ × Option CoinKey

/-- An output is deep enough in the chain. -/
def COutput.eligible (nConfMine nConfTheirs : ℤ) (output : COutput) : Bool :=
  !decide (output.nDepth < if output.fFromMe then nConfMine else nConfTheirs)

/-- The loop over the coins. It returns early for a coin of just the amount. -/
def scanCoins (nTargetValue nConfMine nConfTheirs : ℤ) :
    List COutput → ScanState → Except Selection ScanState
  | [], st => .ok st
  | output :: vCoins, st =>
    if output.eligible nConfMine nConfTheirs then
      let n := output.nValue
      if n = nTargetValue then .error ⟨{output.key}, n⟩
      else if n < int64 (nTargetValue + cent) then
        scanCoins nTargetValue nConfMine nConfTheirs vCoins { st with
          vValue := st.vValue ++ [output.coin]
          nTotalLower := int64 (st.nTotalLower + n) }
      else if n < st.coinLowestLarger.1 then
        scanCoins nTargetValue nConfMine nConfTheirs vCoins { st with
          coinLowestLarger := (n, some output.key) }
      else scanCoins nTargetValue nConfMine nConfTheirs vCoins st
    else scanCoins nTargetValue nConfMine nConfTheirs vCoins st

/-- The search for a subset: for the amount, and then for the amount and `CENT` more if that leaves
change. -/
def searchSubset (R : CoinChances) (nTargetValue nTotalLower : ℤ) (vValue : List ℤ) :
    List Bool × ℤ :=
  let best := approximateBestSubset vValue nTotalLower nTargetValue R.bits 1000
  if best.2 ≠ nTargetValue ∧ int64 (nTargetValue + cent) ≤ nTotalLower then
    approximateBestSubset vValue nTotalLower (int64 (nTargetValue + cent)) R.bitsCent 1000
  else best

/-- `CWallet::SelectCoinsMinConf`; `none` is `false`. -/
def selectCoinsMinConf (R : CoinChances) (nTargetValue nConfMine nConfTheirs : ℤ)
    (vCoins : List COutput) : Option Selection :=
  match scanCoins nTargetValue nConfMine nConfTheirs (R.shuffle vCoins)
    ⟨[], 0, (int64Max, none)⟩ with
  | .error selection => some selection
  | .ok st =>
    if st.nTotalLower = nTargetValue then some (.ofCoins st.vValue)
    else if st.nTotalLower < nTargetValue then
      st.coinLowestLarger.2.map fun key => ⟨{key}, st.coinLowestLarger.1⟩
    else
      let vValue := R.sort st.vValue
      let (vfBest, nBest) := searchSubset R nTargetValue st.nTotalLower (vValue.map Prod.fst)
      match st.coinLowestLarger.2 with
      | none => some (.ofCoins (picked vfBest vValue))
      | some key =>
        -- the bigger coin, if the search left change below `CENT`, or if it is closer
        if (nBest ≠ nTargetValue ∧ nBest < int64 (nTargetValue + cent)) ∨
            st.coinLowestLarger.1 ≤ nBest then some ⟨{key}, st.coinLowestLarger.1⟩
        else some (.ofCoins (picked vfBest vValue))

/-! ## The search for a subset -/

/-- The amounts that are searched: none is negative, and their sum fits. -/
structure Searchable (vValue : List ℤ) : Prop where
  nonneg : ∀ n ∈ vValue, 0 ≤ n
  fits : vValue.sum < 2 ^ 63

/-- The search keeps count: the totals are those of the flags, and the best one reaches the
target. -/
structure SubsetState.Tracks (vValue : List ℤ) (nTargetValue : ℤ) (st : SubsetState) : Prop where
  length : st.vfIncluded.length = vValue.length
  total : st.nTotal = (picked st.vfIncluded vValue).sum
  best : st.nBest = (picked st.vfBest vValue).sum
  reaches : nTargetValue ≤ st.nBest

/-- The best subset so far, as far as the next repetition reads it. -/
def SubsetState.BestTracks (vValue : List ℤ) (nTargetValue : ℤ) (st : SubsetState) : Prop :=
  st.nBest = (picked st.vfBest vValue).sum ∧ nTargetValue ≤ st.nBest

section Search

variable {vValue : List ℤ} {nTargetValue : ℤ} {st : SubsetState}

/-- Trying a coin that is not included keeps count, and leaves the other flags alone. -/
theorem SubsetState.Tracks.tryCoin (hsearch : Searchable vValue)
    (h : st.Tracks vValue nTargetValue) {i : ℕ} (hi : i < vValue.length) {fTry : Bool}
    (hfree : fTry = true → st.vfIncluded[i]? = some false) :
    (FoxCoin.tryCoin vValue nTargetValue fTry st i).Tracks vValue nTargetValue ∧
      ∀ j, j ≠ i → (FoxCoin.tryCoin vValue nTargetValue fTry st i).vfIncluded[j]? =
        st.vfIncluded[j]? := by
  unfold FoxCoin.tryCoin
  by_cases htry : fTry = true
  · have hflag := hfree htry
    have hvalue : vValue[i]? = some (vValue.getD i 0) := by
      rw [List.getD_eq_getElem?_getD, List.getElem?_eq_getElem hi, Option.getD_some]
    have hsum : (picked (st.vfIncluded.set i true) vValue).sum =
        st.nTotal + vValue.getD i 0 := by
      rw [(picked_set_true hflag hvalue).sum_eq, List.sum_cons, h.total, add_comm]
    have hincluded := sum_picked_bounds (st.vfIncluded.set i true) hsearch.nonneg
    have hbefore := sum_picked_bounds st.vfIncluded hsearch.nonneg
    have hfits := hsearch.fits
    have htotal : int64 (st.nTotal + vValue.getD i 0) = st.nTotal + vValue.getD i 0 :=
      int64_eq_self (by omega) (by omega)
    have hback : int64 (st.nTotal + vValue.getD i 0 - vValue.getD i 0) = st.nTotal := by
      rw [add_sub_cancel_right]
      exact int64_eq_self (by have := h.total; omega) (by have := h.total; omega)
    rw [if_pos htry]
    simp only [htotal]
    split_ifs with hreached hbetter
    · -- the coin reaches the target and gives a better subset
      refine ⟨⟨by simp [h.length], ?_, hsum.symm, hreached⟩, fun j hj => ?_⟩
      · rw [hback, set_true_set_false hflag, h.total]
      · rw [set_true_set_false hflag]
    · refine ⟨⟨by simp [h.length], ?_, h.best, h.reaches⟩, fun j hj => ?_⟩
      · rw [hback, set_true_set_false hflag, h.total]
      · rw [set_true_set_false hflag]
    · exact ⟨⟨by simp [h.length], hsum.symm, h.best, h.reaches⟩,
        fun j hj => List.getElem?_set_ne (Ne.symm hj)⟩
  · rw [if_neg htry]
    exact ⟨h, fun _ _ => rfl⟩

/-- **A pass keeps count**, if it only tries coins that are not included: because none of those to
come are, or because it looks. -/
theorem SubsetState.Tracks.subsetPass (hsearch : Searchable vValue)
    {fTry : ℕ → List Bool → Bool} {i m : ℕ} (hm : i + m ≤ vValue.length)
    (h : st.Tracks vValue nTargetValue)
    (hfree : (∀ j, i ≤ j → j < i + m → st.vfIncluded[j]? = some false) ∨
      ∀ j vfIncluded, j < vfIncluded.length → fTry j vfIncluded = true →
        vfIncluded[j]? = some false) :
    (FoxCoin.subsetPass vValue nTargetValue fTry (List.range' i m) st).Tracks vValue
      nTargetValue := by
  induction m generalizing i st with
  | zero => exact h
  | succ m ih =>
    have hi : i < vValue.length := by omega
    have hflag : fTry i st.vfIncluded = true → st.vfIncluded[i]? = some false := by
      intro htry
      rcases hfree with hclear | hlooks
      · exact hclear i le_rfl (by omega)
      · exact hlooks i _ (by rw [h.length]; exact hi) htry
    obtain ⟨hnext, hothers⟩ := h.tryCoin hsearch hi hflag
    rw [FoxCoin.subsetPass, List.range'_succ, List.foldl_cons]
    refine ih (by omega) hnext (hfree.imp_left fun hclear j hij hj => ?_)
    rw [hothers j (by omega)]
    exact hclear j (by omega) (by omega)

/-- **A repetition keeps count.** -/
theorem SubsetState.BestTracks.subsetRep (hsearch : Searchable vValue)
    (h : st.BestTracks vValue nTargetValue) (bits : ℕ → Bool) :
    (FoxCoin.subsetRep vValue nTargetValue bits st).BestTracks vValue nTargetValue := by
  have hstart : SubsetState.Tracks vValue nTargetValue { st with
      vfIncluded := List.replicate vValue.length false, nTotal := 0, fReachedTarget := false } :=
    ⟨List.length_replicate, by rw [picked_replicate_false]; rfl, h.1, h.2⟩
  have hall : 0 + vValue.length ≤ vValue.length := by omega
  have hclear : ∀ j, 0 ≤ j → j < 0 + vValue.length →
      (List.replicate vValue.length false)[j]? = some false := by
    intro j _ hj
    rw [List.getElem?_replicate, if_pos (by omega)]
  have hfirst : SubsetState.Tracks vValue nTargetValue
      (FoxCoin.subsetPass vValue nTargetValue (fun i _ => bits i) (List.range' 0 vValue.length)
        { st with
          vfIncluded := List.replicate vValue.length false, nTotal := 0, fReachedTarget := false }) :=
    hstart.subsetPass hsearch hall (.inl hclear)
  rw [← List.range_eq_range'] at hfirst
  unfold FoxCoin.subsetRep
  dsimp only
  split
  · exact ⟨hfirst.best, hfirst.reaches⟩
  · have hfree : ∀ j (vfIncluded : List Bool), j < vfIncluded.length →
        (!vfIncluded.getD j false) = true → vfIncluded[j]? = some false := by
      intro j vfIncluded hj htry
      rw [List.getD_eq_getElem?_getD, List.getElem?_eq_getElem hj, Option.getD_some] at htry
      rw [List.getElem?_eq_getElem hj]
      simpa using htry
    have hsecond := hfirst.subsetPass hsearch hall (.inr hfree)
    rw [← List.range_eq_range'] at hsecond
    exact ⟨hsecond.best, hsecond.reaches⟩

/-- **`nBest` is the sum of `vfBest` for every random choice**, and it reaches the target. -/
theorem approximateBestSubset_spec (hsearch : Searchable vValue)
    (hreaches : nTargetValue ≤ vValue.sum) (bits : ℕ → ℕ → Bool) (iterations : ℕ) :
    (approximateBestSubset vValue vValue.sum nTargetValue bits iterations).2 =
        (picked (approximateBestSubset vValue vValue.sum nTargetValue bits iterations).1
          vValue).sum ∧
      nTargetValue ≤ (approximateBestSubset vValue vValue.sum nTargetValue bits iterations).2 := by
  have hloop : ∀ (nReps : List ℕ) (st : SubsetState), st.BestTracks vValue nTargetValue →
      (nReps.foldl (fun st nRep =>
        if st.nBest ≠ nTargetValue then subsetRep vValue nTargetValue (bits nRep) st else st)
        st).BestTracks vValue nTargetValue := by
    intro nReps
    induction nReps with
    | nil => exact fun st h => h
    | cons nRep nReps ih =>
      intro st h
      rw [List.foldl_cons]
      refine ih _ ?_
      split
      · exact h.subsetRep hsearch (bits nRep)
      · exact h
  exact hloop _ _ ⟨by rw [picked_replicate_true], hreaches⟩

end Search

/-! ## The coins of the loop -/

/-- The coins that are deep enough. -/
def eligibleCoins (nConfMine nConfTheirs : ℤ) (vCoins : List COutput) : List COutput :=
  vCoins.filter (COutput.eligible nConfMine nConfTheirs)

/-- The coins that are worth less than the amount and `CENT`. -/
def lowerCoins (nTargetValue : ℤ) (coins : List COutput) : List COutput :=
  coins.filter fun output => decide (output.nValue < nTargetValue + cent)

/-- The sum of the amounts of some coins. -/
def valueOfCoins (coins : List COutput) : ℤ := (coins.map COutput.nValue).sum

section Scan

variable {nTargetValue nConfMine nConfTheirs : ℤ} {vCoins coins : List COutput} {st : ScanState}

/-- The amounts of the coins are positive and below the largest one of the type, their sum fits, and
so does the amount with `CENT` on top. -/
structure Payable (nTargetValue : ℤ) (coins : List COutput) : Prop where
  pos : ∀ output ∈ coins, 0 < output.nValue
  lt_max : ∀ output ∈ coins, output.nValue < int64Max
  fits : valueOfCoins coins < 2 ^ 63
  target_pos : 0 < nTargetValue
  target_fits : nTargetValue + cent < 2 ^ 63

/-- What the selection needs of the amounts: they may be zero. -/
structure Affordable (nTargetValue : ℤ) (coins : List COutput) : Prop where
  nonneg : ∀ output ∈ coins, 0 ≤ output.nValue
  lt_max : ∀ output ∈ coins, output.nValue < int64Max
  fits : valueOfCoins coins < 2 ^ 63
  target_nonneg : 0 ≤ nTargetValue
  target_fits : nTargetValue + cent < 2 ^ 63

theorem Payable.affordable (h : Payable nTargetValue coins) : Affordable nTargetValue coins :=
  ⟨fun output ho => (h.pos output ho).le, h.lt_max, h.fits, h.target_pos.le, h.target_fits⟩

theorem Affordable.int64_target (h : Affordable nTargetValue coins) :
    int64 (nTargetValue + cent) = nTargetValue + cent := by
  have hnonneg := h.target_nonneg
  have hfits := h.target_fits
  unfold cent at *
  exact int64_eq_self (by omega) hfits

/-- Fewer coins have a smaller sum. -/
theorem Affordable.valueOfCoins_le (h : Affordable nTargetValue coins) {l : List COutput}
    (hl : l.Sublist coins) : 0 ≤ valueOfCoins l ∧ valueOfCoins l ≤ valueOfCoins coins := by
  have hnonneg : ∀ n ∈ coins.map COutput.nValue, 0 ≤ n := by
    intro n hn
    obtain ⟨output, houtput, rfl⟩ := List.mem_map.mp hn
    exact h.nonneg output houtput
  exact ⟨List.sum_nonneg fun n hn => hnonneg n ((hl.map COutput.nValue).subset hn),
    (hl.map COutput.nValue).sum_le_sum hnonneg⟩

theorem Affordable.sublist (h : Affordable nTargetValue vCoins) (hsub : coins.Sublist vCoins) :
    Affordable nTargetValue coins :=
  ⟨fun output ho => h.nonneg output (hsub.subset ho), fun output ho => h.lt_max output (hsub.subset ho),
    (h.valueOfCoins_le hsub).2.trans_lt h.fits, h.target_nonneg, h.target_fits⟩

theorem Affordable.perm (h : Affordable nTargetValue vCoins) (hperm : coins.Perm vCoins) :
    Affordable nTargetValue coins :=
  ⟨fun output ho => h.nonneg output (hperm.subset ho),
    fun output ho => h.lt_max output (hperm.subset ho),
    (hperm.map COutput.nValue).sum_eq.trans_lt h.fits, h.target_nonneg, h.target_fits⟩

/-- What the loop has found among the eligible coins it has seen. -/
structure ScanState.Found (nTargetValue : ℤ) (coins : List COutput) (st : ScanState) : Prop where
  vValue : st.vValue = (lowerCoins nTargetValue coins).map COutput.coin
  nTotalLower : st.nTotalLower = valueOfCoins (lowerCoins nTargetValue coins)
  larger : (st.coinLowestLarger = (int64Max, none) ∧
      ∀ output ∈ coins, output.nValue < nTargetValue + cent) ∨
    ∃ output ∈ coins, nTargetValue + cent ≤ output.nValue ∧
      st.coinLowestLarger = (output.nValue, some output.key)

theorem ScanState.found_start : ScanState.Found nTargetValue [] ⟨[], 0, (int64Max, none)⟩ :=
  ⟨rfl, rfl, .inl ⟨rfl, fun _ h => absurd h List.not_mem_nil⟩⟩

/-- A smaller coin is added to the list. -/
theorem ScanState.Found.lower {output : COutput} (h : st.Found nTargetValue coins)
    (hpay : Affordable nTargetValue (coins ++ [output])) (hlower : output.nValue < nTargetValue + cent) :
    ScanState.Found nTargetValue (coins ++ [output]) { st with
      vValue := st.vValue ++ [output.coin]
      nTotalLower := int64 (st.nTotalLower + output.nValue) } := by
  have hfilter : lowerCoins nTargetValue (coins ++ [output]) =
      lowerCoins nTargetValue coins ++ [output] := by
    unfold lowerCoins
    rw [List.filter_append, List.filter_singleton, decide_eq_true hlower]
    rfl
  have hsum : valueOfCoins (lowerCoins nTargetValue (coins ++ [output])) =
      st.nTotalLower + output.nValue := by
    rw [hfilter, valueOfCoins, List.map_append, List.sum_append, h.nTotalLower]
    simp [valueOfCoins]
  have hbounds := hpay.valueOfCoins_le (l := lowerCoins nTargetValue (coins ++ [output]))
    List.filter_sublist
  have hfits := hpay.fits
  refine ⟨by rw [hfilter, List.map_append, ← h.vValue]; rfl, ?_, ?_⟩
  · rw [hsum]
    exact int64_eq_self (by omega) (by omega)
  · rcases h.larger with ⟨hnone, hall⟩ | ⟨larger, hlarger, hle, hsome⟩
    · refine .inl ⟨hnone, fun o ho => ?_⟩
      rcases List.mem_append.mp ho with hold | hnew
      · exact hall o hold
      · rw [List.mem_singleton.mp hnew]
        exact hlower
    · exact .inr ⟨larger, List.mem_append_left _ hlarger, hle, hsome⟩

/-- A larger coin takes the place of the least one so far, or is passed over. -/
theorem ScanState.Found.larger_coin {output : COutput} (h : st.Found nTargetValue coins)
    (hmax : output.nValue < int64Max) (hlarger : ¬output.nValue < nTargetValue + cent) :
    ScanState.Found nTargetValue (coins ++ [output]) (if output.nValue < st.coinLowestLarger.1 then
      { st with coinLowestLarger := (output.nValue, some output.key) } else st) := by
  have hfilter : lowerCoins nTargetValue (coins ++ [output]) = lowerCoins nTargetValue coins := by
    unfold lowerCoins
    rw [List.filter_append, List.filter_singleton, decide_eq_false hlarger]
    exact List.append_nil _
  have hmem : output ∈ coins ++ [output] := List.mem_append_right _ List.mem_cons_self
  split
  · exact ⟨by rw [hfilter]; exact h.vValue, by rw [hfilter]; exact h.nTotalLower,
      .inr ⟨output, hmem, not_lt.mp hlarger, rfl⟩⟩
  · next hnot =>
    refine ⟨by rw [hfilter]; exact h.vValue, by rw [hfilter]; exact h.nTotalLower, ?_⟩
    rcases h.larger with ⟨hnone, -⟩ | ⟨least, hleast, hle, hsome⟩
    · -- the first larger coin is below the largest number
      rw [hnone] at hnot
      exact absurd hmax hnot
    · exact .inr ⟨least, List.mem_append_left _ hleast, hle, hsome⟩

/-- **What the loop over the coins does**: it stops at an eligible coin of just the amount, or sorts
all eligible coins. -/
theorem scanCoins_spec (h : st.Found nTargetValue coins)
    (hpay : Affordable nTargetValue (coins ++ eligibleCoins nConfMine nConfTheirs vCoins)) :
    (∃ output ∈ eligibleCoins nConfMine nConfTheirs vCoins, output.nValue = nTargetValue ∧
        scanCoins nTargetValue nConfMine nConfTheirs vCoins st =
          .error ⟨{output.key}, output.nValue⟩) ∨
      ∃ st', scanCoins nTargetValue nConfMine nConfTheirs vCoins st = .ok st' ∧
        st'.Found nTargetValue (coins ++ eligibleCoins nConfMine nConfTheirs vCoins) := by
  induction vCoins generalizing coins st with
  | nil =>
    refine .inr ⟨st, rfl, ?_⟩
    rw [eligibleCoins, List.filter_nil, List.append_nil]
    exact h
  | cons output vCoins ih =>
    rw [scanCoins]
    by_cases heligible : output.eligible nConfMine nConfTheirs = true
    · have hfilter : eligibleCoins nConfMine nConfTheirs (output :: vCoins) =
          [output] ++ eligibleCoins nConfMine nConfTheirs vCoins := by
        rw [eligibleCoins, List.filter_cons_of_pos heligible]
        rfl
      rw [hfilter, ← List.append_assoc] at hpay ⊢
      have hstep : Affordable nTargetValue (coins ++ [output]) :=
        hpay.sublist (List.sublist_append_left _ _)
      rw [if_pos heligible]
      dsimp only
      rw [hpay.int64_target]
      by_cases hexact : output.nValue = nTargetValue
      · rw [if_pos hexact]
        exact .inl ⟨output, List.mem_append_left _ List.mem_cons_self, hexact, rfl⟩
      rw [if_neg hexact]
      have hrest : ∀ st' : ScanState, st'.Found nTargetValue (coins ++ [output]) → _ :=
        fun st' h' => ih h' hpay
      have hlift : ∀ {o : COutput}, o ∈ eligibleCoins nConfMine nConfTheirs vCoins →
          o ∈ [output] ++ eligibleCoins nConfMine nConfTheirs vCoins :=
        fun ho => List.mem_append_right _ ho
      -- a coin below the limit is kept for the search, of the others the least is kept
      by_cases hlower : output.nValue < nTargetValue + cent
      · rw [if_pos hlower]
        exact (hrest _ (h.lower hstep hlower)).imp_left fun ⟨o, ho, heq⟩ => ⟨o, hlift ho, heq⟩
      · have hmax := hstep.lt_max output (List.mem_append_right _ List.mem_cons_self)
        have hnext := hrest _ (h.larger_coin hmax hlower)
        rw [if_neg hlower]
        split at hnext
        · next hleast =>
          rw [if_pos hleast]
          exact hnext.imp_left fun ⟨o, ho, heq⟩ => ⟨o, hlift ho, heq⟩
        · next hleast =>
          rw [if_neg hleast]
          exact hnext.imp_left fun ⟨o, ho, heq⟩ => ⟨o, hlift ho, heq⟩
    · have hfilter : eligibleCoins nConfMine nConfTheirs (output :: vCoins) =
          eligibleCoins nConfMine nConfTheirs vCoins := by
        rw [eligibleCoins, List.filter_cons_of_neg heligible]
        rfl
      rw [hfilter] at hpay ⊢
      rw [if_neg heligible]
      exact ih h hpay

end Scan

/-! ## The chosen coins -/

section Choice

variable {R : CoinChances} {nTargetValue nConfMine nConfTheirs : ℤ} {vCoins coins : List COutput}

/-- A selection of some of the coins is worth what it says, and enough. What it is worth above the
amount is nothing or at least `CENT`, if the coins allow it. -/
structure Selection.Pays (nTargetValue : ℤ) (coins : List COutput) (selection : Selection) : Prop where
  subset : selection.setCoinsRet ⊆ (coins.map COutput.key).toFinset
  nValueRet : selection.nValueRet =
    valueOfCoins (coins.filter fun output => decide (output.key ∈ selection.setCoinsRet))
  enough : nTargetValue ≤ selection.nValueRet
  noSmallChange : nTargetValue + cent ≤ valueOfCoins coins →
    selection.nValueRet = nTargetValue ∨ nTargetValue + cent ≤ selection.nValueRet

/-- Distinct coins with distinct keys are told apart by their keys. -/
theorem filter_key_perm {chosen : List CoinValue} (hkeys : (coins.map COutput.key).Nodup)
    (hchosen : chosen.Subperm (coins.map COutput.coin)) :
    ((coins.filter fun output => decide (output.key ∈ (chosen.map Prod.snd).toFinset)).map
      COutput.coin).Perm chosen := by
  have hinj : ∀ a ∈ coins, ∀ b ∈ coins, a.key = b.key → a = b :=
    fun a ha b hb heq => List.inj_on_of_nodup_map hkeys ha hb heq
  have hcoins : (coins.map COutput.coin).Nodup := by
    refine List.Nodup.of_map Prod.snd ?_
    rw [List.map_map]
    exact hkeys
  have hnodup : chosen.Nodup := by
    obtain ⟨l, hperm, hsub⟩ := hchosen
    exact hperm.nodup_iff.mp (hcoins.sublist hsub)
  refine (List.perm_ext_iff_of_nodup (hcoins.sublist (List.filter_sublist.map _))
    hnodup).mpr fun coin => ?_
  constructor
  · intro hcoin
    obtain ⟨output, houtput, rfl⟩ := List.mem_map.mp hcoin
    obtain ⟨hmem, hkey⟩ := List.mem_filter.mp houtput
    obtain ⟨other, hother, heq⟩ := List.mem_map.mp (List.mem_toFinset.mp (of_decide_eq_true hkey))
    obtain ⟨output', hmem', rfl⟩ := List.mem_map.mp (hchosen.subset hother)
    rw [← hinj output' hmem' output hmem heq]
    exact hother
  · intro hcoin
    obtain ⟨output, hmem, rfl⟩ := List.mem_map.mp (hchosen.subset hcoin)
    refine List.mem_map_of_mem (List.mem_filter.mpr ⟨hmem, decide_eq_true ?_⟩)
    exact List.mem_toFinset.mpr (List.mem_map.mpr ⟨_, hcoin, rfl⟩)

/-- The amounts of coins that are inserted one after the other. -/
theorem nValueRet_ofCoins {chosen : List CoinValue} (hnonneg : ∀ n ∈ chosen.map Prod.fst, 0 ≤ n)
    (hfits : (chosen.map Prod.fst).sum < 2 ^ 63) :
    (Selection.ofCoins chosen).nValueRet = (chosen.map Prod.fst).sum := by
  have hgeneral : ∀ (l : List CoinValue) (start : ℤ), 0 ≤ start → (∀ n ∈ l.map Prod.fst, 0 ≤ n) →
      start + (l.map Prod.fst).sum < 2 ^ 63 →
      l.foldl (fun nValueRet coin => int64 (nValueRet + coin.1)) start =
        start + (l.map Prod.fst).sum := by
    intro l
    induction l with
    | nil => exact fun start _ _ _ => (add_zero start).symm
    | cons coin l ih =>
      intro start hstart hl hsum
      rw [List.map_cons] at hl hsum ⊢
      obtain ⟨hcoin, hrest⟩ := List.forall_mem_cons.mp hl
      have htail := List.sum_nonneg hrest
      rw [List.sum_cons] at hsum ⊢
      rw [List.foldl_cons, int64_eq_self (by omega) (by omega),
        ih _ (by omega) hrest (by omega), add_assoc]
  rw [Selection.ofCoins]
  dsimp only
  rw [hgeneral chosen 0 le_rfl hnonneg (by omega), zero_add]

/-- **Coins that are worth enough make a selection that pays.** -/
theorem pays_ofCoins (hpay : Affordable nTargetValue coins) (hkeys : (coins.map COutput.key).Nodup)
    {chosen : List CoinValue} (hchosen : chosen.Subperm (coins.map COutput.coin))
    (henough : nTargetValue ≤ (chosen.map Prod.fst).sum)
    (hchange : nTargetValue + cent ≤ valueOfCoins coins →
      (chosen.map Prod.fst).sum = nTargetValue ∨ nTargetValue + cent ≤ (chosen.map Prod.fst).sum) :
    (Selection.ofCoins chosen).Pays nTargetValue coins := by
  have hperm := filter_key_perm hkeys hchosen
  have hvalue : valueOfCoins (coins.filter fun output =>
      decide (output.key ∈ (chosen.map Prod.snd).toFinset)) = (chosen.map Prod.fst).sum := by
    rw [← (hperm.map Prod.fst).sum_eq, List.map_map]
    rfl
  have hbounds := hpay.valueOfCoins_le (l := coins.filter fun output =>
    decide (output.key ∈ (chosen.map Prod.snd).toFinset)) List.filter_sublist
  have hnonneg : ∀ n ∈ chosen.map Prod.fst, 0 ≤ n := by
    intro n hn
    obtain ⟨coin, hcoin, rfl⟩ := List.mem_map.mp hn
    obtain ⟨output, houtput, rfl⟩ := List.mem_map.mp (hchosen.subset hcoin)
    exact hpay.nonneg output houtput
  have hret := nValueRet_ofCoins hnonneg (by have := hpay.fits; omega)
  refine ⟨?_, by rw [hret, ← hvalue]; rfl, by rw [hret]; exact henough, by rw [hret]; exact hchange⟩
  intro key hkey
  obtain ⟨coin, hcoin, rfl⟩ := List.mem_map.mp (List.mem_toFinset.mp hkey)
  obtain ⟨output, houtput, rfl⟩ := List.mem_map.mp (hchosen.subset hcoin)
  exact List.mem_toFinset.mpr (List.mem_map_of_mem houtput)

/-- A single coin that is worth the amount, or the amount and `CENT`, makes a selection that pays. -/
theorem pays_singleton (hpay : Affordable nTargetValue coins) (hkeys : (coins.map COutput.key).Nodup)
    {output : COutput} (houtput : output ∈ coins)
    (hvalue : output.nValue = nTargetValue ∨ nTargetValue + cent ≤ output.nValue) :
    Selection.Pays nTargetValue coins ⟨{output.key}, output.nValue⟩ := by
  have hsingle : Selection.ofCoins [output.coin] = ⟨{output.key}, output.nValue⟩ := by
    have hnonneg' := hpay.nonneg output houtput
    have hmax := hpay.lt_max output houtput
    unfold int64Max at hmax
    have hnonneg : ∀ n ∈ [output.coin].map Prod.fst, 0 ≤ n := by
      simpa [COutput.coin] using hnonneg'
    have hret := nValueRet_ofCoins hnonneg (by simp [COutput.coin]; omega)
    rw [Selection.ofCoins] at hret ⊢
    rw [Selection.mk.injEq]
    exact ⟨rfl, hret.trans (by simp [COutput.coin])⟩
  have hcent : 0 ≤ cent := by decide
  rw [← hsingle]
  refine pays_ofCoins hpay hkeys ?_ ?_ fun _ => ?_
  · exact (List.singleton_sublist.mpr (List.mem_map_of_mem houtput)).subperm
  · simp only [List.map_cons, List.map_nil, List.sum_cons, List.sum_nil, COutput.coin]
    omega
  · simpa [COutput.coin] using hvalue

/-- The search for a subset finds coins that are worth enough, and leaves no small change if all the
lower coins do not. -/
theorem searchSubset_spec {vValue : List ℤ} (hsearch : Searchable vValue)
    (hreaches : nTargetValue ≤ vValue.sum) (hcent : int64 (nTargetValue + cent) = nTargetValue + cent) :
    (searchSubset R nTargetValue vValue.sum vValue).2 =
        (picked (searchSubset R nTargetValue vValue.sum vValue).1 vValue).sum ∧
      nTargetValue ≤ (searchSubset R nTargetValue vValue.sum vValue).2 ∧
      (nTargetValue + cent ≤ vValue.sum →
        (searchSubset R nTargetValue vValue.sum vValue).2 = nTargetValue ∨
          nTargetValue + cent ≤ (searchSubset R nTargetValue vValue.sum vValue).2) := by
  have hpos : 0 ≤ cent := by decide
  have hfirst := approximateBestSubset_spec hsearch hreaches R.bits 1000
  unfold searchSubset
  dsimp only
  rw [hcent]
  split_ifs with hagain
  · have hsecond := approximateBestSubset_spec hsearch hagain.2 R.bitsCent 1000
    exact ⟨hsecond.1, by omega, fun _ => .inr hsecond.2⟩
  · refine ⟨hfirst.1, hfirst.2, fun hchange => .inl ?_⟩
    by_contra hne
    exact hagain ⟨hne, hchange⟩

theorem Selection.Pays.perm {selection : Selection} {coins' : List COutput}
    (h : selection.Pays nTargetValue coins) (hperm : coins.Perm coins') :
    selection.Pays nTargetValue coins' := by
  have hvalue : ∀ {l l' : List COutput}, l.Perm l' → valueOfCoins l = valueOfCoins l' :=
    fun hl => (hl.map COutput.nValue).sum_eq
  refine ⟨fun key hkey => ?_, h.nValueRet.trans (hvalue (hperm.filter _)), h.enough, ?_⟩
  · have hmem := List.mem_toFinset.mp (h.subset hkey)
    exact List.mem_toFinset.mpr ((hperm.map COutput.key).mem_iff.mp hmem)
  · rw [← hvalue hperm]
    exact h.noSmallChange

/-- The result of `SelectCoinsMinConf` after the loop over the coins. -/
theorem selectCoinsMinConf_of_found (hkeys : (coins.map COutput.key).Nodup)
    (hpay : Affordable nTargetValue coins) {st : ScanState} (hfound : st.Found nTargetValue coins)
    (hscan : scanCoins nTargetValue nConfMine nConfTheirs (R.shuffle vCoins)
      ⟨[], 0, (int64Max, none)⟩ = .ok st) :
    ((selectCoinsMinConf R nTargetValue nConfMine nConfTheirs vCoins).isSome = true ↔
        nTargetValue ≤ valueOfCoins coins) ∧
      ∀ selection, selectCoinsMinConf R nTargetValue nConfMine nConfTheirs vCoins =
        some selection → selection.Pays nTargetValue coins := by
  have hcent : 0 ≤ cent := by decide
  have hlowerSub : (lowerCoins nTargetValue coins).Sublist coins := List.filter_sublist
  have hlowerBounds := hpay.valueOfCoins_le hlowerSub
  have hlowerSum : (st.vValue.map Prod.fst).sum = st.nTotalLower := by
    rw [hfound.vValue, hfound.nTotalLower, List.map_map]
    rfl
  have hlowerSubperm : st.vValue.Subperm (coins.map COutput.coin) := by
    rw [hfound.vValue]
    exact (hlowerSub.map COutput.coin).subperm
  -- without a larger coin, the lower coins are all the coins
  have hall : (∀ output ∈ coins, output.nValue < nTargetValue + cent) →
      st.nTotalLower = valueOfCoins coins := by
    intro hlower
    rw [hfound.nTotalLower, lowerCoins, List.filter_eq_self.mpr fun o ho =>
      decide_eq_true (hlower o ho)]
  have hlarge : ∀ output ∈ coins, nTargetValue + cent ≤ output.nValue →
      nTargetValue ≤ valueOfCoins coins := by
    intro output houtput hle
    have hone := hpay.valueOfCoins_le (List.singleton_sublist.mpr houtput)
    simp only [valueOfCoins, List.map_cons, List.map_nil, List.sum_cons, List.sum_nil] at hone ⊢
    omega
  rw [selectCoinsMinConf, hscan]
  dsimp only
  by_cases hexact : st.nTotalLower = nTargetValue
  · rw [if_pos hexact]
    refine ⟨iff_of_true rfl (by rw [← hexact, hfound.nTotalLower]; exact hlowerBounds.2),
      fun selection hsel => ?_⟩
    rw [← Option.some.inj hsel]
    exact pays_ofCoins hpay hkeys hlowerSubperm (by rw [hlowerSum, hexact])
      fun _ => .inl (by rw [hlowerSum, hexact])
  rw [if_neg hexact]
  by_cases hshort : st.nTotalLower < nTargetValue
  · rw [if_pos hshort]
    rcases hfound.larger with ⟨hnone, hlower⟩ | ⟨output, houtput, hle, hsome⟩
    · rw [hnone]
      have hsum := hall hlower
      refine ⟨iff_of_false Bool.false_ne_true (by omega), fun selection hsel => ?_⟩
      cases hsel
    · rw [hsome]
      refine ⟨iff_of_true rfl (hlarge output houtput hle), fun selection hsel => ?_⟩
      rw [← Option.some.inj hsel]
      exact pays_singleton hpay hkeys houtput (.inr hle)
  rw [if_neg hshort]
  -- the lower coins are worth more than the amount
  have hreaches : nTargetValue ≤ valueOfCoins coins := by
    have := hfound.nTotalLower
    omega
  have hsorted := R.sort_perm st.vValue
  have hsortedSum : ((R.sort st.vValue).map Prod.fst).sum = st.nTotalLower := by
    rw [(hsorted.map Prod.fst).sum_eq, hlowerSum]
  have hsearch : Searchable ((R.sort st.vValue).map Prod.fst) := by
    refine ⟨fun n hn => ?_, by rw [hsortedSum]; have := hpay.fits; have := hfound.nTotalLower; omega⟩
    obtain ⟨coin, hcoin, rfl⟩ := List.mem_map.mp hn
    obtain ⟨output, houtput, rfl⟩ := List.mem_map.mp (hlowerSubperm.subset (hsorted.subset hcoin))
    exact hpay.nonneg output houtput
  have hspec := searchSubset_spec (R := R) hsearch (by rw [hsortedSum]; omega) hpay.int64_target
  rw [hsortedSum] at hspec
  generalize searchSubset R nTargetValue st.nTotalLower ((R.sort st.vValue).map Prod.fst) = best at *
  obtain ⟨vfBest, nBest⟩ := best
  obtain ⟨hbest, henough, hchange⟩ := hspec
  dsimp only at hbest henough hchange ⊢
  have hpicked : ((picked vfBest (R.sort st.vValue)).map Prod.fst).sum = nBest := by
    rw [map_picked, hbest]
  have hpickedSubperm : (picked vfBest (R.sort st.vValue)).Subperm (coins.map COutput.coin) :=
    (picked_sublist _ _).subperm.trans (hsorted.subperm.trans hlowerSubperm)
  rcases hfound.larger with ⟨hnone, hlower⟩ | ⟨output, houtput, hle, hsome⟩
  · rw [hnone]
    refine ⟨iff_of_true rfl hreaches, fun selection hsel => ?_⟩
    rw [← Option.some.inj hsel]
    refine pays_ofCoins hpay hkeys hpickedSubperm (by rw [hpicked]; exact henough) ?_
    rw [hpicked, ← hall hlower]
    exact hchange
  · rw [hsome]
    dsimp only
    rw [hpay.int64_target]
    split_ifs with hbigger
    · refine ⟨iff_of_true rfl hreaches, fun selection hsel => ?_⟩
      rw [← Option.some.inj hsel]
      exact pays_singleton hpay hkeys houtput (.inr hle)
    · refine ⟨iff_of_true rfl hreaches, fun selection hsel => ?_⟩
      rw [← Option.some.inj hsel]
      refine pays_ofCoins hpay hkeys hpickedSubperm (by rw [hpicked]; exact henough) fun _ => ?_
      rw [hpicked]
      omega

/-- **What `SelectCoinsMinConf` returns** for amounts that are not negative. -/
theorem selectCoinsMinConf_spec (R : CoinChances) (nConfMine nConfTheirs : ℤ)
    (hkeys : (vCoins.map COutput.key).Nodup) (hpay : Affordable nTargetValue vCoins) :
    ((selectCoinsMinConf R nTargetValue nConfMine nConfTheirs vCoins).isSome = true ↔
        nTargetValue ≤ valueOfCoins (eligibleCoins nConfMine nConfTheirs vCoins)) ∧
      ∀ selection, selectCoinsMinConf R nTargetValue nConfMine nConfTheirs vCoins =
        some selection →
          selection.Pays nTargetValue (eligibleCoins nConfMine nConfTheirs vCoins) := by
  have hperm : (eligibleCoins nConfMine nConfTheirs (R.shuffle vCoins)).Perm
      (eligibleCoins nConfMine nConfTheirs vCoins) := (R.shuffle_perm vCoins).filter _
  have hsub : (eligibleCoins nConfMine nConfTheirs vCoins).Sublist vCoins := List.filter_sublist
  have hkeys' : ((eligibleCoins nConfMine nConfTheirs (R.shuffle vCoins)).map COutput.key).Nodup :=
    (hperm.map COutput.key).nodup_iff.mpr (hkeys.sublist (hsub.map COutput.key))
  have hpay' : Affordable nTargetValue (eligibleCoins nConfMine nConfTheirs (R.shuffle vCoins)) :=
    (hpay.sublist hsub).perm hperm
  have hvalue : valueOfCoins (eligibleCoins nConfMine nConfTheirs (R.shuffle vCoins)) =
      valueOfCoins (eligibleCoins nConfMine nConfTheirs vCoins) := (hperm.map COutput.nValue).sum_eq
  rw [← hvalue]
  have hstart : ScanState.Found nTargetValue [] ⟨[], 0, (int64Max, none)⟩ := ScanState.found_start
  rcases scanCoins_spec hstart hpay' with
    ⟨output, houtput, hexact, hscan⟩ | ⟨st, hscan, hfound⟩
  · rw [selectCoinsMinConf, hscan]
    have hpays := pays_singleton hpay' hkeys' houtput (.inl hexact)
    have hone := hpay'.valueOfCoins_le (List.singleton_sublist.mpr houtput)
    refine ⟨iff_of_true rfl ?_, fun selection hsel => ?_⟩
    · simp only [valueOfCoins, List.map_cons, List.map_nil, List.sum_cons, List.sum_nil] at hone ⊢
      omega
    · rw [← Option.some.inj hsel]
      exact hpays.perm hperm
  · obtain ⟨hsome, hpays⟩ := selectCoinsMinConf_of_found hkeys' hpay' hfound hscan
    exact ⟨hsome, fun selection hsel => (hpays selection hsel).perm hperm⟩

/-- **`SelectCoinsMinConf` pays an amount exactly when the eligible coins can**, whatever chance
decides, and what it chooses is worth what it says. -/
theorem selectCoinsMinConf_pays (R : CoinChances) (nConfMine nConfTheirs : ℤ)
    (hkeys : (vCoins.map COutput.key).Nodup) (hpay : Payable nTargetValue vCoins) :
    ((selectCoinsMinConf R nTargetValue nConfMine nConfTheirs vCoins).isSome = true ↔
        nTargetValue ≤ valueOfCoins (eligibleCoins nConfMine nConfTheirs vCoins)) ∧
      ∀ selection, selectCoinsMinConf R nTargetValue nConfMine nConfTheirs vCoins =
        some selection →
          selection.Pays nTargetValue (eligibleCoins nConfMine nConfTheirs vCoins) :=
  selectCoinsMinConf_spec R nConfMine nConfTheirs hkeys hpay.affordable

/-! ## Worked examples -/

/-- Chance that changes no order, and never tries a coin first. -/
def exampleChances : CoinChances where
  shuffle vCoins := vCoins
  shuffle_perm _ := .refl _
  sort vValue := vValue.mergeSort fun a b => b.1 ≤ a.1
  sort_perm vValue := List.mergeSort_perm vValue _
  sort_sorted vValue := by
    have hsorted : (vValue.mergeSort fun a b => b.1 ≤ a.1).Pairwise
        fun a b => decide (b.1 ≤ a.1) = true := by
      apply List.pairwise_mergeSort
      · intro a b c hab hbc
        exact decide_eq_true ((of_decide_eq_true hbc).trans (of_decide_eq_true hab))
      · intro a b
        rcases le_total b.1 a.1 with h | h <;> simp [h]
    exact hsorted.imp of_decide_eq_true
  bits _ _ := false
  bitsCent _ _ := false

/-- Outputs of three transactions. -/
def exampleCoins : List COutput :=
  [⟨1, 0, 6, 2 * cent, false⟩, ⟨2, 1, 6, 3 * cent, true⟩, ⟨3, 0, 6, 50 * cent, false⟩]

theorem payable_exampleCoins : Payable (5 * cent) exampleCoins :=
  ⟨by decide, by decide, by decide, by decide, by decide⟩

/-- The two small outputs are worth just the amount. -/
theorem selectCoinsMinConf_pays_exampleCoins :
    ((selectCoinsMinConf exampleChances (5 * cent) 1 6 exampleCoins).isSome = true ↔
        5 * cent ≤ valueOfCoins (eligibleCoins 1 6 exampleCoins)) ∧
      ∀ selection, selectCoinsMinConf exampleChances (5 * cent) 1 6 exampleCoins =
        some selection → selection.Pays (5 * cent) (eligibleCoins 1 6 exampleCoins) :=
  selectCoinsMinConf_pays exampleChances 1 6 (by decide) payable_exampleCoins

/-- An output of the largest amount of all, which is not less than the start of
`coinLowestLarger`. -/
def largestCoin : COutput := ⟨1, 0, 6, int64Max, false⟩

/-- The search passes over the output of the largest amount, and adding `CENT` to the largest
amount overflows. -/
theorem selectCoinsMinConf_largest :
    selectCoinsMinConf exampleChances 1 1 6 [largestCoin] = none ∧
      selectCoinsMinConf exampleChances int64Max 1 6 [⟨1, 0, 6, 5, false⟩] = some ⟨{(1, 0)}, 5⟩ := by
  decide

/-- Positive amounts whose sum fits are not enough for the choice to be right. -/
theorem not_forall_selectCoinsMinConf :
    ¬ ∀ (R : CoinChances) (nTargetValue nConfMine nConfTheirs : ℤ) (vCoins : List COutput),
      (vCoins.map COutput.key).Nodup → (∀ output ∈ vCoins, 0 < output.nValue) →
      valueOfCoins vCoins < 2 ^ 63 → 0 < nTargetValue →
      ((selectCoinsMinConf R nTargetValue nConfMine nConfTheirs vCoins).isSome = true ↔
          nTargetValue ≤ valueOfCoins (eligibleCoins nConfMine nConfTheirs vCoins)) ∧
        ∀ selection, selectCoinsMinConf R nTargetValue nConfMine nConfTheirs vCoins =
          some selection →
            selection.Pays nTargetValue (eligibleCoins nConfMine nConfTheirs vCoins) := by
  intro h
  have hlargest := (h exampleChances 1 1 6 [largestCoin] (by decide) (by decide) (by decide)
    (by decide)).1
  have hnone := selectCoinsMinConf_largest.1
  rw [hnone] at hlargest
  exact Bool.false_ne_true (hlargest.mpr (by decide))

end Choice

end FoxCoin
