import FoxCoin.Checkpoints
import FoxCoin.TimeData
import FoxCoin.Lib.Machine
import FoxCoin.Lib.Recent

/-! # Block counts of the peers

Every peer announces the height of its chain in its `version` message, and a median filter keeps
the last announcements. `GetNumBlocksOfPeers` uses their median, an `int` like them: with an even
number of values it is half of a sum, which may not fit. -/

namespace FoxCoin

open Checked Machine Recent

/-! ## The code -/

theorem CMedianFilter.upper_lt (f : CMedianFilter ℤ) : f.vSorted.length / 2 < f.vSorted.length :=
  Nat.div_lt_self f.length_pos Nat.one_lt_two

theorem CMedianFilter.lower_lt (f : CMedianFilter ℤ) :
    f.vSorted.length / 2 - 1 < f.vSorted.length := (Nat.sub_le _ _).trans_lt f.upper_lt

/-- `median` of `int` values. -/
def CMedianFilter.medianInt (f : CMedianFilter ℤ) : Machine.Arith ℤ :=
  let size := f.vSorted.length
  let upper := f.vSorted.get ⟨size / 2, f.upper_lt⟩
  if size % 2 = 1 then pure upper
  else do
    let sum ← toInt32 (f.vSorted.get ⟨size / 2 - 1, f.lower_lt⟩ + upper)
    return sum.tdiv 2

/-- `cPeerBlockCounts(5, 0)` after the heights of some `version` messages. -/
def cPeerBlockCounts (heights : List Int32) : CMedianFilter ℤ :=
  (heights.map Int32.toInt).foldl CMedianFilter.input (.new 5 0)

/-- `GetNumBlocksOfPeers`. -/
def getNumBlocksOfPeers (P : Params) (f : CMedianFilter ℤ) : Machine.Arith ℤ := do
  let nMedian ← f.medianInt
  return max nMedian (Checkpoints.getTotalBlocksEstimate P)

/-! ## The values of a filter -/

variable {T : Type} [LinearOrder T]

/-- **A filter keeps the last values**, the first one being that it starts with. -/
theorem CMedianFilter.vValues_foldl_input {f : CMedianFilter T} (h : f.vValues.length ≤ f.nSize)
    (values : List T) :
    (values.foldl CMedianFilter.input f).vValues = (f.vValues ++ values).rtake f.nSize := by
  induction values generalizing f with
  | nil => rw [List.foldl_nil, List.append_nil, rtake_eq_self h]
  | cons v values ih =>
    have hinput := f.vValues_input h v
    have hlen : (f.input v).vValues.length ≤ (f.input v).nSize := by
      rw [hinput, length_rtake]
      exact min_le_left _ _
    rw [List.foldl_cons, ih hlen, hinput]
    show (_ ++ values).rtake f.nSize = _
    rw [← foldl_rtake_append, rtake_rtake, min_self, foldl_rtake_append, List.append_assoc,
      List.singleton_append]

/-- A value lies between the smallest and the largest of a list. -/
def Between (m : ℤ) (l : List ℤ) : Prop := (∃ a ∈ l, a ≤ m) ∧ ∃ b ∈ l, m ≤ b

/-- Half of a sum, rounded towards zero, is between the two numbers. -/
theorem tdiv_two_bounds {a b : ℤ} (h : a ≤ b) : a ≤ (a + b).tdiv 2 ∧ (a + b).tdiv 2 ≤ b := by
  rw [Int.tdiv_eq_ediv]
  split_ifs
  · omega
  · rw [Int.sign_eq_one_of_pos two_pos]
    omega

/-- **The median is between the values** whenever it can be computed. -/
theorem CMedianFilter.between_of_medianInt {f : CMedianFilter ℤ} {m : ℤ} (h : f.medianInt = .ok m) :
    Between m f.vValues := by
  have hmem : ∀ i, f.vSorted.get i ∈ f.vValues := fun i => f.perm.mem_iff.mp (List.get_mem _ _)
  rw [medianInt] at h
  split_ifs at h with hodd
  · obtain rfl := pure_eq_ok.mp h
    exact ⟨⟨_, hmem _, le_rfl⟩, _, hmem _, le_rfl⟩
  · obtain ⟨sum, hsum, hm⟩ := bind_eq_ok.mp h
    obtain ⟨-, rfl⟩ := toInt32_eq_ok.mp hsum
    obtain rfl := pure_eq_ok.mp hm
    have hle := f.sorted.rel_get_of_le (a := ⟨f.vSorted.length / 2 - 1, f.lower_lt⟩)
      (b := ⟨f.vSorted.length / 2, f.upper_lt⟩)
      (Fin.mk_le_mk.mpr (Nat.sub_le _ _))
    exact ⟨⟨_, hmem _, (tdiv_two_bounds hle).1⟩, _, hmem _, (tdiv_two_bounds hle).2⟩

/-- **The median can be computed** exactly when the number of values is odd or the sum of the two in
the middle fits. -/
theorem CMedianFilter.exists_medianInt_iff {f : CMedianFilter ℤ} :
    (∃ m, f.medianInt = .ok m) ↔
      (f.vSorted.length % 2 = 0 → fitsInt32 (f.vSorted.getD (f.vSorted.length / 2 - 1) 0 +
        f.vSorted.getD (f.vSorted.length / 2) 0) = true) := by
  have hlt := f.upper_lt
  rw [medianInt, List.getD_eq_getElem _ _ hlt, List.getD_eq_getElem _ _ (by omega)]
  split_ifs with hodd
  · exact iff_of_true ⟨_, rfl⟩ fun heven => by omega
  · have heven : f.vSorted.length % 2 = 0 := by omega
    constructor
    · rintro ⟨m, hm⟩ -
      obtain ⟨sum, hsum, -⟩ := bind_eq_ok.mp hm
      exact (toInt32_eq_ok.mp hsum).1
    · intro hfits
      exact ⟨_, bind_eq_ok.mpr ⟨_, toInt32_eq_ok.mpr ⟨hfits heven, rfl⟩, rfl⟩⟩

/-- The values in order, which is what the filter has sorted. -/
theorem CMedianFilter.vSorted_eq (f : CMedianFilter ℤ) :
    f.vSorted = f.vValues.insertionSort (· ≤ ·) :=
  (f.perm.trans (List.perm_insertionSort _ _).symm).eq_of_pairwise' f.sorted
    (List.pairwise_insertionSort _ _)

/-! ## The median of the peers -/

/-- What the filter promises: it holds the last five of the zero and the heights, and their median
is computed and between them. -/
structure MedianOfPeers (heights : List Int32) : Prop where
  values : (cPeerBlockCounts heights).vValues = (0 :: heights.map Int32.toInt).rtake 5
  median : ∃ m, (cPeerBlockCounts heights).medianInt = .ok m ∧
    Between m (cPeerBlockCounts heights).vValues ∧
    ∀ P, getNumBlocksOfPeers P (cPeerBlockCounts heights) =
      .ok (max m (Checkpoints.getTotalBlocksEstimate P))

/-- The sum of the second and the third of the zero and three heights, in increasing order. -/
def middleSum (heights : List Int32) : ℤ :=
  let vSorted := (0 :: heights.map Int32.toInt).insertionSort (· ≤ ·)
  vSorted.getD 1 0 + vSorted.getD 2 0

theorem vValues_cPeerBlockCounts (heights : List Int32) :
    (cPeerBlockCounts heights).vValues = (0 :: heights.map Int32.toInt).rtake 5 :=
  CMedianFilter.vValues_foldl_input (f := .new 5 0) (by decide) _

/-- The sum of zero and one height fits. -/
theorem fitsInt32_sum_single (height : Int32) :
    let vSorted := [0, height.toInt].insertionSort (· ≤ ·)
    fitsInt32 (vSorted.getD 0 0 + vSorted.getD 1 0) = true := by
  have hsum : ∀ h : ℤ, ([0, h].insertionSort (· ≤ ·)).getD 0 0 +
      ([0, h].insertionSort (· ≤ ·)).getD 1 0 = h := by
    intro h
    by_cases hle : 0 ≤ h <;> simp [List.insertionSort, hle]
  show fitsInt32 _ = true
  rw [hsum, fitsInt32_iff]
  exact ⟨height.le_toInt, height.toInt_lt⟩

/-- **The median of the peers** is what it should be unless exactly three heights have been
announced and the middle sum of these and the zero does not fit in an `int`. -/
theorem medianOfPeers_iff (heights : List Int32) :
    MedianOfPeers heights ↔ (heights.length = 3 → fitsInt32 (middleSum heights) = true) := by
  have hvalues := vValues_cPeerBlockCounts heights
  have hmedian : MedianOfPeers heights ↔
      ∃ m, (cPeerBlockCounts heights).medianInt = .ok m := by
    constructor
    · rintro ⟨-, m, hm, -⟩
      exact ⟨m, hm⟩
    · rintro ⟨m, hm⟩
      refine ⟨hvalues, m, hm, CMedianFilter.between_of_medianInt hm, fun P => ?_⟩
      rw [getNumBlocksOfPeers, hm]
      rfl
  rw [hmedian, CMedianFilter.exists_medianInt_iff, CMedianFilter.vSorted_eq, hvalues,
    List.length_insertionSort, length_rtake, List.length_cons, List.length_map]
  have hall : heights.length ≤ 4 → ((0 : ℤ) :: heights.map Int32.toInt).rtake 5 =
      0 :: heights.map Int32.toInt := fun hle => rtake_eq_self (by simpa using Nat.lt_succ_of_le hle)
  by_cases hone : heights.length = 1
  · rw [hall (by omega), hone]
    obtain ⟨height, rfl⟩ := List.length_eq_one_iff.mp hone
    exact iff_of_true (fun _ => fitsInt32_sum_single height) fun hthree => by omega
  by_cases hthree : heights.length = 3
  · rw [hall (by omega), hthree]
    exact ⟨fun h _ => h rfl, fun h _ => h rfl⟩
  · -- the number of values is one, three or five
    exact iff_of_true (fun heven => by omega) fun h => absurd h hthree

/-- Three peers that announce the largest `int`. -/
theorem not_medianOfPeers_largest :
    ¬MedianOfPeers [2147483647, 2147483647, 2147483647] := by
  rintro ⟨-, m, hm, -⟩
  have hoverflow : (cPeerBlockCounts [2147483647, 2147483647, 2147483647]).medianInt =
      .error .overflow := by decide +kernel
  rw [hoverflow] at hm
  cases hm

end FoxCoin
