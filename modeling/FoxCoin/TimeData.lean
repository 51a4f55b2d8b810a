import FoxCoin.AddrMan
import FoxCoin.CreateTransaction
import FoxCoin.Lib.Median
import FoxCoin.Lib.Recent
import FoxCoin.Lib.Runs

/-! # Time data

The clock that peers correct: `AddTimeData` feeds what each peer's `version` message says about
the time to a median filter, and every other call makes the median the offset of the adjusted time,
when it is small. Times are any `int64`, so whether an operation overflows is kept beside its
result. -/

namespace FoxCoin

open Median Recent Runs

/-! ## Arithmetic -/

/-- Computations on `int64`, which remember whether an operation has overflowed. -/
abbrev Arith := StateM Bool

/-- An operation whose exact result is `n`. -/
def wrap (n : ℤ) : Arith ℤ := fun overflow => (int64 n, overflow || decide (int64 n ≠ n))

/-- `abs64`. -/
def abs64 (n : ℤ) : Arith ℤ := if 0 ≤ n then pure n else wrap (-n)

/-! ## The code -/

/-- `CMedianFilter`: the last `nSize` values, as they came and sorted. -/
structure CMedianFilter (T : Type) [LinearOrder T] where
  vValues : List T
  vSorted : List T
  nSize : ℕ
  perm : vSorted.Perm vValues
  sorted : vSorted.Pairwise (· ≤ ·)
  ne_nil : vValues ≠ []

variable {T : Type} [LinearOrder T]

/-- The constructor. -/
def CMedianFilter.new (size : ℕ) (initial_value : T) : CMedianFilter T where
  vValues := [initial_value]
  vSorted := [initial_value]
  nSize := size
  perm := .refl _
  sorted := List.pairwise_singleton _ _
  ne_nil := by simp

/-- `input`. -/
def CMedianFilter.input (f : CMedianFilter T) (value : T) : CMedianFilter T :=
  let vValues := (if f.vValues.length = f.nSize then f.vValues.tail else f.vValues) ++ [value]
  { vValues, vSorted := vValues.insertionSort (· ≤ ·), nSize := f.nSize
    perm := List.perm_insertionSort _ _
    sorted := List.pairwise_insertionSort _ _
    ne_nil := by simp [vValues] }

/-- `size`. -/
def CMedianFilter.size (f : CMedianFilter T) : ℕ := f.vValues.length

theorem CMedianFilter.length_pos (f : CMedianFilter T) : 0 < f.vSorted.length := by
  rw [f.perm.length_eq]
  exact List.length_pos_iff.mpr f.ne_nil

/-- `median` of `int64` values. -/
def CMedianFilter.median (f : CMedianFilter ℤ) : Arith ℤ :=
  let size := f.vSorted.length
  have hpos := f.length_pos
  let upper := f.vSorted.get ⟨size / 2, Nat.div_lt_self hpos (by decide)⟩
  if size % 2 = 1 then pure upper
  else do
    let sum ← wrap (f.vSorted.get ⟨size / 2 - 1, by omega⟩ + upper)
    return sum.tdiv 2

/-- What `AddTimeData` keeps: `nTimeOffset`, `vTimeOffsets`, `setKnown` and `fDone`. -/
structure TimeData where
  nTimeOffset : ℤ
  vTimeOffsets : CMedianFilter ℤ
  setKnown : Finset CNetAddr
  fDone : Bool

/-- The loop that looks for a peer whose time is close, but not the same. -/
def findMatch (vSorted : List ℤ) : Arith Bool :=
  vSorted.foldlM (fun fMatch nOffset => do
    if nOffset = 0 then return fMatch
    let nAbs ← abs64 nOffset
    return fMatch || nAbs < 5 * 60) false

/-- What `AddTimeData` does with the median: only a small one becomes the offset. -/
def setTimeOffset (st : TimeData) (nMedian : ℤ) : Arith TimeData := do
  let nAbs ← abs64 nMedian
  if nAbs < 15 * 60 then return { st with nTimeOffset := nMedian }
  let st := { st with nTimeOffset := 0 }
  if st.fDone then return st
  let fMatch ← findMatch st.vTimeOffsets.vSorted
  return { st with fDone := !fMatch }

/-- `AddTimeData`, at the time `now` that `GetTime` returns. -/
def addTimeData (st : TimeData) (ip : CNetAddr) (nTime now : ℤ) : Arith TimeData := do
  let nOffsetSample ← wrap (nTime - now)
  if ip ∈ st.setKnown then return st
  let vTimeOffsets := st.vTimeOffsets.input nOffsetSample
  let st := { st with setKnown := insert ip st.setKnown, vTimeOffsets }
  if 5 ≤ vTimeOffsets.size ∧ vTimeOffsets.size % 2 = 1 then
    let nMedian ← vTimeOffsets.median
    setTimeOffset st nMedian
  else return st

/-- `GetAdjustedTime`. -/
def getAdjustedTime (st : TimeData) (now : ℤ) : Arith ℤ := wrap (now + st.nTimeOffset)

/-! ## What the operations compute -/

/-- Whether an `int64` can hold a number. -/
def FitsInt64 (n : ℤ) : Prop := -2 ^ 63 ≤ n ∧ n < 2 ^ 63

theorem int64_eq_iff {n : ℤ} : int64 n = n ↔ FitsInt64 n :=
  ⟨fun h => h ▸ int64_range n, fun h => int64_eq_self h.1 h.2⟩

/-- `abs64` overflows for one number only. -/
theorem abs64_apply {n : ℤ} (h : FitsInt64 n) (b : Bool) :
    abs64 n b = (int64 |n|, b || decide (n = -2 ^ 63)) := by
  obtain ⟨hlow, hhigh⟩ := h
  unfold abs64
  split_ifs with hsign
  · have hne : n ≠ -2 ^ 63 := by omega
    rw [abs_of_nonneg hsign, int64_eq_self hlow hhigh, decide_eq_false hne, Bool.or_false]
    rfl
  · rw [abs_of_neg (by omega)]
    refine Prod.ext rfl ?_
    have hiff : int64 (-n) ≠ -n ↔ n = -2 ^ 63 := by
      rw [ne_eq, int64_eq_iff, FitsInt64]
      omega
    show (b || decide (int64 (-n) ≠ -n)) = _
    rw [decide_eq_decide.mpr hiff]

/-- The loop overflows when it meets that number. -/
theorem findMatch_snd {vSorted : List ℤ} (h : ∀ n ∈ vSorted, FitsInt64 n) (b : Bool) :
    (findMatch vSorted b).2 = (b || decide (-2 ^ 63 ∈ vSorted)) := by
  unfold findMatch
  -- whatever has been found
  generalize false = fMatch
  induction vSorted generalizing fMatch b with
  | nil =>
    rw [decide_eq_false List.not_mem_nil, Bool.or_false]
    rfl
  | cons n v ih =>
    have ih' := ih fun n hn => h n (List.mem_cons_of_mem _ hn)
    rw [List.foldlM_cons]
    by_cases hzero : n = 0
    · rw [if_pos hzero]
      refine (ih' b fMatch).trans ?_
      simp [hzero]
    · rw [if_neg hzero]
      refine (ih' (abs64 n b).2 (fMatch || decide ((abs64 n b).1 < 5 * 60))).trans ?_
      have hmem : -2 ^ 63 ∈ n :: v ↔ n = -2 ^ 63 ∨ -2 ^ 63 ∈ v := by rw [List.mem_cons, eq_comm]
      rw [abs64_apply (h n List.mem_cons_self), decide_eq_decide.mpr hmem, Bool.decide_or,
        Bool.or_assoc]

/-- **The median of an odd number of values** needs no arithmetic. -/
theorem CMedianFilter.exists_median {f : CMedianFilter ℤ} (hodd : f.size % 2 = 1) :
    ∃ m, f.median = pure m ∧ m ∈ f.vValues ∧ IsMedian m f.vValues := by
  have hlen : f.vSorted.length % 2 = 1 := by rw [f.perm.length_eq]; exact hodd
  have hlt : f.vSorted.length / 2 < f.vSorted.length := by omega
  refine ⟨f.vSorted.get ⟨f.vSorted.length / 2, hlt⟩, ?_, ?_, ?_⟩
  · rw [CMedianFilter.median, if_pos hlen]
  · exact f.perm.mem_iff.mp (List.get_mem _ _)
  · exact (isMedian_middle f.sorted hlen (List.getElem?_eq_getElem hlt)).perm f.perm

/-- **A filter keeps the last values.** -/
theorem CMedianFilter.vValues_input {f : CMedianFilter T} (h : f.vValues.length ≤ f.nSize)
    (value : T) :
    (f.input value).vValues = (f.vValues ++ [value]).rtake f.nSize := by
  have hpos := List.length_pos_iff.mpr f.ne_nil
  show (if f.vValues.length = f.nSize then f.vValues.tail else f.vValues) ++ [value] = _
  rw [List.rtake, List.length_append, List.length_singleton]
  split_ifs with hfull
  · rw [hfull, Nat.add_sub_cancel_left, List.drop_append_of_le_length hpos, List.drop_one]
  · rw [Nat.sub_eq_zero_of_le (by omega), List.drop_zero]

/-! ## One call -/

variable {st : TimeData} {ip : CNetAddr} {nTime now m : ℤ} {b : Bool}

/-- A small median becomes the offset, a large one resets it. -/
theorem setTimeOffset_nTimeOffset (st : TimeData) (b : Bool) (hm : FitsInt64 m) :
    (setTimeOffset st m b).1.nTimeOffset = if int64 |m| < 15 * 60 then m else 0 := by
  show ((abs64 m >>= _ : Arith TimeData) b).1.nTimeOffset = _
  simp only [bind, StateT.bind, abs64_apply hm]
  split_ifs with hsmall hdone
  · rfl
  · rfl
  · rfl

/-- **What can overflow**: the absolute value of the median, and of a sample when no peer has been
looked for yet. -/
theorem setTimeOffset_overflow (st : TimeData) (b : Bool) (hm : FitsInt64 m)
    (hvalues : ∀ n ∈ st.vTimeOffsets.vValues, FitsInt64 n) :
    (setTimeOffset st m b).2 = (b || decide (m = -2 ^ 63) ||
      (decide (15 * 60 ≤ int64 |m|) && !st.fDone &&
        decide (-2 ^ 63 ∈ st.vTimeOffsets.vValues))) := by
  have hsorted : ∀ n ∈ st.vTimeOffsets.vSorted, FitsInt64 n :=
    fun n hn => hvalues n (st.vTimeOffsets.perm.mem_iff.mp hn)
  show ((abs64 m >>= _ : Arith TimeData) b).2 = _
  simp only [bind, StateT.bind, abs64_apply hm]
  split_ifs with hsmall hdone
  · rw [decide_eq_false (not_le.mpr hsmall), Bool.false_and, Bool.false_and, Bool.or_false]
    rfl
  · rw [hdone, Bool.not_true, Bool.and_false, Bool.false_and, Bool.or_false]
    rfl
  · simp only [Bool.not_eq_true] at hdone
    rw [hdone, decide_eq_true (not_lt.mp hsmall), Bool.not_false, Bool.and_true, Bool.true_and]
    refine (findMatch_snd hsorted _).trans ?_
    rw [decide_eq_decide.mpr st.vTimeOffsets.perm.mem_iff]

/-- The state with one more sample, before the median is looked at. -/
def TimeData.keep (st : TimeData) (ip : CNetAddr) (nOffsetSample : ℤ) : TimeData :=
  { st with
    setKnown := insert ip st.setKnown
    vTimeOffsets := st.vTimeOffsets.input nOffsetSample }

theorem addTimeData_of_known (h : ip ∈ st.setKnown) : addTimeData st ip nTime now b =
    (st, b || decide (int64 (nTime - now) ≠ nTime - now)) := by
  simp only [addTimeData, if_pos h]
  rfl

theorem addTimeData_of_even (h : ip ∉ st.setKnown)
    (hsize : ¬(5 ≤ (st.vTimeOffsets.input (int64 (nTime - now))).size ∧
      (st.vTimeOffsets.input (int64 (nTime - now))).size % 2 = 1)) :
    addTimeData st ip nTime now b =
      (st.keep ip (int64 (nTime - now)), b || decide (int64 (nTime - now) ≠ nTime - now)) := by
  show (wrap (nTime - now) >>= _) b = _
  simp only [if_neg h]
  show (if _ then _ else _ : Arith TimeData) _ = _
  rw [if_neg hsize]
  rfl

theorem addTimeData_of_odd (h : ip ∉ st.setKnown)
    (hsize : 5 ≤ (st.vTimeOffsets.input (int64 (nTime - now))).size ∧
      (st.vTimeOffsets.input (int64 (nTime - now))).size % 2 = 1)
    (hm : (st.vTimeOffsets.input (int64 (nTime - now))).median = pure m) :
    addTimeData st ip nTime now b =
      setTimeOffset (st.keep ip (int64 (nTime - now))) m
        (b || decide (int64 (nTime - now) ≠ nTime - now)) := by
  show (wrap (nTime - now) >>= _) b = _
  simp only [if_neg h]
  show (if _ then _ else _ : Arith TimeData) _ = _
  rw [if_pos hsize, hm]
  rfl

/-! ## Runs -/

/-- A peer's time, and the time here when it arrives. -/
structure TimeSample where
  ip : CNetAddr
  nTime : ℤ
  now : ℤ

/-- How far the peer's clock is ahead. -/
def TimeSample.offset (e : TimeSample) : ℤ := e.nTime - e.now

/-- `AddTimeData` of a sample: the state after it, and whether an operation has overflowed. -/
def addSample (st : TimeData) (e : TimeSample) : TimeData × Bool :=
  addTimeData st e.ip e.nTime e.now false

/-- The state at the start. -/
def TimeData.start : TimeData where
  nTimeOffset := 0
  vTimeOffsets := .new 200 0
  setKnown := ∅
  fDone := false

/-- Samples come in any order; times are `int64`. -/
def timeSystem : System TimeData TimeSample where
  start st := st = TimeData.start
  legal _ e := FitsInt64 e.nTime ∧ FitsInt64 e.now
  next st e := (addSample st e).1

/-- The samples that are kept when one more comes in: the last 200. -/
def kept (st : TimeData) (e : TimeSample) : List ℤ :=
  (st.vTimeOffsets.vValues ++ [e.offset]).rtake 200

/-- The median of the samples kept is used. -/
def UsesMedian (st : TimeData) (e : TimeSample) : Prop :=
  e.ip ∉ st.setKnown → 5 ≤ (kept st e).length → (kept st e).length % 2 = 1 →
    ∃ m, (∀ m', IsMedian m' (kept st e) ↔ m' = m) ∧
      (addSample st e).1.nTimeOffset = if |m| < 15 * 60 then m else 0

/-- What a call promises: a small offset, by the median of the samples kept, and no overflow. -/
structure Adjusts (st : TimeData) (e : TimeSample) : Prop where
  bounded : |(addSample st e).1.nTimeOffset| < 15 * 60
  median : UsesMedian st e
  exact : (addSample st e).2 = false

/-- Less than half of the samples are early by 15 minutes, and less than half are late by them. -/
def MostlyNear (samples : List ℤ) : Prop :=
  2 * samples.countP (· ≤ -(15 * 60)) < samples.length ∧
  2 * samples.countP (15 * 60 ≤ ·) < samples.length

/-- The samples whose arithmetic is exact. -/
structure SampleOk (st : TimeData) (e : TimeSample) : Prop where
  fits : FitsInt64 e.offset
  samples : e.ip ∉ st.setKnown → 5 ≤ (kept st e).length → (kept st e).length % 2 = 1 →
    -2 ^ 63 ∈ kept st e →
      if st.fDone then 2 * (kept st e).countP (· ≤ -2 ^ 63) < (kept st e).length
      else MostlyNear (kept st e)

/-- What every run keeps. -/
structure TimeInv (st : TimeData) : Prop where
  nSize : st.vTimeOffsets.nSize = 200
  length : st.vTimeOffsets.vValues.length ≤ 200
  values : ∀ n ∈ st.vTimeOffsets.vValues, FitsInt64 n
  bounded : |st.nTimeOffset| < 15 * 60

variable {e : TimeSample}

theorem TimeInv.start : TimeInv TimeData.start where
  nSize := rfl
  length := by decide
  values n hn := by
    rw [List.mem_singleton.mp hn]
    exact ⟨by decide, by decide⟩
  bounded := by decide

/-- The three ways of a call: a peer that is known, a sample that is only kept, and a median that is
looked at. -/
theorem addSample_cases (st : TimeData) (e : TimeSample) :
    (e.ip ∈ st.setKnown ∧ addSample st e = (st, decide (int64 e.offset ≠ e.offset))) ∨
    (e.ip ∉ st.setKnown ∧
      ¬(5 ≤ (st.vTimeOffsets.input (int64 e.offset)).size ∧
        (st.vTimeOffsets.input (int64 e.offset)).size % 2 = 1) ∧
      addSample st e = (st.keep e.ip (int64 e.offset), decide (int64 e.offset ≠ e.offset))) ∨
    (e.ip ∉ st.setKnown ∧ 5 ≤ (st.vTimeOffsets.input (int64 e.offset)).size ∧
      (st.vTimeOffsets.input (int64 e.offset)).size % 2 = 1 ∧
      ∃ m ∈ (st.vTimeOffsets.input (int64 e.offset)).vValues,
        IsMedian m (st.vTimeOffsets.input (int64 e.offset)).vValues ∧
        addSample st e = setTimeOffset (st.keep e.ip (int64 e.offset)) m
          (decide (int64 e.offset ≠ e.offset))) := by
  by_cases hknown : e.ip ∈ st.setKnown
  · exact .inl ⟨hknown, (addTimeData_of_known hknown).trans (by rw [Bool.false_or]; rfl)⟩
  · by_cases hsize : 5 ≤ (st.vTimeOffsets.input (int64 e.offset)).size ∧
        (st.vTimeOffsets.input (int64 e.offset)).size % 2 = 1
    · obtain ⟨m, hm, hmem, hmedian⟩ := CMedianFilter.exists_median hsize.2
      exact .inr (.inr ⟨hknown, hsize.1, hsize.2, m, hmem, hmedian,
        (addTimeData_of_odd hknown hsize hm).trans (by rw [Bool.false_or]; rfl)⟩)
    · exact .inr (.inl ⟨hknown, hsize,
        (addTimeData_of_even hknown hsize).trans (by rw [Bool.false_or]; rfl)⟩)

/-- The offset and the warning are all that the median changes. -/
theorem setTimeOffset_eq (st : TimeData) (m : ℤ) (b : Bool) : ∃ nTimeOffset fDone,
    (setTimeOffset st m b).1 = { st with nTimeOffset := nTimeOffset, fDone := fDone } := by
  show ∃ nTimeOffset fDone, ((abs64 m >>= _ : Arith TimeData) b).1 = _
  simp only [bind, StateT.bind]
  rcases abs64 m b with ⟨nAbs, overflow⟩
  dsimp only
  split_ifs
  · exact ⟨m, st.fDone, rfl⟩
  · exact ⟨0, st.fDone, rfl⟩
  · exact ⟨0, !(findMatch st.vTimeOffsets.vSorted overflow).1, rfl⟩

/-- The samples kept are those of the filter. -/
theorem TimeInv.vValues_input (h : TimeInv st) (hfits : FitsInt64 e.offset) :
    (st.vTimeOffsets.input (int64 e.offset)).vValues = kept st e := by
  rw [int64_eq_iff.mpr hfits, CMedianFilter.vValues_input (h.nSize ▸ h.length), h.nSize]
  rfl

/-- A filter of `int64` values stays one. -/
theorem TimeInv.keep (h : TimeInv st) (e : TimeSample) :
    (st.vTimeOffsets.input (int64 e.offset)).vValues.length ≤ 200 ∧
    ∀ n ∈ (st.vTimeOffsets.input (int64 e.offset)).vValues, FitsInt64 n := by
  rw [CMedianFilter.vValues_input (h.nSize ▸ h.length), h.nSize, List.rtake]
  refine ⟨?_, fun n hn => ?_⟩
  · rw [List.length_drop]
    omega
  · rcases List.mem_append.mp (List.mem_of_mem_drop hn) with hn | hn
    · exact h.values n hn
    · rw [List.mem_singleton.mp hn]
      exact int64_range _

/-- A call keeps the invariant when the offset stays small. -/
theorem TimeInv.next (h : TimeInv st) (hbounded : |(addSample st e).1.nTimeOffset| < 15 * 60) :
    TimeInv (addSample st e).1 := by
  have hkeep : (addSample st e).1.vTimeOffsets = st.vTimeOffsets ∨
      (addSample st e).1.vTimeOffsets = st.vTimeOffsets.input (int64 e.offset) := by
    rcases addSample_cases st e with ⟨-, heq⟩ | ⟨-, -, heq⟩ | ⟨-, -, -, m, -, -, heq⟩
    · exact .inl (by rw [heq])
    · exact .inr (by rw [heq]; rfl)
    · obtain ⟨nTimeOffset, fDone, hstate⟩ := setTimeOffset_eq (st.keep e.ip (int64 e.offset)) m
        (decide (int64 e.offset ≠ e.offset))
      exact .inr (by rw [heq, hstate]; rfl)
  rcases hkeep with heq | heq
  · exact ⟨heq ▸ h.nSize, heq ▸ h.length, heq ▸ h.values, hbounded⟩
  · exact ⟨heq ▸ h.nSize, heq ▸ (h.keep e).1, heq ▸ (h.keep e).2, hbounded⟩

/-- An exact call has subtracted exactly. -/
theorem TimeInv.fits_of_exact (h : TimeInv st) (hexact : (addSample st e).2 = false) :
    FitsInt64 e.offset := by
  by_contra hfits
  have hoverflow : decide (int64 e.offset ≠ e.offset) = true :=
    decide_eq_true (mt int64_eq_iff.mp hfits)
  rcases addSample_cases st e with ⟨-, heq⟩ | ⟨-, -, heq⟩ | ⟨-, -, -, m, hm, -, heq⟩
  · rw [heq, hoverflow] at hexact
    cases hexact
  · rw [heq, hoverflow] at hexact
    cases hexact
  · rw [heq, setTimeOffset_overflow _ _ ((h.keep e).2 m hm) (h.keep e).2, hoverflow, Bool.true_or,
      Bool.true_or] at hexact
    cases hexact

/-- A call that looks at the median. -/
theorem TimeInv.adjusts_iff_of_median (h : TimeInv st) (hfits : FitsInt64 e.offset)
    (hnew : e.ip ∉ st.setKnown) (hsize : 5 ≤ (kept st e).length) (hodd : (kept st e).length % 2 = 1)
    (hm : m ∈ kept st e) (hmedian : IsMedian m (kept st e))
    (heq : addSample st e = setTimeOffset (st.keep e.ip (int64 e.offset)) m false) :
    Adjusts st e ↔ SampleOk st e := by
  have hvalues := h.vValues_input hfits
  have hkeep := (h.keep e).2
  obtain ⟨hlow, hhigh⟩ : FitsInt64 m := hkeep m (hvalues ▸ hm)
  have hoffset := setTimeOffset_nTimeOffset (st.keep e.ip (int64 e.offset)) false
    ⟨hlow, hhigh⟩
  have hoverflow := setTimeOffset_overflow (st.keep e.ip (int64 e.offset)) false
    ⟨hlow, hhigh⟩ hkeep
  rw [← heq] at hoffset hoverflow
  rw [show (st.keep e.ip (int64 e.offset)).vTimeOffsets.vValues = kept st e from hvalues,
    show (st.keep e.ip (int64 e.offset)).fDone = st.fDone from rfl, Bool.false_or] at hoverflow
  have hnear : MostlyNear (kept st e) ↔ |m| < 15 * 60 := by
    rw [MostlyNear, ← hmedian.gt_iff hodd, ← hmedian.lt_iff hodd, abs_lt]
  by_cases hmin : m = -2 ^ 63
  · -- the absolute value of the median overflows
    constructor
    · intro hadjusts
      rw [hadjusts.exact, decide_eq_true hmin, Bool.true_or] at hoverflow
      cases hoverflow
    · rintro ⟨-, hsamples⟩
      have hcount := hsamples hnew hsize hodd (hmin ▸ hm)
      split_ifs at hcount
      · rw [← hmedian.gt_iff hodd] at hcount
        omega
      · rw [hnear, hmin] at hcount
        exact absurd hcount (by decide)
  · have hint : int64 |m| = |m| := by
      have habs := abs_lt.mpr (⟨by omega, hhigh⟩ : -2 ^ 63 < m ∧ m < 2 ^ 63)
      exact int64_eq_self (by have := abs_nonneg m; omega) habs
    rw [decide_eq_false hmin, Bool.false_or, hint] at hoverflow
    rw [hint] at hoffset
    constructor
    · intro hadjusts
      refine ⟨hfits, fun _ _ _ hmem => ?_⟩
      rw [hadjusts.exact, decide_eq_true hmem, Bool.and_true] at hoverflow
      split_ifs with hdone
      · rw [← hmedian.gt_iff hodd]
        omega
      · rw [hnear]
        rw [Bool.not_eq_true] at hdone
        rw [hdone, Bool.not_false, Bool.and_true] at hoverflow
        exact not_le.mp (of_decide_eq_false hoverflow.symm)
    · rintro ⟨-, hsamples⟩
      refine ⟨?_, fun _ _ _ => ⟨m, fun m' => ⟨fun h' => h'.unique hmedian hodd, ?_⟩, hoffset⟩, ?_⟩
      · rw [hoffset]
        split_ifs with hsmall
        · exact hsmall
        · decide
      · rintro rfl
        exact hmedian
      · rw [hoverflow]
        by_cases hmem : -2 ^ 63 ∈ kept st e
        · have hcount := hsamples hnew hsize hodd hmem
          split_ifs at hcount with hdone
          · rw [hdone, Bool.not_true, Bool.and_false, Bool.false_and]
          · rw [hnear] at hcount
            rw [decide_eq_false (not_le.mpr hcount), Bool.false_and, Bool.false_and]
        · rw [decide_eq_false hmem, Bool.and_false]

/-- **A call meets its promises exactly for such a sample.** -/
theorem TimeInv.adjusts_iff (h : TimeInv st) : Adjusts st e ↔ SampleOk st e := by
  by_cases hfits : FitsInt64 e.offset
  case neg => exact ⟨fun hadjusts => absurd (h.fits_of_exact hadjusts.exact) hfits,
    fun hok => absurd hok.fits hfits⟩
  have hexact : decide (int64 e.offset ≠ e.offset) = false :=
    decide_eq_false (not_not.mpr (int64_eq_iff.mpr hfits))
  have hvalues := h.vValues_input hfits
  rcases addSample_cases st e with
    ⟨hknown, heq⟩ | ⟨hnew, hsize, heq⟩ | ⟨hnew, hsize, hodd, m, hm, hmedian, heq⟩
  · refine ⟨fun _ => ⟨hfits, fun hnew => absurd hknown hnew⟩,
      fun _ => ⟨?_, fun hnew => absurd hknown hnew, ?_⟩⟩
    · rw [heq]
      exact h.bounded
    · rw [heq, hexact]
  · rw [CMedianFilter.size, hvalues] at hsize
    refine ⟨fun _ => ⟨hfits, fun _ h₁ h₂ => absurd ⟨h₁, h₂⟩ hsize⟩,
      fun _ => ⟨?_, fun _ h₁ h₂ => absurd ⟨h₁, h₂⟩ hsize, ?_⟩⟩
    · rw [heq]
      exact h.bounded
    · rw [heq, hexact]
  · rw [CMedianFilter.size, hvalues] at hsize hodd
    rw [hvalues] at hm hmedian
    rw [hexact] at heq
    exact h.adjusts_iff_of_median hfits hnew hsize hodd hm hmedian heq

/-- **The offset stays small and exact exactly in the runs whose samples are such.** -/
theorem addTimeData_allows_iff (es : List TimeSample) :
    timeSystem.Allows Adjusts TimeData.start es ↔ timeSystem.Allows SampleOk TimeData.start es :=
  System.allows_congr (fun _ _ h _ hok => h.next hok.bounded) (fun _ _ h _ => h.adjusts_iff)
    TimeInv.start

/-! ## What the offset means -/

/-- A new peer's sample is kept, whatever becomes of the offset. -/
theorem TimeInv.next_eq_of_new (h : TimeInv st) (hfits : FitsInt64 e.offset)
    (hnew : e.ip ∉ st.setKnown) : (addSample st e).1.vTimeOffsets.vValues = kept st e ∧
      (addSample st e).1.setKnown = insert e.ip st.setKnown := by
  rw [← h.vValues_input hfits]
  rcases addSample_cases st e with ⟨hknown, -⟩ | ⟨-, -, heq⟩ | ⟨-, -, -, m, -, -, heq⟩
  · exact absurd hknown hnew
  · rw [heq]
    exact ⟨rfl, rfl⟩
  · obtain ⟨nTimeOffset, fDone, hstate⟩ := setTimeOffset_eq (st.keep e.ip (int64 e.offset)) m
      (decide (int64 e.offset ≠ e.offset))
    rw [heq, hstate]
    exact ⟨rfl, rfl⟩

/-- **The samples kept** in a run from distinct peers are the last 200, the zero at the start
included. -/
theorem TimeInv.vValues_run {es : List TimeSample} {l : List ℤ} (h : TimeInv st)
    (hvalues : st.vTimeOffsets.vValues = l.rtake 200) (hnodup : (es.map TimeSample.ip).Nodup)
    (hnew : ∀ e ∈ es, e.ip ∉ st.setKnown) (hes : timeSystem.Allows Adjusts st es) :
    (timeSystem.run st es).vTimeOffsets.vValues = (l ++ es.map TimeSample.offset).rtake 200 := by
  induction es generalizing st l with
  | nil => rw [List.map_nil, List.append_nil, ← hvalues]; rfl
  | cons e es ih =>
    obtain ⟨⟨-, hadjusts⟩, hes⟩ := hes
    obtain ⟨hnotMem, hnodup⟩ := List.nodup_cons.mp hnodup
    obtain ⟨hkept, hknown⟩ := h.next_eq_of_new (h.fits_of_exact hadjusts.exact)
      (hnew e List.mem_cons_self)
    rw [List.map_cons, List.append_cons]
    refine ih (h.next hadjusts.bounded) ?_ hnodup (fun e' he' => ?_) hes
    · rw [← rtake_rtake_append, ← hvalues]
      exact hkept
    · show e'.ip ∉ (addSample st e).1.setKnown
      rw [hknown, Finset.mem_insert, not_or]
      refine ⟨?_, hnew e' (List.mem_cons_of_mem _ he')⟩
      rintro heq
      exact hnotMem (List.mem_map.mpr ⟨e', he', heq⟩)

/-- **The adjusted time is near the time here** in every such run. -/
theorem getAdjustedTime_near {st : TimeData} (h : Reaches timeSystem SampleOk st)
    (hlow : 15 * 60 ≤ now) (hhigh : now + 15 * 60 < 2 ^ 63) :
    (getAdjustedTime st now false).2 = false ∧
    |(getAdjustedTime st now false).1 - now| < 15 * 60 := by
  have hinv : TimeInv st := by
    refine h.invariant (fun s hs => ?_) fun s e hs _ hok => ?_
    · obtain rfl : s = TimeData.start := hs
      exact TimeInv.start
    · exact hs.next (hs.adjusts_iff.mpr hok).bounded
  obtain ⟨hneg, hpos⟩ := abs_lt.mp hinv.bounded
  have hint : int64 (now + st.nTimeOffset) = now + st.nTimeOffset :=
    int64_eq_self (by omega) (by omega)
  refine ⟨?_, ?_⟩
  · show (false || decide (int64 (now + st.nTimeOffset) ≠ now + st.nTimeOffset)) = false
    rw [Bool.false_or, decide_eq_false (not_not.mpr hint)]
  · show |int64 (now + st.nTimeOffset) - now| < 15 * 60
    rw [hint, add_sub_cancel_left]
    exact hinv.bounded

/-- Four peers whose clocks are all `2 ^ 63` seconds behind. -/
def earlySamples : List TimeSample :=
  [1, 2, 3, 4].map fun i => ⟨⟨Vector.replicate 16 i⟩, 1600000000 - 2 ^ 63, 1600000000⟩

/-- Such peers make the offset as large as it can be: `abs64` of their median is negative. -/
theorem not_adjusts_earlySamples : ¬∀ es : List TimeSample, (es.map TimeSample.ip).Nodup →
    timeSystem.Allows (fun _ _ => True) TimeData.start es →
    timeSystem.Allows Adjusts TimeData.start es := by
  intro hall
  have hlegal : FitsInt64 (1600000000 - 2 ^ 63) ∧ FitsInt64 1600000000 :=
    ⟨⟨by decide, by decide⟩, by decide, by decide⟩
  have hoffset : (timeSystem.run TimeData.start earlySamples).nTimeOffset = -2 ^ 63 := by
    decide +kernel
  obtain ⟨-, -, -, ⟨-, hlast⟩, -⟩ := hall earlySamples (by decide)
    ⟨⟨hlegal, trivial⟩, ⟨hlegal, trivial⟩, ⟨hlegal, trivial⟩, ⟨hlegal, trivial⟩, trivial⟩
  have hbounded : |(timeSystem.run TimeData.start earlySamples).nTimeOffset| < 15 * 60 :=
    hlast.bounded
  rw [hoffset] at hbounded
  exact absurd hbounded (by decide)

end FoxCoin
