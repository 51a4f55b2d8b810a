import FoxCoin.AddrRoundTrip
import FoxCoin.Lib.Shuffle
import Mathlib.Data.List.GetD

/-! # The address that is evicted

`SelectTried` draws up to four entries of a full bucket to its front and looks for the one that was
successful least recently. It returns the position that entry was drawn from, not the one it was
drawn to: `MakeTried` evicts whatever is there when the drawing is over. -/

namespace FoxCoin

open Overlay Buckets Shuffle Runs

namespace CAddrMan

variable {K : AddrParams} {am : CAddrMan} {rnd : ℕ → ℕ} {b : Fin 64} {nId : ℤ}

/-! ## Drawing -/

/-- The position that a step of `SelectTried` draws from, in a bucket of `n` entries. -/
def drawnFrom (rnd : ℕ → ℕ) (n i : ℕ) : ℕ := getRandInt (rnd i) (n - i) + i

/-- How many entries are inspected: `ADDRMAN_TRIED_ENTRIES_INSPECT_ON_EVICT`, or all. -/
def inspectCount (am : CAddrMan) (b : Fin 64) : ℕ := min 4 (am.vvTried b).length

/-- The bucket after the drawing, with the inspected entries in front. -/
def shuffled (am : CAddrMan) (rnd : ℕ → ℕ) (b : Fin 64) : List ℤ :=
  draw (drawnFrom rnd (am.vvTried b).length) (List.range (am.inspectCount b)) (am.vvTried b)

/-- When the entry at a position of the shuffled bucket was last successful. -/
def timeAt (am : CAddrMan) (rnd : ℕ → ℕ) (b : Fin 64) (i : ℕ) : ℤ :=
  (am.lastSuccessOf ((am.shuffled rnd b).getD i 0)).toInt

/-- The step that draws the first of the oldest entries that are inspected. -/
def firstOldest (am : CAddrMan) (rnd : ℕ → ℕ) (b : Fin 64) : Option ℕ :=
  (List.range (am.inspectCount b)).foldl
    (List.argAux fun i j => am.timeAt rnd b i < am.timeAt rnd b j) none

theorem firstOldest_eq (am : CAddrMan) (rnd : ℕ → ℕ) (b : Fin 64) :
    am.firstOldest rnd b = (List.range (am.inspectCount b)).argmin (am.timeAt rnd b) := rfl

theorem drawnFrom_bounds {n i : ℕ} (h : i < n) : i ≤ drawnFrom rnd n i ∧ drawnFrom rnd n i < n := by
  have := getRandInt_lt (rnd i) (Nat.sub_pos_of_lt h)
  unfold drawnFrom
  omega

/-- What the loop of `SelectTried` keeps is the better of two entries by their times, each with the
position it was drawn from. -/
theorem older_some (am : CAddrMan) (nTemp nOldest : ℤ) (nPos nOldestPos : ℕ) :
    am.older nTemp nPos (some (nOldest, nOldestPos)) =
      if (am.lastSuccessOf nTemp).toInt < (am.lastSuccessOf nOldest).toInt then (nTemp, nPos)
      else (nOldest, nOldestPos) := by
  simp only [older, Int64.lt_iff_toInt_lt]

theorem selectTriedLoop_cons (am : CAddrMan) {i : ℕ} {is : List ℕ} {vTried : List ℤ}
    {nTemp : ℤ} {nOldest : Option (ℤ × ℕ)}
    (htemp : vTried[drawnFrom rnd vTried.length i]? = some nTemp) (hid : vTried[i]? = some nId) :
    am.selectTriedLoop rnd (i :: is) vTried nOldest =
      am.selectTriedLoop rnd is ((vTried.set (drawnFrom rnd vTried.length i) nId).set i nTemp)
        (some (am.older nTemp (drawnFrom rnd vTried.length i) nOldest)) := by
  unfold drawnFrom at htemp ⊢
  rw [selectTriedLoop, htemp, hid]

/-- The loop of `SelectTried` draws, and goes on with the older of the best entry so far and the one
that was drawn. -/
theorem selectTriedLoop_eq (am : CAddrMan) (rnd : ℕ → ℕ) {m i : ℕ} {vTried : List ℤ}
    (hle : i + m ≤ vTried.length) (nOldest : Option (ℤ × ℕ)) :
    am.selectTriedLoop rnd (List.range' i m) vTried nOldest =
      (draw (drawnFrom rnd vTried.length) (List.range' i m) vTried,
        (List.range' i m).foldl (fun best j => some (am.older
          ((draw (drawnFrom rnd vTried.length) (List.range' i m) vTried).getD j 0)
          (drawnFrom rnd vTried.length j) best)) nOldest) := by
  induction m generalizing i vTried nOldest with
  | zero => rfl
  | succ m ih =>
    have hi : i < vTried.length := by omega
    obtain ⟨-, hpos⟩ : i ≤ drawnFrom rnd vTried.length i ∧
        drawnFrom rnd vTried.length i < vTried.length := drawnFrom_bounds hi
    have hlen : (swap vTried i (drawnFrom rnd vTried.length i)).length = vTried.length :=
      (swap_perm _ _ _).length_eq
    have hswap : swap vTried i (drawnFrom rnd vTried.length i) =
        (vTried.set (drawnFrom rnd vTried.length i) vTried[i]).set i
          vTried[drawnFrom rnd vTried.length i] := by
      unfold swap
      rw [List.getElem?_eq_getElem hpos, List.getElem?_eq_getElem hi]
    -- the entry that this step draws is not moved by the later ones
    have hdrawn : (draw (drawnFrom rnd vTried.length) (List.range' (i + 1) m)
        (swap vTried i (drawnFrom rnd vTried.length i)))[i]? =
          some vTried[drawnFrom rnd vTried.length i] := by
      rw [draw_getElem?_of_lt fun j hj => ?_, swap_getElem?_self hi hpos,
        List.getElem?_eq_getElem hpos]
      have hj' := List.mem_range'_1.mp hj
      exact ⟨by omega, (drawnFrom_bounds (by omega)).1⟩
    have hfits : i + 1 + m ≤ (swap vTried i (drawnFrom rnd vTried.length i)).length := by omega
    have hnext := ih hfits (some (am.older vTried[drawnFrom rnd vTried.length i]
      (drawnFrom rnd vTried.length i) nOldest))
    rw [hlen] at hnext
    rw [List.range'_succ, am.selectTriedLoop_cons (List.getElem?_eq_getElem hpos)
      (List.getElem?_eq_getElem hi)]
    rw [← hswap, hnext, draw_cons, List.foldl_cons, List.getD_eq_getElem?_getD (i := i), hdrawn]
    rfl

/-- **`SelectTried`** returns the shuffled bucket, and the position that the first of the oldest
entries was drawn from. -/
theorem selectTried_eq (am : CAddrMan) (rnd : ℕ → ℕ) (b : Fin 64) :
    am.selectTried rnd b = (am.shuffled rnd b,
      (am.firstOldest rnd b).map (drawnFrom rnd (am.vvTried b).length)) := by
  have hfits : 0 + am.inspectCount b ≤ (am.vvTried b).length := by
    rw [zero_add]
    exact min_le_right _ _
  have hloop := am.selectTriedLoop_eq rnd hfits none
  rw [← List.range_eq_range'] at hloop
  have hargmin : (List.range (am.inspectCount b)).foldl (fun best j => some (am.older
      ((am.shuffled rnd b).getD j 0) (drawnFrom rnd (am.vvTried b).length j) best)) none =
      ((List.range (am.inspectCount b)).argmin (am.timeAt rnd b)).map fun j =>
        ((am.shuffled rnd b).getD j 0, drawnFrom rnd (am.vvTried b).length j) :=
    foldl_eq_argmin (am.timeAt rnd b) _ (fun _ => rfl) (fun j k => am.older_some _ _ _ _) _
  rw [selectTried]
  show ((am.selectTriedLoop rnd (List.range (am.inspectCount b)) (am.vvTried b) none).1,
    (am.selectTriedLoop rnd (List.range (am.inspectCount b)) (am.vvTried b) none).2.map Prod.snd) = _
  rw [hloop]
  refine Prod.ext rfl ?_
  refine (congrArg (Option.map Prod.snd) hargmin).trans ?_
  rw [Option.map_map]
  rfl

/-! ## The entry that is found -/

/-- `SelectTried` loses no entry and duplicates none, and the position it returns is that of an
inspected entry that was successful least recently. -/
structure FindsOldest (am : CAddrMan) (rnd : ℕ → ℕ) (b : Fin 64) : Prop where
  perm : (am.selectTried rnd b).1.Perm (am.vvTried b)
  oldest : ∃ nPos, (am.selectTried rnd b).2 = some nPos ∧ nPos < am.inspectCount b ∧
    ∀ i < am.inspectCount b, am.timeAt rnd b nPos ≤ am.timeAt rnd b i

/-- The first of the oldest entries was drawn from its own place, or from the place of an inspected
entry that is replaced by another one of the same age. -/
def DrawsInPlace (am : CAddrMan) (rnd : ℕ → ℕ) (b : Fin 64) : Prop :=
  ∃ j ∈ am.firstOldest rnd b, drawnFrom rnd (am.vvTried b).length j = j ∨
    drawnFrom rnd (am.vvTried b).length j < am.inspectCount b ∧
      am.timeAt rnd b (drawnFrom rnd (am.vvTried b).length j) = am.timeAt rnd b j

/-- The first of the oldest entries of a bucket that is not empty. -/
theorem exists_firstOldest (rnd : ℕ → ℕ) (hne : am.vvTried b ≠ []) :
    ∃ j, am.firstOldest rnd b = some j ∧ j < am.inspectCount b ∧
      ∀ i < am.inspectCount b, am.timeAt rnd b j ≤ am.timeAt rnd b i := by
  have hpos : 0 < am.inspectCount b := by
    have := List.length_pos_of_ne_nil hne
    unfold inspectCount
    omega
  rw [firstOldest_eq]
  cases hj : (List.range (am.inspectCount b)).argmin (am.timeAt rnd b) with
  | none =>
    rw [List.argmin_eq_none, List.range_eq_nil] at hj
    omega
  | some j =>
    refine ⟨j, rfl, List.mem_range.mp (List.argmin_mem hj), fun i hi => ?_⟩
    exact List.le_of_mem_argmin (List.mem_range.mpr hi) hj

theorem shuffled_perm (am : CAddrMan) (rnd : ℕ → ℕ) (b : Fin 64) :
    (am.shuffled rnd b).Perm (am.vvTried b) := draw_perm _ _ _

/-- **`SelectTried` finds the oldest inspected entry exactly where it is drawn in place.** -/
theorem findsOldest_iff (rnd : ℕ → ℕ) (hne : am.vvTried b ≠ []) :
    am.FindsOldest rnd b ↔ am.DrawsInPlace rnd b := by
  obtain ⟨j, hj, hlt, hleast⟩ := exists_firstOldest rnd hne
  have hresult : (am.selectTried rnd b).2 =
      some (drawnFrom rnd (am.vvTried b).length j) := by
    rw [selectTried_eq, hj]
    rfl
  have hbounds : j ≤ drawnFrom rnd (am.vvTried b).length j ∧ _ :=
    drawnFrom_bounds (hlt.trans_le (min_le_right _ _))
  constructor
  · rintro ⟨-, nPos, hpos, hinspected, holdest⟩
    obtain rfl := Option.some.inj (hresult.symm.trans hpos)
    exact ⟨j, hj, .inr ⟨hinspected, le_antisymm (holdest j hlt) (hleast _ hinspected)⟩⟩
  · rintro ⟨k, hk, hplace⟩
    obtain rfl : j = k := Option.some.inj (hj.symm.trans hk)
    refine ⟨by rw [selectTried_eq]; exact am.shuffled_perm rnd b, _, hresult, ?_⟩
    rcases hplace with hself | ⟨hinspected, htime⟩
    · rw [hself]
      exact ⟨hlt, hleast⟩
    · exact ⟨hinspected, fun i hi => htime ▸ hleast i hi⟩

/-! ## The entry that is evicted -/

/-- `MakeTried` replaces an inspected entry that was successful least recently by the new one. -/
def EvictsOldest (K : AddrParams) (am : CAddrMan) (rnd : ℕ → ℕ) (nId : ℤ) (nOrigin : Fin 256)
    (b : Fin 64) : Prop :=
  ∃ nOld ∈ (am.shuffled rnd b).take (am.inspectCount b),
    (∀ j ∈ (am.shuffled rnd b).take (am.inspectCount b),
      (am.lastSuccessOf nOld).toInt ≤ (am.lastSuccessOf j).toInt) ∧
    ((am.makeTried K rnd nId nOrigin).vvTried b).Perm (nId :: (am.vvTried b).erase nOld)

theorem lastSuccessOf_leaveNew (am : CAddrMan) (nId j : ℤ) :
    (am.leaveNew nId).lastSuccessOf j = am.lastSuccessOf j := by
  have hlookup : ((am.leaveNew nId).mapInfo.lookup j).map (·.nLastSuccess) =
      (am.mapInfo.lookup j).map (·.nLastSuccess) :=
    map_lookup_modifyInfo (f := fun info => { info with
      nRefCount := info.nRefCount - (Finset.univ.filter fun b => nId ∈ am.vvNew b).card })
      (·.nLastSuccess) (fun _ => rfl) j
  unfold lastSuccessOf
  rw [hlookup]

/-- Taking an entry out of the new buckets does not change what `SelectTried` does. -/
theorem selectTried_leaveNew (am : CAddrMan) (rnd : ℕ → ℕ) (nId : ℤ) (b : Fin 64) :
    (am.leaveNew nId).selectTried rnd b = am.selectTried rnd b := by
  have htried : (am.leaveNew nId).vvTried = am.vvTried := by simp [leaveNew]
  have hshuffled : (am.leaveNew nId).shuffled rnd b = am.shuffled rnd b := by
    simp only [shuffled, inspectCount, htried]
  have htime : (am.leaveNew nId).timeAt rnd b = am.timeAt rnd b := by
    funext i
    simp only [timeAt, hshuffled, lastSuccessOf_leaveNew]
  have hcount : (am.leaveNew nId).inspectCount b = am.inspectCount b := by
    simp only [inspectCount, htried]
  rw [selectTried_eq, selectTried_eq, hshuffled, firstOldest_eq, firstOldest_eq, htime, hcount,
    htried]

/-- `MakeTried` puts the new entry in the place that `SelectTried` has found in a full bucket. -/
theorem vvTried_makeTried (h : am.Valid) {r : ℤ} (hstatus : am.statusOf nId = some (r, false))
    {info : CAddrInfo} (hinfo : am.mapInfo.lookup nId = some info)
    (hbucket : info.getTriedBucket K am.nKey = b) (hfull : (am.vvTried b).length = 64)
    (nOrigin : Fin 256) : ∃ nPos, (am.selectTried rnd b).2 = some nPos ∧
      (am.makeTried K rnd nId nOrigin).vvTried b = (am.selectTried rnd b).1.set nPos nId := by
  have hne : am.vvTried b ≠ [] := by
    intro hnil
    rw [hnil] at hfull
    cases hfull
  obtain ⟨hperm, nPos, hpos, hlt⟩ := am.selectTried_spec rnd hne
  have hleft := h.leaveNew hstatus
  obtain ⟨info', hinfo', -⟩ := Option.map_eq_some_iff.mp hleft.status
  have hservice : info'.toCService = info.toCService := by
    have hmap := map_service_modifyInfo am nId (f := fun info => { info with
      nRefCount := info.nRefCount - (Finset.univ.filter fun b => nId ∈ am.vvNew b).card })
      (fun _ => rfl) nId
    have hlookup : (am.modifyInfo nId fun info => { info with
        nRefCount := info.nRefCount - (Finset.univ.filter fun b => nId ∈ am.vvNew b).card
        }).mapInfo.lookup nId = some info' := hinfo'
    rw [hlookup, hinfo] at hmap
    exact Option.some.inj hmap
  have hbucket' : info'.getTriedBucket K (am.leaveNew nId).nKey = b := by
    rw [hleft.nKey, getTriedBucket_congr K am.nKey hservice, hbucket]
  have hnotRoom : ¬((am.leaveNew nId).vvTried b).length < 64 := by
    rw [hleft.vvTried, hfull]
    omega
  have hget : (am.selectTried rnd b).1[nPos]? = some ((am.selectTried rnd b).1.getD nPos 0) := by
    rw [List.getD_eq_getElem _ _ (by rw [hperm.length_eq]; exact hlt), List.getElem?_eq_getElem]
  -- the entry to be replaced is another one, so it is still known
  have hmemOld : (am.selectTried rnd b).1.getD nPos 0 ∈ am.vvTried b :=
    hperm.mem_iff.mp (List.mem_of_getElem? hget)
  have hneOld : (am.selectTried rnd b).1.getD nPos 0 ∉ ({nId} : Finset ℤ) := by
    intro heq
    rw [Finset.mem_singleton.mp heq, ← hleft.vvTried] at hmemOld
    exact occurrences_eq_zero.mp hleft.occurrences b hmemOld
  obtain ⟨hstatusOld, -⟩ := hleft.tabled.status_of_mem_tried hneOld (hleft.vvTried ▸ hmemOld)
  obtain ⟨infoOld, hinfoOld, -⟩ := Option.map_eq_some_iff.mp hstatusOld
  refine ⟨nPos, hpos, ?_⟩
  unfold makeTried
  dsimp only
  rw [hinfo']
  dsimp only
  rw [hbucket', if_neg hnotRoom, selectTried_leaveNew, hpos, Option.bind_some, hget, Option.map_some]
  dsimp only
  rw [hinfoOld]
  exact Function.update_self _ _ _

/-- A list with one place filled anew. -/
theorem set_perm_cons_erase {l : List ℤ} {n : ℕ} {x : ℤ} (hn : l[n]? = some x) (y : ℤ) :
    (l.set n y).Perm (y :: l.erase x) := by
  induction l generalizing n with
  | nil => simp at hn
  | cons z l ih =>
    cases n with
    | zero =>
      rw [List.getElem?_cons_zero, Option.some.injEq] at hn
      rw [hn, List.set_cons_zero, List.erase_cons_head]
    | succ n =>
      rw [List.getElem?_cons_succ] at hn
      rw [List.set_cons_succ]
      by_cases hz : z = x
      · rw [hz, List.erase_cons_head]
        calc (x :: l.set n y).Perm (x :: y :: l.erase x) := (ih hn).cons x
          _ |>.Perm (y :: x :: l.erase x) := .swap y x _
          _ |>.Perm (y :: l) := ((List.perm_cons_erase (List.mem_of_getElem? hn)).symm).cons y
      · rw [List.erase_cons_tail (by simpa using hz)]
        exact ((ih hn).cons z).trans (.swap y z _)

/-- **`MakeTried` evicts the oldest inspected entry exactly where it is drawn in place.** -/
theorem evictsOldest_iff (h : am.Valid) {r : ℤ} (hstatus : am.statusOf nId = some (r, false))
    {info : CAddrInfo} (hinfo : am.mapInfo.lookup nId = some info)
    (hbucket : info.getTriedBucket K am.nKey = b) (hfull : (am.vvTried b).length = 64)
    (nOrigin : Fin 256) : am.EvictsOldest K rnd nId nOrigin b ↔ am.DrawsInPlace rnd b := by
  have hne : am.vvTried b ≠ [] := by
    intro hnil
    rw [hnil] at hfull
    cases hfull
  obtain ⟨nPos, hpos, hafter⟩ : ∃ nPos, (am.selectTried rnd b).2 = some nPos ∧
      (am.makeTried K rnd nId nOrigin).vvTried b = (am.selectTried rnd b).1.set nPos nId :=
    vvTried_makeTried h hstatus hinfo hbucket hfull nOrigin
  have hperm := am.shuffled_perm rnd b
  have hnodup : (am.shuffled rnd b).Nodup := hperm.nodup_iff.mpr (h.check.nodup_vvTried b)
  obtain ⟨-, nPos', hpos', hlt⟩ := am.selectTried_spec rnd hne
  obtain rfl := Option.some.inj (hpos.symm.trans hpos')
  rw [← hperm.length_eq] at hlt
  have hget : (am.shuffled rnd b)[nPos]? = some ((am.shuffled rnd b).getD nPos 0) := by
    rw [List.getD_eq_getElem _ _ hlt, List.getElem?_eq_getElem]
  set nEvicted := (am.shuffled rnd b).getD nPos 0 with hevicted
  rw [selectTried_eq] at hafter
  -- the bucket loses the entry at the position that was found
  have hbucketPerm : ((am.makeTried K rnd nId nOrigin).vvTried b).Perm
      (nId :: (am.vvTried b).erase nEvicted) := by
    rw [hafter]
    exact (set_perm_cons_erase hget nId).trans ((hperm.erase nEvicted).cons nId)
  have hcount : am.inspectCount b ≤ (am.shuffled rnd b).length := by
    rw [hperm.length_eq]
    exact min_le_right _ _
  have hmemTake : ∀ j, j ∈ (am.shuffled rnd b).take (am.inspectCount b) ↔
      ∃ i < am.inspectCount b, (am.shuffled rnd b).getD i 0 = j := by
    intro j
    rw [List.mem_take_iff_getElem]
    constructor
    · rintro ⟨i, hi, rfl⟩
      exact ⟨i, by omega, List.getD_eq_getElem _ _ _⟩
    · rintro ⟨i, hi, rfl⟩
      exact ⟨i, by omega, (List.getD_eq_getElem _ _ _).symm⟩
  rw [← findsOldest_iff rnd hne]
  constructor
  · rintro ⟨nOld, hold, hleast, hbucketPerm'⟩
    have hsame : nOld = nEvicted := by
      have herase := (List.perm_cons nId).mp (hbucketPerm.symm.trans hbucketPerm')
      have hmem : nEvicted ∈ am.vvTried b := hperm.mem_iff.mp (List.mem_of_getElem? hget)
      by_contra hdiff
      have hstays : nEvicted ∈ (am.vvTried b).erase nOld :=
        (List.mem_erase_of_ne (Ne.symm hdiff)).mpr hmem
      exact (h.check.nodup_vvTried b).not_mem_erase (herase.mem_iff.mpr hstays)
    obtain ⟨i, hi, hnOld⟩ := (hmemTake nOld).mp hold
    -- no entry is in the bucket twice
    have hposition : i = nPos := by
      rw [hsame, List.getD_eq_getElem _ _ (by omega), hevicted, List.getD_eq_getElem _ _ hlt] at hnOld
      exact (hnodup.getElem_inj_iff).mp hnOld
    refine ⟨by rw [selectTried_eq]; exact hperm, nPos, hpos, hposition ▸ hi, fun i' hi' => ?_⟩
    have hle := hleast _ ((hmemTake _).mpr ⟨i', hi', rfl⟩)
    rw [hsame] at hle
    exact hle
  · rintro ⟨-, nPos', hpos', hinspected, holdest⟩
    obtain rfl := Option.some.inj (hpos.symm.trans hpos')
    refine ⟨nEvicted, (hmemTake _).mpr ⟨nPos, hinspected, rfl⟩, fun j hj => ?_, hbucketPerm⟩
    obtain ⟨i, hi, rfl⟩ := (hmemTake j).mp hj
    exact holdest i hi

end CAddrMan

/-- **In every state, `SelectTried` finds the oldest of the entries it inspects, and `MakeTried`
evicts it, exactly where the first of the oldest entries is drawn in place.** -/
theorem selectTried_oldest_iff {K : AddrParams} {am : CAddrMan} (h : Reachable (addrSystem K) am)
    (rnd : ℕ → ℕ) {b : Fin 64} (hne : am.vvTried b ≠ []) :
    (am.FindsOldest rnd b ↔ am.DrawsInPlace rnd b) ∧
      ∀ nId info nOrigin, am.mapInfo.lookup nId = some info → info.fInTried = false →
        info.getTriedBucket K am.nKey = b → (am.vvTried b).length = 64 →
        (am.EvictsOldest K rnd nId nOrigin b ↔ am.DrawsInPlace rnd b) := by
  refine ⟨CAddrMan.findsOldest_iff rnd hne, fun nId info nOrigin hinfo hnew hbucket hfull => ?_⟩
  have hstatus : am.statusOf nId = some (info.nRefCount, false) := by
    rw [CAddrMan.statusOf, hinfo, Option.map_some, CAddrInfo.status, hnew]
  exact CAddrMan.evictsOldest_iff (CAddrMan.valid_of_reachable h) hstatus hinfo hbucket hfull nOrigin

/-- Two addresses turn out to be accessible, the second one longer ago. -/
def twoTriedRun : List AddrEvent :=
  [.add id 1000000 (exampleAddress 1) ⟨Vector.replicate 16 9⟩ 0,
    .add id 1000000 (exampleAddress 33) ⟨Vector.replicate 16 9⟩ 0,
    .good id (exampleAddress 1).toCService 1000020, .good id (exampleAddress 33).toCService 1000010]

/-- The state after the run: both addresses are in one tried bucket. -/
def twoTried : CAddrMan :=
  (addrSystem exampleAddrParams).run (CAddrMan.empty (List.replicate 32 0)) twoTriedRun

theorem reachable_twoTried : Reachable (addrSystem exampleAddrParams) twoTried := by
  have hstart : Reachable (addrSystem exampleAddrParams) (CAddrMan.empty (List.replicate 32 0)) :=
    .start ⟨_, rfl⟩
  exact hstart.run ⟨⟨trivial, trivial⟩, ⟨trivial, trivial⟩, ⟨trivial, trivial⟩, ⟨trivial, trivial⟩,
    trivial⟩

/-- Where every entry is drawn from its own place, the older address is found. -/
theorem findsOldest_twoTried : twoTried.FindsOldest (fun _ => 0) 39 :=
  (selectTried_oldest_iff reachable_twoTried (fun _ => 0) (by decide +kernel)).1.mpr
    ⟨1, by decide +kernel, .inl (by decide +kernel)⟩

/-- **The newer address can be found**: the older one is drawn from the second place to the first,
and the second place is returned, where the newer one is now. -/
theorem not_forall_findsOldest : ¬∀ am, Reachable (addrSystem exampleAddrParams) am →
    ∀ (rnd : ℕ → ℕ) (b : Fin 64), am.vvTried b ≠ [] → am.FindsOldest rnd b := by
  intro hall
  obtain ⟨nPos, hpos, -, holdest⟩ :=
    (hall twoTried reachable_twoTried (fun _ => 1) 39 (by decide +kernel)).oldest
  have hfound : (twoTried.selectTried (fun _ => 1) 39).2 = some 1 := by decide +kernel
  obtain rfl := Option.some.inj (hfound.symm.trans hpos)
  exact absurd (holdest 0 (by decide +kernel)) (by decide +kernel)

end FoxCoin
