import FoxCoin.AddrIndex
import FoxCoin.Lib.Buckets

/-! # The tables of the address manager

An entry is filed in as many new buckets as it has references, or once in a tried bucket, and the
counts follow. In the middle of an operation one entry may be out of place; the statements here
leave out a set of ids for that, and what the counts have for them. -/

namespace FoxCoin

open Overlay Buckets

/-! ## Definitions -/

/-- What the tables need to know of an entry. -/
def CAddrInfo.status (info : CAddrInfo) : ℤ × Bool := (info.nRefCount, info.fInTried)

/-- How an id is filed: in how many new buckets, and how often in tried ones. -/
def Filed : Option (ℤ × Bool) → ℕ → ℕ → Prop
  | none, nPlaces, nOccurrences => nPlaces = 0 ∧ nOccurrences = 0
  | some (nRefCount, true), nPlaces, nOccurrences =>
    nRefCount = 0 ∧ nPlaces = 0 ∧ nOccurrences = 1
  | some (nRefCount, false), nPlaces, nOccurrences =>
    1 ≤ nRefCount ∧ nRefCount ≤ 4 ∧ (nPlaces : ℤ) = nRefCount ∧ nOccurrences = 0

/-- What an entry adds to `nNew`. -/
def newWeight (status : ℤ × Bool) : ℤ := if status.2 then 0 else 1

/-- What an entry adds to `nTried`. -/
def triedWeight (status : ℤ × Bool) : ℤ := if status.2 then 1 else 0

/-- The weight of the entries outside a set of ids. -/
def weightOutside (X : Finset ℤ) (weight : ℤ × Bool → ℤ) (nId : ℤ) (info : CAddrInfo) : ℤ :=
  if nId ∈ X then 0 else weight info.status

namespace CAddrMan

/-- The status of an id. -/
def statusOf (am : CAddrMan) (nId : ℤ) : Option (ℤ × Bool) :=
  (am.mapInfo.lookup nId).map CAddrInfo.status

/-- The tables agree with the entries outside `X`, and the counts are those of these entries and
`cNew` and `cTried` more. -/
structure Tabled (am : CAddrMan) (X : Finset ℤ) (cNew cTried : ℤ) : Prop where
  filed : ∀ nId ∉ X, Filed (am.statusOf nId) (places am.vvNew nId).card (occurrences am.vvTried nId)
  new_size : ∀ b, (am.vvNew b).card ≤ 64
  tried_size : ∀ b, (am.vvTried b).length ≤ 64
  nNew : am.nNew = total (weightOutside X newWeight) am.mapInfo + cNew
  nTried : am.nTried = total (weightOutside X triedWeight) am.mapInfo + cTried

/-- An id is filed as before. -/
structure SameFiling (am am' : CAddrMan) (nId : ℤ) : Prop where
  status : am'.statusOf nId = am.statusOf nId
  places : places am'.vvNew nId = places am.vvNew nId
  occurrences : occurrences am'.vvTried nId = occurrences am.vvTried nId

variable {am am' : CAddrMan} {X : Finset ℤ} {cNew cTried cNew' cTried' nId : ℤ}

/-! ## Changes at one id -/

theorem weightAt_weightOutside (X : Finset ℤ) (weight : ℤ × Bool → ℤ) (am : CAddrMan) (k : ℤ) :
    weightAt (weightOutside X weight) am.mapInfo k =
      if k ∈ X then 0 else (am.statusOf k).elim 0 weight := by
  unfold weightAt weightOutside statusOf
  cases am.mapInfo.lookup k <;> simp

/-- What changes the filing of excepted ids only keeps the tables. -/
theorem Tabled.inside (h : am.Tabled X cNew cTried)
    (hother : ∀ k ∉ X, am.SameFiling am' k) (hnew : ∀ b, (am'.vvNew b).card ≤ 64)
    (htried : ∀ b, (am'.vvTried b).length ≤ 64) (hnNew : am'.nNew - cNew' = am.nNew - cNew)
    (hnTried : am'.nTried - cTried' = am.nTried - cTried) : am'.Tabled X cNew' cTried' := by
  have htotal : ∀ weight, total (weightOutside X weight) am'.mapInfo =
      total (weightOutside X weight) am.mapInfo := by
    refine fun weight => total_congr fun k => ?_
    rw [weightAt_weightOutside, weightAt_weightOutside]
    split_ifs with hk
    · rfl
    · rw [(hother k hk).status]
  refine ⟨fun k hk => ?_, hnew, htried, ?_, ?_⟩
  · obtain ⟨hstatus, hplaces, hocc⟩ := hother k hk
    rw [hstatus, hplaces, hocc]
    exact h.filed k hk
  · rw [htotal]
    have := h.nNew
    omega
  · rw [htotal]
    have := h.nTried
    omega

/-- **A change at one id keeps the tables** when the id is filed again and the counts follow. -/
theorem Tabled.change (h : am.Tabled X cNew cTried) (hnId : nId ∉ X)
    (hother : ∀ k ∉ X, k ≠ nId → am.SameFiling am' k)
    (hfiled : Filed (am'.statusOf nId) (places am'.vvNew nId).card (occurrences am'.vvTried nId))
    (hnew : ∀ b, (am'.vvNew b).card ≤ 64) (htried : ∀ b, (am'.vvTried b).length ≤ 64)
    (hnNew : am'.nNew - cNew' - (am'.statusOf nId).elim 0 newWeight =
      am.nNew - cNew - (am.statusOf nId).elim 0 newWeight)
    (hnTried : am'.nTried - cTried' - (am'.statusOf nId).elim 0 triedWeight =
      am.nTried - cTried - (am.statusOf nId).elim 0 triedWeight) :
    am'.Tabled X cNew' cTried' := by
  have htotal : ∀ weight, total (weightOutside X weight) am'.mapInfo +
      (am.statusOf nId).elim 0 weight =
        total (weightOutside X weight) am.mapInfo + (am'.statusOf nId).elim 0 weight := by
    intro weight
    have hweight : ∀ am : CAddrMan, weightAt (weightOutside X weight) am.mapInfo nId =
        (am.statusOf nId).elim 0 weight := fun am => by rw [weightAt_weightOutside, if_neg hnId]
    rw [← hweight am, ← hweight am']
    refine total_add_weightAt nId fun k hk => ?_
    rw [weightAt_weightOutside, weightAt_weightOutside]
    split_ifs with hX
    · rfl
    · rw [(hother k hX hk).status]
  refine ⟨fun k hk => ?_, hnew, htried, ?_, ?_⟩
  · by_cases heq : k = nId
    · rw [heq]
      exact hfiled
    · obtain ⟨hstatus, hplaces, hocc⟩ := hother k hk heq
      rw [hstatus, hplaces, hocc]
      exact h.filed k hk
  · have := h.nNew
    have := htotal newWeight
    omega
  · have := h.nTried
    have := htotal triedWeight
    omega

/-- The total without an id. -/
theorem total_weightOutside_singleton (am : CAddrMan) (nId : ℤ) (weight : ℤ × Bool → ℤ) :
    total (weightOutside ∅ weight) am.mapInfo =
      total (weightOutside {nId} weight) am.mapInfo + (am.statusOf nId).elim 0 weight := by
  have hsum : total (weightOutside ∅ weight) am.mapInfo +
      weightAt (weightOutside {nId} weight) am.mapInfo nId =
        total (weightOutside {nId} weight) am.mapInfo +
          weightAt (weightOutside ∅ weight) am.mapInfo nId :=
    total_add_weightAt nId fun k hk => by
      rw [weightAt_weightOutside, weightAt_weightOutside, if_neg (Finset.notMem_empty k),
        if_neg (by simpa using hk)]
  rwa [weightAt_weightOutside, weightAt_weightOutside, if_neg (Finset.notMem_empty nId),
    if_pos (Finset.mem_singleton_self nId), add_zero] at hsum

/-- An id is taken out of the account. -/
theorem Tabled.open (h : am.Tabled ∅ 0 0) (nId : ℤ) :
    am.Tabled {nId} ((am.statusOf nId).elim 0 newWeight) ((am.statusOf nId).elim 0 triedWeight) := by
  refine ⟨fun k _ => h.filed k (Finset.notMem_empty k), h.new_size, h.tried_size, ?_, ?_⟩
  · rw [h.nNew, total_weightOutside_singleton am nId, add_zero]
  · rw [h.nTried, total_weightOutside_singleton am nId, add_zero]

/-- An id is taken into the account again. -/
theorem Tabled.close (h : am.Tabled {nId} ((am.statusOf nId).elim 0 newWeight)
      ((am.statusOf nId).elim 0 triedWeight))
    (hfiled : Filed (am.statusOf nId) (places am.vvNew nId).card (occurrences am.vvTried nId)) :
    am.Tabled ∅ 0 0 := by
  refine ⟨fun k _ => ?_, h.new_size, h.tried_size, ?_, ?_⟩
  · by_cases heq : k = nId
    · rw [heq]
      exact hfiled
    · exact h.filed k (by simpa using heq)
  · rw [h.nNew, total_weightOutside_singleton am nId, add_zero]
  · rw [h.nTried, total_weightOutside_singleton am nId, add_zero]

/-! ## Changes of an entry -/

theorem SameFiling.trans {am'' : CAddrMan} (h : am.SameFiling am' nId)
    (h' : am'.SameFiling am'' nId) : am.SameFiling am'' nId :=
  ⟨h'.status.trans h.status, h'.places.trans h.places, h'.occurrences.trans h.occurrences⟩

/-- A change of an entry leaves the filing of other ids alone. -/
theorem sameFiling_modifyInfo {k : ℤ} (hk : k ≠ nId) (f : CAddrInfo → CAddrInfo) :
    am.SameFiling (am.modifyInfo nId f) k :=
  ⟨by rw [statusOf, lookup_modifyInfo, if_neg hk, statusOf], by rw [modifyInfo_vvNew],
    by rw [modifyInfo_vvTried]⟩

/-- A change of an entry that keeps its status leaves the filing of all ids alone. -/
theorem sameFiling_modifyInfo_of_status {k : ℤ} {f : CAddrInfo → CAddrInfo}
    (hf : ∀ info, (f info).status = info.status) : am.SameFiling (am.modifyInfo nId f) k :=
  ⟨map_lookup_modifyInfo _ hf k, by rw [modifyInfo_vvNew], by rw [modifyInfo_vvTried]⟩

/-- A swap leaves the filing of all ids alone. -/
theorem sameFiling_swapRandom {k : ℤ} (p q : ℕ) : am.SameFiling (am.swapRandom p q) k := by
  obtain ⟨-, -, hnew, htried, -⟩ := am.swapRandom_frame p q
  exact ⟨am.map_lookup_swapRandom _ (fun _ _ => rfl) p q k, by rw [hnew], by rw [htried]⟩

/-- An id that is in a new bucket has an entry that was not tried. -/
theorem Tabled.status_of_mem (h : am.Tabled X cNew cTried) (hnId : nId ∉ X) {b : Fin 256}
    (hmem : nId ∈ am.vvNew b) : ∃ r, am.statusOf nId = some (r, false) ∧ 1 ≤ r ∧ r ≤ 4 ∧
      ((places am.vvNew nId).card : ℤ) = r ∧ occurrences am.vvTried nId = 0 := by
  have hpos : 0 < (places am.vvNew nId).card := Finset.card_pos.mpr ⟨b, mem_places.mpr hmem⟩
  have hfiled := h.filed nId hnId
  cases hstatus : am.statusOf nId with
  | none =>
    rw [hstatus] at hfiled
    exact absurd hfiled.1 hpos.ne'
  | some status =>
    obtain ⟨r, fInTried⟩ := status
    rw [hstatus] at hfiled
    cases fInTried with
    | true => exact absurd hfiled.2.1 hpos.ne'
    | false => exact ⟨r, rfl, hfiled⟩

/-- An id that is in a tried bucket has an entry that was tried. -/
theorem Tabled.status_of_mem_tried (h : am.Tabled X cNew cTried) (hnId : nId ∉ X) {b : Fin 64}
    (hmem : nId ∈ am.vvTried b) : am.statusOf nId = some (0, true) ∧
      (places am.vvNew nId).card = 0 ∧ occurrences am.vvTried nId = 1 := by
  have hpos : occurrences am.vvTried nId ≠ 0 := fun hzero => occurrences_eq_zero.mp hzero b hmem
  have hfiled := h.filed nId hnId
  cases hstatus : am.statusOf nId with
  | none =>
    rw [hstatus] at hfiled
    exact absurd hfiled.2 hpos
  | some status =>
    obtain ⟨r, fInTried⟩ := status
    rw [hstatus] at hfiled
    cases fInTried with
    | true =>
      obtain ⟨rfl, hplaces, hocc⟩ := hfiled
      exact ⟨rfl, hplaces, hocc⟩
    | false => exact absurd hfiled.2.2.2 hpos

/-! ## Taking an entry out of a new bucket -/

/-- What `dropRef` leaves. -/
structure Dropped (am : CAddrMan) (b : Fin 256) (nId : ℤ) (am' : CAddrMan) : Prop where
  indexed : am'.Indexed
  vvNew : am'.vvNew = Function.update am.vvNew b ((am.vvNew b).erase nId)
  vvTried : am'.vvTried = am.vvTried
  nTried : am'.nTried = am.nTried
  nKey : am'.nKey = am.nKey
  lookup : ∀ k ≠ nId, ∀ {α : Type} (g : CAddrInfo → α),
    (∀ (info : CAddrInfo) (n : ℤ), g { info with nRandomPos := n } = g info) →
      (am'.mapInfo.lookup k).map g = (am.mapInfo.lookup k).map g
  status : ∀ r, am.statusOf nId = some (r, false) →
    (r = 1 ∧ am'.statusOf nId = none ∧ am'.nNew = am.nNew - 1) ∨
      (r ≠ 1 ∧ am'.statusOf nId = some (r - 1, false) ∧ am'.nNew = am.nNew)

/-- **`dropRef`** deletes the entry with its last reference. -/
theorem Indexed.dropRef (h : am.Indexed) {info : CAddrInfo}
    (hinfo : am.mapInfo.lookup nId = some info) (b : Fin 256) :
    am.Dropped b nId (am.dropRef b nId) := by
  unfold CAddrMan.dropRef
  rw [hinfo]
  dsimp only
  have hstatus : ∀ r, am.statusOf nId = some (r, false) → info.nRefCount = r ∧ info.fInTried = false := by
    intro r hr
    rw [statusOf, hinfo, Option.map_some, Option.some.injEq, CAddrInfo.status, Prod.mk.injEq] at hr
    exact hr
  split_ifs with hlast
  · -- the last reference: the entry is swapped to the end of `vRandom` and deleted
    obtain ⟨hpos, hget⟩ := h.position nId info hinfo
    have hlt := (List.getElem?_eq_some_iff.mp hget).1
    have hswap := h.swapRandom info.nRandomPos.toNat (am.vRandom.length - 1)
    obtain ⟨haddr, hcount, hnew, htried, hnNew, hnTried, hkey⟩ :=
      am.swapRandom_frame info.nRandomPos.toNat (am.vRandom.length - 1)
    have hend : (am.swapRandom info.nRandomPos.toNat (am.vRandom.length - 1)).vRandom.getLast? =
        some nId := by
      rw [List.getLast?_eq_getElem?, swapRandom_length, getElem?_swapRandom am hlt (by omega), hget]
    have hmap : ∀ (k : ℤ) {α : Type} (g : CAddrInfo → α),
        (∀ (info : CAddrInfo) (n : ℤ), g { info with nRandomPos := n } = g info) →
          ((am.swapRandom info.nRandomPos.toNat (am.vRandom.length - 1)).mapInfo.lookup k).map g =
            (am.mapInfo.lookup k).map g := fun k _ g hg => am.map_lookup_swapRandom g hg _ _ k
    generalize am.swapRandom info.nRandomPos.toNat (am.vRandom.length - 1) = am₁ at *
    have haddr₁ := hmap nId (fun info => info.addr) fun _ _ => rfl
    rw [hinfo, Option.map_some] at haddr₁
    obtain ⟨info₁, hinfo₁, heq⟩ := Option.map_eq_some_iff.mp haddr₁
    refine ⟨hswap.delete hinfo₁ hend rfl (by rw [heq]) rfl rfl, rfl, htried, hnTried, hkey,
      fun k hk α g hg => ?_, fun r hr => .inl ⟨?_, ?_, ?_⟩⟩
    · exact (congrArg (Option.map g) ((lookup_erase_eq_ite _ _ _).trans (if_neg hk))).trans
        (hmap k g hg)
    · have := (hstatus r hr).1
      omega
    · exact congrArg (Option.map _) ((lookup_erase_eq_ite _ _ _).trans (if_pos rfl))
    · exact congrArg (· - 1) hnNew
  · refine ⟨?_, rfl, by simp, by simp, by simp, fun k hk α g hg => ?_,
      fun r hr => .inr ⟨?_, ?_, by simp⟩⟩
    · exact h.congr (by simp) (by simp) (by simp) (map_lookup_modifyInfo _ fun _ => rfl)
    · exact congrArg (Option.map g) ((lookup_modifyInfo _ _ _ _).trans (if_neg hk))
    · have := (hstatus r hr).1
      omega
    · obtain ⟨hr', hf⟩ := hstatus r hr
      refine (congrArg (Option.map _) ((lookup_modifyInfo _ _ _ _).trans (if_pos rfl))).trans ?_
      rw [hinfo, Option.map_some, Option.map_some, CAddrInfo.status, hr', hf]

/-- **Taking an entry out of a new bucket keeps the tables.** -/
theorem Tabled.dropped (h : am.Tabled X cNew cTried) (hnId : nId ∉ X) {b : Fin 256}
    (hmem : nId ∈ am.vvNew b) (hdrop : am.Dropped b nId am') : am'.Tabled X cNew cTried := by
  obtain ⟨r, hstatus, hpos, hle, hplaces, hocc⟩ := h.status_of_mem hnId hmem
  have hcard : (places am'.vvNew nId).card = (places am.vvNew nId).card - 1 := by
    rw [hdrop.vvNew, places_erase, Finset.card_erase_of_mem (mem_places.mpr hmem)]
  have hsize : ∀ b', (am'.vvNew b').card ≤ 64 := by
    rw [hdrop.vvNew]
    exact forall_update (fun s : Finset ℤ => s.card ≤ 64) h.new_size (Finset.card_erase_le.trans (h.new_size b))
  have hother : ∀ k ∉ X, k ≠ nId → am.SameFiling am' k := by
    intro k _ hk
    refine ⟨hdrop.lookup k hk _ fun _ _ => rfl, ?_, by rw [hdrop.vvTried]⟩
    rw [hdrop.vvNew]
    exact places_update_of_iff (by rw [Finset.mem_erase]; exact ⟨And.right, fun hmem => ⟨hk, hmem⟩⟩)
  have htried : ∀ b', (am'.vvTried b').length ≤ 64 := by rw [hdrop.vvTried]; exact h.tried_size
  rcases hdrop.status r hstatus with ⟨rfl, hstatus', hnNew⟩ | ⟨hne, hstatus', hnNew⟩
  · refine h.change hnId hother ?_ hsize htried ?_ ?_
    · rw [hstatus', hdrop.vvTried]
      exact ⟨by omega, hocc⟩
    · rw [hstatus', hstatus, hnNew]
      simp only [Option.elim_none, Option.elim_some, newWeight]
      norm_num
      ring
    · rw [hstatus', hstatus, hdrop.nTried]
      simp [triedWeight]
  · refine h.change hnId hother ?_ hsize htried ?_ ?_
    · rw [hstatus', hdrop.vvTried]
      exact ⟨by omega, by omega, by omega, hocc⟩
    · rw [hstatus', hstatus, hnNew]
      rfl
    · rw [hstatus', hstatus, hdrop.nTried]
      rfl

/-- The oldest of a list that is not empty is in the list. -/
theorem oldest_mem (am : CAddrMan) {l : List ℤ} (hne : l ≠ []) :
    ∃ nOldest ∈ l, am.oldest l = some nOldest := by
  have hfold : ∀ (l : List ℤ) (nOld : ℤ), ∃ nOldest, (nOldest = nOld ∨ nOldest ∈ l) ∧
      l.foldl am.olderId (some nOld) = some nOldest := by
    intro l
    induction l with
    | nil => exact fun nOld => ⟨nOld, .inl rfl, rfl⟩
    | cons nId l ih =>
      intro nOld
      rw [List.foldl_cons, olderId]
      split_ifs
      · obtain ⟨nOldest, hmem, heq⟩ := ih nId
        exact ⟨nOldest, .inr (List.mem_cons.mpr hmem), heq⟩
      · obtain ⟨nOldest, hmem, heq⟩ := ih nOld
        exact ⟨nOldest, hmem.imp_right (List.mem_cons_of_mem _), heq⟩
  cases l with
  | nil => exact absurd rfl hne
  | cons nId l =>
    obtain ⟨nOldest, hmem, heq⟩ := hfold l nId
    exact ⟨nOldest, List.mem_cons.mpr hmem, heq⟩

theorem getRandInt_lt (n : ℕ) {nMax : ℕ} (h : 0 < nMax) : getRandInt n nMax < nMax := by
  rw [getRandInt, if_neg h.ne']
  exact Nat.mod_lt n h

/-- **`ShrinkNew`** takes an entry out of a bucket that has one. -/
theorem Indexed.shrinkNew (h : am.Indexed) {b : Fin 256} (hne : (am.vvNew b).Nonempty)
    (hknown : ∀ nId ∈ am.vvNew b, nId ∈ am.mapInfo) (rnd : ℕ → ℕ) (nNow : ℤ) :
    ∃ nId ∈ am.vvNew b, am.Dropped b nId (am.shrinkNew rnd nNow b) := by
  have hdrop : ∀ nId ∈ am.vvNew b, am.Dropped b nId (am.dropRef b nId) := by
    intro nId hmem
    obtain ⟨info, hinfo⟩ := Finmap.mem_iff.mp (hknown nId hmem)
    exact h.dropRef hinfo b
  unfold CAddrMan.shrinkNew
  dsimp only
  split
  · next nId hfind =>
    have hmem := mem_idsInOrder.mp (List.mem_of_find?_eq_some hfind)
    exact ⟨nId, hmem, hdrop nId hmem⟩
  · have hlen : 0 < (idsInOrder (am.vvNew b)).length := by
      rw [length_idsInOrder]
      exact Finset.card_pos.mpr hne
    generalize hvNew : idsInOrder (am.vvNew b) = vNew at *
    generalize hn : (List.range 4).map (fun i => getRandInt (rnd i) vNew.length) = n
    have hcandidates : (vNew.zipIdx.filter fun p => decide (p.2 ∈ n)).map Prod.fst ≠ [] := by
      have hlt := getRandInt_lt (rnd 0) hlen
      refine List.ne_nil_of_mem (a := vNew[getRandInt (rnd 0) vNew.length])
        (List.mem_map.mpr ⟨(_, getRandInt (rnd 0) vNew.length), List.mem_filter.mpr ⟨?_, ?_⟩, rfl⟩)
      · exact List.mk_mem_zipIdx_iff_getElem?.mpr (List.getElem?_eq_getElem hlt)
      · rw [← hn]
        exact decide_eq_true (List.mem_map.mpr ⟨0, by simp, rfl⟩)
    obtain ⟨nOldest, hmem, heq⟩ := am.oldest_mem hcandidates
    rw [heq]
    have hin : nOldest ∈ am.vvNew b := by
      obtain ⟨p, hp, rfl⟩ := List.mem_map.mp hmem
      have := List.fst_mem_of_mem_zipIdx (List.mem_of_mem_filter hp)
      rwa [← hvNew, mem_idsInOrder] at this
    exact ⟨nOldest, hin, hdrop nOldest hin⟩

/-! ## The tried table -/

/-- Every tried entry is in the bucket that its hash selects. -/
def InBuckets (K : AddrParams) (am : CAddrMan) : Prop :=
  ∀ b, ∀ nId ∈ am.vvTried b, ∀ info, am.mapInfo.lookup nId = some info →
    info.getTriedBucket K am.nKey = b

/-- The tried buckets and the services in them stay as they are. -/
structure TriedFrame (am am' : CAddrMan) : Prop where
  nKey : am'.nKey = am.nKey
  vvTried : am'.vvTried = am.vvTried
  service : ∀ b, ∀ nId ∈ am.vvTried b, (am'.mapInfo.lookup nId).map (·.toCService) =
    (am.mapInfo.lookup nId).map (·.toCService)

theorem TriedFrame.refl (am : CAddrMan) : am.TriedFrame am := ⟨rfl, rfl, fun _ _ _ => rfl⟩

theorem TriedFrame.trans {am'' : CAddrMan} (h : am.TriedFrame am') (h' : am'.TriedFrame am'') :
    am.TriedFrame am'' :=
  ⟨h'.nKey.trans h.nKey, h'.vvTried.trans h.vvTried, fun b nId hmem =>
    (h'.service b nId (h.vvTried ▸ hmem)).trans (h.service b nId hmem)⟩

/-- The bucket depends on the service only. -/
theorem getTriedBucket_congr (K : AddrParams) (nKey : List UInt8) {info info' : CAddrInfo}
    (h : info.toCService = info'.toCService) :
    info.getTriedBucket K nKey = info'.getTriedBucket K nKey := by
  simp only [CAddrInfo.getTriedBucket, h]

/-- Tried entries that stay as they are stay in their buckets. -/
theorem InBuckets.congr {K : AddrParams} (h : am.InBuckets K) (hframe : am.TriedFrame am') :
    am'.InBuckets K := by
  intro b nId hmem info hinfo
  rw [hframe.vvTried] at hmem
  have hservice := hframe.service b nId hmem
  rw [hinfo, Option.map_some] at hservice
  obtain ⟨old, hold, heq⟩ := Option.map_eq_some_iff.mp hservice.symm
  rw [hframe.nKey, ← getTriedBucket_congr K am.nKey heq]
  exact h b nId hmem old hold

/-- A change of an entry that keeps its service. -/
theorem triedFrame_modifyInfo (am : CAddrMan) (nId : ℤ) {f : CAddrInfo → CAddrInfo}
    (hf : ∀ info, (f info).toCService = info.toCService) : am.TriedFrame (am.modifyInfo nId f) :=
  ⟨modifyInfo_nKey, modifyInfo_vvTried, fun _ k _ => map_lookup_modifyInfo _ hf k⟩

theorem triedFrame_swapRandom (am : CAddrMan) (p q : ℕ) : am.TriedFrame (am.swapRandom p q) := by
  obtain ⟨-, -, -, htried, -, -, hkey⟩ := am.swapRandom_frame p q
  exact ⟨hkey, htried, fun _ k _ => am.map_lookup_swapRandom _ (fun _ _ => rfl) p q k⟩

/-- Taking an entry out of a new bucket leaves the tried table alone. -/
theorem Dropped.triedFrame {b : Fin 256} (h : am.Dropped b nId am')
    (hocc : occurrences am.vvTried nId = 0) : am.TriedFrame am' := by
  refine ⟨h.nKey, h.vvTried, fun b' k hmem => h.lookup k ?_ _ fun _ _ => rfl⟩
  rintro rfl
  exact occurrences_eq_zero.mp hocc b' hmem

/-! ## Adding a reference -/

/-- The indexes and the tables agree with the entries. -/
structure Valid (am : CAddrMan) : Prop where
  indexed : am.Indexed
  tabled : am.Tabled ∅ 0 0

/-- Ids in new buckets have entries. -/
theorem Tabled.mem_mapInfo (h : am.Tabled X cNew cTried) (hnId : nId ∉ X) {b : Fin 256}
    (hmem : nId ∈ am.vvNew b) : nId ∈ am.mapInfo := by
  obtain ⟨r, hstatus, -⟩ := h.status_of_mem hnId hmem
  obtain ⟨info, hinfo, -⟩ := Option.map_eq_some_iff.mp hstatus
  exact Finmap.mem_of_lookup_eq_some hinfo

/-- An entry that is not in account comes back as a new one. -/
theorem Tabled.close_new (h : am.Tabled {nId} 1 0) {r : ℤ} (hstatus : am.statusOf nId = some (r, false))
    (hpos : 1 ≤ r) (hle : r ≤ 4) (hplaces : ((places am.vvNew nId).card : ℤ) = r)
    (hocc : occurrences am.vvTried nId = 0) : am.Tabled ∅ 0 0 := by
  have hopen : am.Tabled {nId} ((am.statusOf nId).elim 0 newWeight)
      ((am.statusOf nId).elim 0 triedWeight) := by
    rw [hstatus]
    exact h
  refine hopen.close ?_
  rw [hstatus]
  exact ⟨hpos, hle, hplaces, hocc⟩

/-- Putting an id into a new bucket that has room leaves the tables of other ids alone. -/
theorem Tabled.insert_new (h : am.Tabled {nId} cNew cTried) {b : Fin 256} (hroom : (am.vvNew b).card < 64) :
    ({ am with vvNew := Function.update am.vvNew b (insert nId (am.vvNew b)) } :
      CAddrMan).Tabled {nId} cNew cTried := by
  have hsize : ∀ b', (Function.update am.vvNew b (insert nId (am.vvNew b)) b').card ≤ 64 :=
    forall_update (fun s : Finset ℤ => s.card ≤ 64) h.new_size ((Finset.card_insert_le _ _).trans hroom)
  refine h.inside (fun k hk => ⟨rfl, ?_, rfl⟩) hsize h.tried_size rfl rfl
  refine places_update_of_iff ?_
  rw [Finset.mem_insert, or_iff_right (by simpa using hk)]

/-- **A reference more** keeps the indexes and the tables, and leaves the tried table alone. -/
theorem Indexed.addRef (K : AddrParams) (h : am.Indexed) (ht : am.Tabled {nId} 1 0) {r : ℤ}
    (hstatus : am.statusOf nId = some (r, false)) (hnonneg : 0 ≤ r) (hle : r ≤ 3)
    (hplaces : ((places am.vvNew nId).card : ℤ) = r) (hocc : occurrences am.vvTried nId = 0)
    (rnd : ℕ → ℕ) (nNow : ℤ) (source : CNetAddr) :
    (am.addRef K rnd nNow nId source).Valid ∧ am.TriedFrame (am.addRef K rnd nNow nId source) := by
  obtain ⟨info, hinfo, hinfo'⟩ := Option.map_eq_some_iff.mp hstatus
  unfold CAddrMan.addRef
  rw [hinfo]
  dsimp only
  generalize info.getNewBucket K am.nKey source = b
  by_cases hmem : nId ∈ am.vvNew b
  · rw [if_pos hmem]
    have hcard : 0 < (places am.vvNew nId).card := Finset.card_pos.mpr ⟨b, mem_places.mpr hmem⟩
    exact ⟨⟨h, ht.close_new hstatus (by omega) (by omega) hplaces hocc⟩, .refl am⟩
  · rw [if_neg hmem]
    -- one reference more, then room in the bucket, then the id in the bucket
    generalize ham₁ : am.modifyInfo nId (fun info => { info with nRefCount := info.nRefCount + 1 }) =
      am₁
    have h₁ : am₁.Indexed := by rw [← ham₁]; exact h.modifyInfo fun _ => rfl
    have ht₁ : am₁.Tabled {nId} 1 0 := by
      rw [← ham₁]
      exact ht.inside (fun k hk => sameFiling_modifyInfo (by simpa using hk) _) (by simpa using ht.new_size)
        (by simpa using ht.tried_size) (by simp) (by simp)
    have hstatus₁ : am₁.statusOf nId = some (r + 1, false) := by
      rw [← ham₁, statusOf, lookup_modifyInfo, if_pos rfl, hinfo, Option.map_some, Option.map_some]
      rw [CAddrInfo.status, Prod.mk.injEq] at hinfo'
      rw [CAddrInfo.status, hinfo'.1, hinfo'.2]
    have hframe₁ : am.TriedFrame am₁ := by
      rw [← ham₁]
      exact am.triedFrame_modifyInfo nId fun _ => rfl
    have hvvNew₁ : am₁.vvNew = am.vvNew := by rw [← ham₁, modifyInfo_vvNew]
    have hvvTried₁ : am₁.vvTried = am.vvTried := by rw [← ham₁, modifyInfo_vvTried]
    rw [← hvvNew₁] at hmem hplaces
    rw [← hvvTried₁] at hocc
    obtain ⟨am₂, ham₂, hframe₂, h₂, ht₂, hroom, hstatus₂, hplaces₂, hocc₂, hmem₂⟩ :
        ∃ am₂, (if (am₁.vvNew b).card = 64 then am₁.shrinkNew rnd nNow b else am₁) = am₂ ∧
          am₁.TriedFrame am₂ ∧ am₂.Indexed ∧ am₂.Tabled {nId} 1 0 ∧ (am₂.vvNew b).card < 64 ∧
          am₂.statusOf nId = some (r + 1, false) ∧ places am₂.vvNew nId = places am₁.vvNew nId ∧
          occurrences am₂.vvTried nId = 0 ∧ nId ∉ am₂.vvNew b := by
      split_ifs with hfull
      · have hother : ∀ k ∈ am₁.vvNew b, k ∉ ({nId} : Finset ℤ) := by
          intro k hk heq
          rw [Finset.mem_singleton.mp heq] at hk
          exact hmem hk
        obtain ⟨j, hj, hdrop⟩ := h₁.shrinkNew (Finset.card_pos.mp (by omega))
          (fun k hk => ht₁.mem_mapInfo (hother k hk) hk) rnd nNow
        have hne : nId ≠ j := by
          rintro rfl
          exact hmem hj
        obtain ⟨-, -, -, -, -, hoccj⟩ := ht₁.status_of_mem (hother j hj) hj
        refine ⟨_, rfl, hdrop.triedFrame hoccj, hdrop.indexed, ht₁.dropped (hother j hj) hj hdrop, ?_,
          (hdrop.lookup nId hne _ fun _ _ => rfl).trans hstatus₁, ?_, by rw [hdrop.vvTried, hocc], ?_⟩
        · rw [hdrop.vvNew, Function.update_self, Finset.card_erase_of_mem hj]
          omega
        · rw [hdrop.vvNew]
          refine places_update_of_iff ?_
          rw [Finset.mem_erase]
          exact ⟨And.right, fun hmem => ⟨hne, hmem⟩⟩
        · rw [hdrop.vvNew, Function.update_self]
          exact fun hmem' => hmem (Finset.mem_of_mem_erase hmem')
      · exact ⟨_, rfl, .refl am₁, h₁, ht₁, lt_of_le_of_ne (ht₁.new_size b) hfull, hstatus₁, rfl, hocc, hmem⟩
    rw [ham₂]
    refine ⟨⟨h₂.congr rfl rfl rfl fun _ => rfl, ?_⟩,
      hframe₁.trans (hframe₂.trans ⟨rfl, rfl, fun _ _ _ => rfl⟩)⟩
    refine (ht₂.insert_new hroom).close_new hstatus₂ (by omega) (by omega) ?_ hocc₂
    rw [places_insert, Finset.card_insert_of_notMem (by rwa [mem_places]), hplaces₂]
    push_cast
    rw [hplaces]

end CAddrMan

end FoxCoin
