import FoxCoin.AddrTables

/-! # Moving an entry to the tried table

`MakeTried` takes an entry out of all new buckets and files it in the tried bucket its hash selects.
A full bucket first gives one of its entries back to a new bucket. -/

namespace FoxCoin

open Overlay Buckets

namespace CAddrMan

variable {am am' : CAddrMan} {nId : ℤ}

/-! ## Selecting an entry to replace -/

/-- The older of two entries is one of them. -/
theorem older_snd_lt (am : CAddrMan) {nTemp : ℤ} {nPos n : ℕ} {nOldest : Option (ℤ × ℕ)}
    (hpos : nPos < n) (hold : ∀ p ∈ nOldest, p.2 < n) : (am.older nTemp nPos nOldest).2 < n := by
  cases nOldest with
  | none => exact hpos
  | some p =>
    rw [older]
    split_ifs
    · exact hpos
    · exact hold p rfl

/-- The loop of `SelectTried` shuffles the bucket, and the position it finds is in the bucket. -/
theorem selectTriedLoop_spec (am : CAddrMan) (rnd : ℕ → ℕ) (is : List ℕ) (vTried : List ℤ)
    (nOldest : Option (ℤ × ℕ)) (his : ∀ i ∈ is, i < vTried.length)
    (hold : ∀ p ∈ nOldest, p.2 < vTried.length) (hsome : is ≠ [] ∨ nOldest.isSome = true) :
    (am.selectTriedLoop rnd is vTried nOldest).1.Perm vTried ∧
      ∃ p, (am.selectTriedLoop rnd is vTried nOldest).2 = some p ∧ p.2 < vTried.length := by
  induction is generalizing vTried nOldest with
  | nil =>
    obtain ⟨p, hp⟩ := Option.isSome_iff_exists.mp (hsome.resolve_left fun hne => hne rfl)
    exact ⟨.refl _, p, hp, hold p hp⟩
  | cons i is ih =>
    obtain ⟨hi, his⟩ := List.forall_mem_cons.mp his
    have hpos : getRandInt (rnd i) (vTried.length - i) + i < vTried.length := by
      have := getRandInt_lt (rnd i) (Nat.sub_pos_of_lt hi)
      omega
    rw [selectTriedLoop]
    generalize getRandInt (rnd i) (vTried.length - i) + i = nPos at hpos
    rw [List.getElem?_eq_getElem hpos, List.getElem?_eq_getElem hi]
    dsimp only
    have hlen : ((vTried.set nPos vTried[i]).set i vTried[nPos]).length = vTried.length := by simp
    obtain ⟨hperm, p, hp, hlt⟩ := ih ((vTried.set nPos vTried[i]).set i vTried[nPos])
      (some (am.older vTried[nPos] nPos nOldest)) (fun j hj => by rw [hlen]; exact his j hj)
      (fun p hp => by
        rw [hlen, ← Option.some.inj hp]
        exact am.older_snd_lt hpos hold) (.inr rfl)
    exact ⟨hperm.trans (List.set_set_perm hpos hi), p, hp, hlen ▸ hlt⟩

/-- **`SelectTried`** shuffles the bucket and finds a position in it, unless it is empty. -/
theorem selectTried_spec (am : CAddrMan) (rnd : ℕ → ℕ) {nKBucket : Fin 64}
    (hne : am.vvTried nKBucket ≠ []) :
    (am.selectTried rnd nKBucket).1.Perm (am.vvTried nKBucket) ∧
      ∃ nPos, (am.selectTried rnd nKBucket).2 = some nPos ∧
        nPos < (am.vvTried nKBucket).length := by
  have hpos := List.length_pos_of_ne_nil hne
  obtain ⟨hperm, p, hp, hlt⟩ := am.selectTriedLoop_spec rnd
    (List.range (min 4 (am.vvTried nKBucket).length)) (am.vvTried nKBucket) none
    (fun i hi => by have := List.mem_range.mp hi; omega) (by rintro p ⟨⟩)
    (.inl (by rw [ne_eq, List.range_eq_nil]; omega))
  exact ⟨hperm, p.2, congrArg (Option.map Prod.snd) hp, hlt⟩

/-! ## Leaving the new table -/

/-- What the first half of `MakeTried` leaves: the entry is in no bucket, and not in the counts. -/
structure Left (am : CAddrMan) (nId : ℤ) (am' : CAddrMan) : Prop where
  indexed : am'.Indexed
  tabled : am'.Tabled {nId} 0 0
  status : am'.statusOf nId = some (0, false)
  places : places am'.vvNew nId = ∅
  occurrences : occurrences am'.vvTried nId = 0
  nKey : am'.nKey = am.nKey
  vvNew : am'.vvNew = fun b => (am.vvNew b).erase nId
  vvTried : am'.vvTried = am.vvTried
  lookup : ∀ k ≠ nId, am'.mapInfo.lookup k = am.mapInfo.lookup k

/-- The entry leaves the new table. -/
theorem Valid.leaveNew (h : am.Valid) {r : ℤ} (hstatus : am.statusOf nId = some (r, false)) :
    am.Left nId (am.leaveNew nId) := by
  have hfiled := h.tabled.filed nId (Finset.notMem_empty nId)
  rw [hstatus] at hfiled
  obtain ⟨-, -, hplaces, hocc⟩ := hfiled
  have hopen := h.tabled.open nId
  rw [hstatus] at hopen
  obtain ⟨info, hinfo, hinfo'⟩ := Option.map_eq_some_iff.mp hstatus
  rw [CAddrInfo.status, Prod.mk.injEq] at hinfo'
  have hgone : Buckets.places (fun b => (am.vvNew b).erase nId) nId = ∅ :=
    places_eq_empty.mpr fun b => Finset.notMem_erase nId _
  refine ⟨?_, ?_, ?_, hgone, ?_, ?_, rfl, ?_, fun k hk => ?_⟩
  · exact h.indexed.congr (by simp [CAddrMan.leaveNew]) (by simp [CAddrMan.leaveNew])
      (by simp [CAddrMan.leaveNew]) (map_lookup_modifyInfo _ fun _ => rfl)
  · refine hopen.inside (fun k hk => ?_) (fun b => ?_) ?_ ?_ ?_
    · have hne : k ≠ nId := by simpa using hk
      refine ⟨(sameFiling_modifyInfo hne _).status, ?_, (sameFiling_modifyInfo hne _).occurrences⟩
      ext b
      rw [mem_places, mem_places]
      exact ⟨Finset.mem_of_mem_erase, fun hmem => Finset.mem_erase.mpr ⟨hne, hmem⟩⟩
    · exact Finset.card_erase_le.trans (h.tabled.new_size b)
    · simpa [CAddrMan.leaveNew] using h.tabled.tried_size
    · show am.nNew - 1 - 0 = am.nNew - newWeight (r, false)
      simp [newWeight]
    · simp [CAddrMan.leaveNew, triedWeight]
  · refine (congrArg (Option.map _) ((lookup_modifyInfo _ _ _ _).trans (if_pos rfl))).trans ?_
    rw [hinfo, Option.map_some, Option.map_some, CAddrInfo.status, hinfo'.1, hinfo'.2]
    have hcard : ((Finset.univ.filter fun b => nId ∈ am.vvNew b).card : ℤ) = r := hplaces
    rw [hcard, sub_self]
  · simpa [CAddrMan.leaveNew] using hocc
  · simp [CAddrMan.leaveNew]
  · simp [CAddrMan.leaveNew]
  · exact (lookup_modifyInfo _ _ _ _).trans (if_neg hk)

/-- An entry that is not in account comes back as a tried one. -/
theorem Tabled.close_tried (h : am.Tabled {nId} 0 1) (hstatus : am.statusOf nId = some (0, true))
    (hplaces : places am.vvNew nId = ∅) (hocc : occurrences am.vvTried nId = 1) :
    am.Tabled ∅ 0 0 := by
  have hopen : am.Tabled {nId} ((am.statusOf nId).elim 0 newWeight)
      ((am.statusOf nId).elim 0 triedWeight) := by
    rw [hstatus]
    exact h
  refine hopen.close ?_
  rw [hstatus, hplaces]
  exact ⟨rfl, rfl, hocc⟩

/-! ## Entering the tried table -/

/-- Marking an entry as tried. -/
theorem statusOf_setTried {r : ℤ} (hstatus : am.statusOf nId = some (r, false)) :
    (am.modifyInfo nId fun info => { info with fInTried := true }).statusOf nId = some (r, true) := by
  obtain ⟨info, hinfo, hinfo'⟩ := Option.map_eq_some_iff.mp hstatus
  rw [CAddrInfo.status, Prod.mk.injEq] at hinfo'
  rw [statusOf, lookup_modifyInfo, if_pos rfl, hinfo, Option.map_some, Option.map_some,
    CAddrInfo.status, hinfo'.1]

/-- **A tried bucket with room** takes the entry. -/
theorem Left.enter (h : am.Left nId am') {k : Fin 64} (hroom : (am'.vvTried k).length < 64) :
    ({ am'.modifyInfo nId fun info => { info with fInTried := true } with
        vvTried := Function.update am'.vvTried k (am'.vvTried k ++ [nId])
        nTried := am'.nTried + 1 } : CAddrMan).Valid := by
  have hnot : nId ∉ am'.vvTried k := occurrences_eq_zero.mp h.occurrences k
  refine ⟨?_, Tabled.close_tried ?_ (statusOf_setTried h.status) ?_ ?_⟩
  · exact h.indexed.congr (by simp) (by simp) (by simp) (map_lookup_modifyInfo _ fun _ => rfl)
  · refine h.tabled.inside (fun j hj => ?_) (by simpa using h.tabled.new_size) ?_ (by simp) (by simp)
    · have hne : j ≠ nId := by simpa using hj
      have hsame : am'.SameFiling (am'.modifyInfo nId fun info => { info with fInTried := true }) j :=
        sameFiling_modifyInfo hne _
      refine ⟨hsame.status, hsame.places, ?_⟩
      exact occurrences_update_of_count (by simp [hne.symm])
    · exact forall_update (fun l : List ℤ => l.length ≤ 64) h.tabled.tried_size
        (by rw [List.length_append, List.length_singleton]; omega)
  · simpa using h.places
  · have hsum := occurrences_update am'.vvTried k (am'.vvTried k ++ [nId]) nId
    rw [List.count_append, List.count_singleton_self, List.count_eq_zero_of_not_mem hnot,
      h.occurrences, add_zero, zero_add, zero_add] at hsum
    exact hsum

/-- **A full tried bucket** takes the entry in the place of another one, which goes back to a new
bucket with room. -/
theorem Left.replace (h : am.Left nId am') {k : Fin 64} {vTried : List ℤ}
    (hperm : vTried.Perm (am'.vvTried k)) {nPos : ℕ} {nOld : ℤ} (hold : vTried[nPos]? = some nOld)
    {b : Fin 256} (hroom : (am'.vvNew b).card < 64) :
    ({ (am'.modifyInfo nOld fun info =>
          { info with fInTried := false, nRefCount := 1 }).modifyInfo nId
            fun info => { info with fInTried := true } with
        vvNew := Function.update am'.vvNew b (insert nOld (am'.vvNew b))
        nNew := am'.nNew + 1
        vvTried := Function.update am'.vvTried k (vTried.set nPos nId) } : CAddrMan).Valid := by
  have hnot : nId ∉ am'.vvTried k := occurrences_eq_zero.mp h.occurrences k
  have hmem : nOld ∈ am'.vvTried k := hperm.mem_iff.mp (List.mem_of_getElem? hold)
  have hne : nOld ≠ nId := by
    rintro rfl
    exact hnot hmem
  obtain ⟨hstatusOld, hplacesOld, hoccOld⟩ := h.tabled.status_of_mem_tried (by simpa using hne) hmem
  have hlt := (List.getElem?_eq_some_iff.mp hold).1
  have hval := (List.getElem?_eq_some_iff.mp hold).2
  have hcountOld : (am'.vvTried k).count nOld = 1 := by
    have hpos := List.count_pos_iff.mpr hmem
    have hle := count_le_occurrences am'.vvTried k nOld
    omega
  -- how often an id occurs after the replacement
  have hset : ∀ j, (vTried.set nPos nId).count j = (am'.vvTried k).count j -
      (if nOld = j then 1 else 0) + (if nId = j then 1 else 0) := by
    intro j
    rw [List.count_set hlt, hval, hperm.count_eq]
    simp
  have hocc : ∀ j, Buckets.occurrences (Function.update am'.vvTried k (vTried.set nPos nId)) j +
      (am'.vvTried k).count j =
        Buckets.occurrences am'.vvTried j + (vTried.set nPos nId).count j :=
    occurrences_update am'.vvTried k _
  have hsize : ∀ b', (Function.update am'.vvNew b (insert nOld (am'.vvNew b)) b').card ≤ 64 :=
    forall_update (fun s : Finset ℤ => s.card ≤ 64) h.tabled.new_size
      ((Finset.card_insert_le _ _).trans hroom)
  have hsizeTried : ∀ k', (Function.update am'.vvTried k (vTried.set nPos nId) k').length ≤ 64 :=
    forall_update (fun l : List ℤ => l.length ≤ 64) h.tabled.tried_size
      (by rw [List.length_set, hperm.length_eq]; exact h.tabled.tried_size k)
  have hstatuses : ((am'.modifyInfo nOld fun info =>
      { info with fInTried := false, nRefCount := 1 }).modifyInfo nId
        fun info => { info with fInTried := true }).statusOf = fun j =>
      if j = nId then some (0, true) else if j = nOld then some (1, false) else am'.statusOf j := by
    funext j
    have hid : (am'.modifyInfo nOld fun info =>
        { info with fInTried := false, nRefCount := 1 }).statusOf nId = some (0, false) := by
      rw [(sameFiling_modifyInfo hne.symm _).status, h.status]
    by_cases hj : j = nId
    · rw [if_pos hj, hj, statusOf_setTried hid]
    · rw [if_neg hj, (sameFiling_modifyInfo hj _).status]
      by_cases hj' : j = nOld
      · obtain ⟨info, hinfo, -⟩ := Option.map_eq_some_iff.mp hstatusOld
        rw [if_pos hj', hj', statusOf, lookup_modifyInfo, if_pos rfl, hinfo]
        rfl
      · rw [if_neg hj', (sameFiling_modifyInfo hj' _).status]
  have hindexed : ((am'.modifyInfo nOld fun info =>
      { info with fInTried := false, nRefCount := 1 }).modifyInfo nId
        fun info => { info with fInTried := true }).Indexed := by
    refine Indexed.modifyInfo (Indexed.modifyInfo h.indexed ?_) ?_ <;> exact fun _ => rfl
  have hnTried : ((am'.modifyInfo nOld fun info =>
      { info with fInTried := false, nRefCount := 1 }).modifyInfo nId
        fun info => { info with fInTried := true }).nTried = am'.nTried := by simp
  generalize (am'.modifyInfo nOld fun info =>
    { info with fInTried := false, nRefCount := 1 }).modifyInfo nId
      (fun info => { info with fInTried := true }) = am₁ at *
  generalize ham₂ : ({ am₁ with
    vvNew := Function.update am'.vvNew b (insert nOld (am'.vvNew b))
    nNew := am'.nNew + 1
    vvTried := Function.update am'.vvTried k (vTried.set nPos nId) } : CAddrMan) = am₂
  have hvvNew : am₂.vvNew = Function.update am'.vvNew b (insert nOld (am'.vvNew b)) := by rw [← ham₂]
  have hvvTried : am₂.vvTried = Function.update am'.vvTried k (vTried.set nPos nId) := by rw [← ham₂]
  have hstatus₂ : ∀ j, am₂.statusOf j =
      if j = nId then some (0, true) else if j = nOld then some (1, false) else am'.statusOf j := by
    intro j
    rw [← congrFun hstatuses j, ← ham₂]
    rfl
  rw [← hvvNew] at hsize
  rw [← hvvTried] at hocc hsizeTried
  have hstatusId : am₂.statusOf nId = some (0, true) := by rw [hstatus₂, if_pos rfl]
  have hstatusOld₂ : am₂.statusOf nOld = some (1, false) := by
    rw [hstatus₂, if_neg hne, if_pos rfl]
  have hplaces : ∀ j, j ≠ nOld → Buckets.places am₂.vvNew j = Buckets.places am'.vvNew j := by
    intro j hj
    rw [hvvNew]
    exact places_update_of_iff (by rw [Finset.mem_insert, or_iff_right hj])
  have hfiledOld : Filed (am₂.statusOf nOld) (Buckets.places am₂.vvNew nOld).card
      (Buckets.occurrences am₂.vvTried nOld) := by
    have hocc₂ := hocc nOld
    rw [hset, if_pos rfl, if_neg hne.symm, hcountOld, hoccOld] at hocc₂
    rw [hstatusOld₂, hvvNew, places_insert, Finset.card_eq_zero.mp hplacesOld]
    exact ⟨le_rfl, by omega, rfl, by omega⟩
  have hother : ∀ j ∉ ({nId} : Finset ℤ), j ≠ nOld → am'.SameFiling am₂ j := by
    intro j hj hj'
    have hj : j ≠ nId := by simpa using hj
    have hocc₂ := hocc j
    rw [hset, if_neg hj'.symm, if_neg hj.symm] at hocc₂
    exact ⟨by rw [hstatus₂, if_neg hj, if_neg hj'], hplaces j hj', by omega⟩
  have hoccId : Buckets.occurrences am₂.vvTried nId = 1 := by
    have hocc₂ := hocc nId
    rw [hset, if_neg hne, if_pos rfl, h.occurrences] at hocc₂
    omega
  refine ⟨hindexed.congr (by rw [← ham₂]) (by rw [← ham₂]) (by rw [← ham₂]) (by rw [← ham₂]; simp),
    (h.tabled.change (by simpa using hne) hother hfiledOld hsize hsizeTried ?_ ?_).close_tried hstatusId
      (by rw [hplaces nId hne.symm, h.places]) hoccId⟩
  · rw [hstatusOld₂, hstatusOld, ← ham₂]
    simp only [Option.elim_some, newWeight]
    norm_num
  · rw [hstatusOld₂, hstatusOld, ← ham₂, hnTried]
    simp only [Option.elim_some, triedWeight]
    norm_num

/-- An id is found in the new bucket it is in. -/
theorem mem_of_originOf {nRnd : ℕ} {b : Fin 256} (h : am.originOf nRnd nId = some b) :
    nId ∈ am.vvNew b := by
  simpa using List.find?_some h

/-- **`MakeTried`** keeps the indexes and the tables. -/
theorem Valid.makeTried (K : AddrParams) (h : am.Valid) {r : ℤ}
    (hstatus : am.statusOf nId = some (r, false)) {nOrigin : Fin 256}
    (horigin : nId ∈ am.vvNew nOrigin) (rnd : ℕ → ℕ) : (am.makeTried K rnd nId nOrigin).Valid := by
  have hleft := h.leaveNew hstatus
  unfold CAddrMan.makeTried
  have hcard : ((am.leaveNew nId).vvNew nOrigin).card < 64 := by
    rw [hleft.vvNew]
    have hpos : 0 < (am.vvNew nOrigin).card := Finset.card_pos.mpr ⟨nId, horigin⟩
    have hle := h.tabled.new_size nOrigin
    rw [Finset.card_erase_of_mem horigin]
    omega
  generalize am.leaveNew nId = am' at hleft hcard
  obtain ⟨info, hinfo, -⟩ := Option.map_eq_some_iff.mp hleft.status
  dsimp only
  rw [hinfo]
  dsimp only
  generalize info.getTriedBucket K am'.nKey = k
  split_ifs with hroom
  · exact hleft.enter hroom
  · -- the bucket is full: an entry of it goes back to the new table, where the first one came from
    -- if its own bucket has no room
    have hne : am'.vvTried k ≠ [] := by
      rintro hnil
      rw [hnil] at hroom
      exact hroom (by simp)
    obtain ⟨hperm, nPos, hpos, hlt⟩ := am'.selectTried_spec rnd hne
    generalize am'.selectTried rnd k = out at *
    obtain ⟨vTried, nPos'⟩ := out
    simp only at hpos hperm
    subst hpos
    rw [← hperm.length_eq] at hlt
    rw [Option.bind_some, List.getElem?_eq_getElem hlt, Option.map_some]
    dsimp only
    have hmemOld := hperm.mem_iff.mp (List.getElem_mem hlt)
    have hneOld : vTried[nPos] ∉ ({nId} : Finset ℤ) := by
      intro heq
      rw [Finset.mem_singleton.mp heq] at hmemOld
      exact occurrences_eq_zero.mp hleft.occurrences k hmemOld
    obtain ⟨hstatusOld, -⟩ := hleft.tabled.status_of_mem_tried hneOld hmemOld
    obtain ⟨infoOld, hinfoOld, -⟩ := Option.map_eq_some_iff.mp hstatusOld
    rw [hinfoOld]
    dsimp only
    generalize infoOld.getNewBucket K am'.nKey infoOld.source = nUBucket
    have hroomOld : (am'.vvNew (if (am'.vvNew nUBucket).card < 64 then nUBucket else nOrigin)).card <
        64 := by
      split_ifs with hlt'
      · exact hlt'
      · exact hcard
    have hreplaced := hleft.replace hperm (List.getElem?_eq_getElem hlt) hroomOld
    simpa using hreplaced

/-! ## Buckets by hash -/

/-- A bucket that takes an id its hash selects it for. -/
theorem InBuckets.update {K : AddrParams} (h : am.InBuckets K) {info : CAddrInfo}
    (hinfo : am.mapInfo.lookup nId = some info) {k : Fin 64} (hk : info.getTriedBucket K am.nKey = k)
    {l : List ℤ} (hl : ∀ j ∈ l, j ∈ am.vvTried k ∨ j = nId) (hkey : am'.nKey = am.nKey)
    (htried : am'.vvTried = Function.update am.vvTried k l)
    (hservice : ∀ j, (am'.mapInfo.lookup j).map (·.toCService) =
      (am.mapInfo.lookup j).map (·.toCService)) : am'.InBuckets K := by
  intro b j hmem info' hinfo'
  have hold := hservice j
  rw [hinfo', Option.map_some] at hold
  obtain ⟨old, hlookup, heq⟩ := Option.map_eq_some_iff.mp hold.symm
  rw [hkey, ← getTriedBucket_congr K am.nKey heq]
  rw [htried] at hmem
  by_cases hb : b = k
  · rw [hb, Function.update_self] at hmem
    rcases hl j hmem with hmem | rfl
    · rw [hb]
      exact h k j hmem old hlookup
    · rw [hinfo, Option.some.injEq] at hlookup
      rw [← hlookup, hk, hb]
  · rw [Function.update_of_ne hb] at hmem
    exact h b j hmem old hlookup

/-- A change of an entry that keeps its service keeps all services. -/
theorem map_service_modifyInfo (am : CAddrMan) (nId : ℤ) {f : CAddrInfo → CAddrInfo}
    (hf : ∀ info, (f info).toCService = info.toCService) (j : ℤ) :
    ((am.modifyInfo nId f).mapInfo.lookup j).map (·.toCService) =
      (am.mapInfo.lookup j).map (·.toCService) := map_lookup_modifyInfo _ hf j

/-- **`MakeTried`** files the entry by its hash. -/
theorem InBuckets.makeTried {K : AddrParams} (hbuckets : am.InBuckets K) (h : am.Valid) {r : ℤ}
    (hstatus : am.statusOf nId = some (r, false)) (nOrigin : Fin 256) (rnd : ℕ → ℕ) :
    (am.makeTried K rnd nId nOrigin).InBuckets K := by
  have hleft := h.leaveNew hstatus
  have hframe : am.TriedFrame (am.leaveNew nId) := by
    refine ⟨hleft.nKey, hleft.vvTried, fun _ j _ => map_service_modifyInfo am nId ?_ j⟩
    exact fun _ => rfl
  have hbuckets' := hbuckets.congr hframe
  unfold CAddrMan.makeTried
  generalize am.leaveNew nId = am' at hleft hbuckets'
  obtain ⟨info, hinfo, -⟩ := Option.map_eq_some_iff.mp hleft.status
  dsimp only
  rw [hinfo]
  dsimp only
  generalize hk : info.getTriedBucket K am'.nKey = k
  split_ifs with hroom
  · refine hbuckets'.update hinfo hk (l := am'.vvTried k ++ [nId]) ?_ modifyInfo_nKey rfl
      (map_service_modifyInfo am' nId ?_)
    · exact fun j hj => (List.mem_append.mp hj).imp_right List.mem_singleton.mp
    · exact fun _ => rfl
  · have hne : am'.vvTried k ≠ [] := by
      rintro hnil
      rw [hnil] at hroom
      exact hroom (by simp)
    obtain ⟨hperm, -⟩ := am'.selectTried_spec rnd hne
    generalize am'.selectTried rnd k = out at *
    obtain ⟨vTried, nPos⟩ := out
    dsimp only at hperm ⊢
    split
    · exact hbuckets'
    · next nPos nOld _ =>
      split
      · exact hbuckets'
      · refine hbuckets'.update hinfo hk (l := vTried.set nPos nId) ?_ (by simp) (by simp) ?_
        · exact fun j hj => (List.mem_or_eq_of_mem_set hj).imp_left hperm.mem_iff.mp
        · intro j
          refine (map_service_modifyInfo _ nId ?_ j).trans (map_service_modifyInfo am' nOld ?_ j)
          · exact fun _ => rfl
          · exact fun _ => rfl

end CAddrMan

end FoxCoin
