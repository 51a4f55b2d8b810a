import FoxCoin.AddrRestore

/-! # The tables after a restart

The state that is read from the file has the entries, the buckets and the counts of the state that
was written, as long as the tried entries are in the buckets their hash selects. -/

namespace FoxCoin

open Wire Overlay Buckets

namespace CAddrMan

variable {am am' : CAddrMan} {l : List CAddrInfo} {K : AddrParams}

/-! ## Entries under their positions -/

/-- The element of a list under an id. -/
def atId {A : Type} (l : List A) (k : ℤ) : Option A := if 0 ≤ k then l[k.toNat]? else none

theorem atId_natCast {A : Type} (l : List A) (n : ℕ) : atId l n = l[n]? := by simp [atId]

theorem atId_eq_some {A : Type} {l : List A} {k : ℤ} {a : A} :
    atId l k = some a ↔ ∃ n : ℕ, k = n ∧ l[n]? = some a := by
  constructor
  · intro h
    rw [atId] at h
    split_ifs at h with hk
    exact ⟨k.toNat, (Int.toNat_of_nonneg hk).symm, h⟩
  · rintro ⟨n, rfl, h⟩
    rw [atId_natCast, h]

theorem atId_map {A B : Type} (f : A → B) (l : List A) (k : ℤ) :
    atId (l.map f) k = (atId l k).map f := by
  unfold atId
  split_ifs
  · rw [List.getElem?_map]
  · rfl

/-- The element under the next id is the one that is put at the end. -/
theorem atId_append_singleton {A : Type} (l : List A) (a : A) (k : ℤ) :
    atId (l ++ [a]) k = if k = l.length then some a else atId l k := by
  unfold atId
  by_cases hk : k = l.length
  · subst hk
    simp
  · rw [if_neg hk]
    split_ifs with hnonneg
    · rcases lt_or_gt_of_ne (show k.toNat ≠ l.length by omega) with hlt | hgt
      · rw [List.getElem?_append_left hlt]
      · rw [List.getElem?_eq_none (by simp; omega), List.getElem?_eq_none (by omega)]
    · rfl

/-- The ids of a list behind another one go on where those of the first one end. -/
theorem atId_append {A : Type} (l l' : List A) (k : ℤ) :
    atId (l ++ l') k = (atId l k).or (atId l' (k - l.length)) := by
  unfold atId
  split_ifs with hk hk' hk'
  · have hsub : (k - l.length).toNat = k.toNat - l.length := by omega
    have hnone : l[k.toNat]? = none := List.getElem?_eq_none (by omega)
    rw [List.getElem?_append_right (by omega), hnone, hsub, Option.none_or]
  · rw [List.getElem?_append_left (by omega), Option.or_none]
  · omega
  · rfl

theorem atId_append_eq_some {A : Type} {l l' : List A} {k : ℤ} {a : A} :
    atId (l ++ l') k = some a ↔ atId l k = some a ∨ atId l' (k - l.length) = some a := by
  rw [atId_append, Option.or_eq_some_iff]
  refine or_congr_right (and_iff_right_iff_imp.mpr fun hat => ?_)
  obtain ⟨n, hn, -⟩ := atId_eq_some.mp hat
  unfold atId
  split_ifs
  · exact List.getElem?_eq_none (by omega)
  · rfl

theorem mem_of_atId {A : Type} {l : List A} {k : ℤ} {a : A} (h : atId l k = some a) : a ∈ l := by
  obtain ⟨n, -, hget⟩ := atId_eq_some.mp h
  exact List.mem_of_getElem? hget

/-- The entries are those of a list, under their positions. -/
structure Listed (am : CAddrMan) (l : List CAddrInfo) : Prop where
  vRandom : am.vRandom = (List.range l.length).map fun n : ℕ => (n : ℤ)
  lookup : ∀ k, am.mapInfo.lookup k = (atId l k).map fun info => { info with nRandomPos := k }
  mapAddr : ∀ addr k, am.mapAddr.lookup addr = some k ↔
    ∃ info, am.mapInfo.lookup k = some info ∧ info.addr = addr

/-- The entries depend on the indexes only. -/
theorem Listed.congr (h : am.Listed l) (hrandom : am'.vRandom = am.vRandom)
    (hmap : am'.mapInfo = am.mapInfo) (haddr : am'.mapAddr = am.mapAddr) : am'.Listed l :=
  ⟨hrandom ▸ h.vRandom, hmap ▸ h.lookup, by rw [hmap, haddr]; exact h.mapAddr⟩

theorem listed_empty (nKey : List UInt8) : (empty nKey).Listed [] := by
  refine ⟨rfl, fun k => ?_, fun addr k => ?_⟩
  · simp [atId, empty]
  · exact iff_of_false (by rintro ⟨⟩) (by rintro ⟨info, ⟨⟩, -⟩)

/-- An entry with a new address comes to the end. -/
theorem Listed.append (h : am.Listed l) {info : CAddrInfo}
    (hnew : ∀ info' ∈ l, info'.addr ≠ info.addr)
    (hrandom : am'.vRandom = am.vRandom ++ [(l.length : ℤ)])
    (hmap : am'.mapInfo = am.mapInfo.insert (l.length : ℤ) { info with nRandomPos := l.length })
    (haddr : am'.mapAddr = am.mapAddr.insert info.addr (l.length : ℤ)) : am'.Listed (l ++ [info]) := by
  have hlookup : ∀ k, am'.mapInfo.lookup k = if k = l.length then
      some { info with nRandomPos := l.length } else am.mapInfo.lookup k := by
    intro k
    rw [hmap]
    exact lookup_insert_eq_ite _ _ _ _
  have hold : ∀ {k info'}, am.mapInfo.lookup k = some info' →
      k ≠ l.length ∧ info'.addr ≠ info.addr := by
    intro k info' hinfo
    rw [h.lookup] at hinfo
    obtain ⟨info'', hat, rfl⟩ := Option.map_eq_some_iff.mp hinfo
    obtain ⟨n, rfl, hget⟩ := atId_eq_some.mp hat
    have hlt := (List.getElem?_eq_some_iff.mp hget).1
    exact ⟨by omega, hnew info'' (List.mem_of_getElem? hget)⟩
  refine ⟨?_, fun k => ?_, fun addr k => ?_⟩
  · rw [hrandom, h.vRandom, List.length_append, List.length_singleton, List.range_succ, List.map_append]
    rfl
  · rw [hlookup, h.lookup, atId_append_singleton]
    split_ifs with hk
    · rw [hk, Option.map_some]
    · rfl
  · rw [hlookup, haddr]
    refine (Eq.congr_left (lookup_insert_eq_ite am.mapAddr info.addr addr _)).trans ?_
    by_cases ha : addr = info.addr
    · -- the address is new, so it leads to the new entry
      subst ha
      rw [if_pos rfl, Option.some.injEq]
      constructor
      · rintro rfl
        rw [if_pos rfl]
        exact ⟨_, rfl, rfl⟩
      · rintro ⟨info', hinfo, heq⟩
        by_contra hk
        rw [if_neg (Ne.symm hk)] at hinfo
        exact (hold hinfo).2 heq
    · rw [if_neg ha, h.mapAddr]
      constructor
      · rintro ⟨info', hinfo, rfl⟩
        rw [if_neg (hold hinfo).1]
        exact ⟨info', hinfo, rfl⟩
      · rintro ⟨info', hinfo, rfl⟩
        split_ifs at hinfo with hk
        · obtain rfl := Option.some.inj hinfo
          exact absurd rfl ha
        · exact ⟨info', hinfo, rfl⟩

/-! ## The entries of the new table -/

/-- The reader takes in the entries of the new table one after the other. -/
theorem listed_restoreNew (K : AddrParams) (h : am.Listed []) {e : List (ℤ × CAddrInfo)}
    (hnodup : (e.map fun p => p.2.addr).Nodup)
    (hout : e.zipIdx.foldl (fun am p => restoreNew K 256 am p.2 p.1.2.saved) am = am') :
    am'.Listed (e.map fun p => p.2.saved) ∧ am'.nKey = am.nKey ∧ am'.nNew = am.nNew ∧
      am'.nTried = am.nTried ∧ am'.vvNew = am.vvNew ∧ am'.vvTried = am.vvTried := by
  induction e using List.reverseRecOn generalizing am' with
  | nil =>
    subst hout
    exact ⟨h, rfl, rfl, rfl, rfl, rfl⟩
  | append_singleton e p ih =>
    rw [List.map_append, List.nodup_append] at hnodup
    rw [List.zipIdx_append, List.foldl_append] at hout
    obtain ⟨hlisted, hframe⟩ := ih hnodup.1 rfl
    generalize e.zipIdx.foldl (fun am p => restoreNew K 256 am p.2 p.1.2.saved) am = out at *
    subst hout
    have hlen : out.vRandom.length = e.length := by
      rw [hlisted.vRandom]
      simp
    refine ⟨?_, hframe⟩
    rw [List.map_append, List.map_singleton]
    refine hlisted.append ?_ ?_ ?_ ?_
    · rintro info' hinfo' heq
      obtain ⟨q, hq, rfl⟩ := List.mem_map.mp hinfo'
      exact hnodup.2.2 _ (List.mem_map.mpr ⟨q, hq, rfl⟩) _ (List.mem_singleton_self _) heq
    · simp [restoreNew]
    · simp [restoreNew, hlen]
    · simp [restoreNew, CAddrInfo.saved]

/-! ## The entries of the tried table -/

/-- The positions of the entries of a bucket, in a list that stands behind `m` others. -/
def positionsIn (K : AddrParams) (nKey : List UInt8) (m : ℕ) (e : List (ℤ × CAddrInfo)) (b : Fin 64) :
    List ℤ :=
  ((e.zipIdx m).filter fun p => p.1.2.getTriedBucket K nKey = b).map fun p => (p.2 : ℤ)

theorem length_positionsIn (K : AddrParams) (nKey : List UInt8) (m : ℕ) (e : List (ℤ × CAddrInfo))
    (b : Fin 64) : (positionsIn K nKey m e b).length =
      (e.filter fun p => p.2.getTriedBucket K nKey = b).length := by
  rw [positionsIn, List.length_map, ← List.countP_eq_length_filter, ← List.countP_eq_length_filter]
  conv_rhs => rw [← List.zipIdx_map_fst m e, List.countP_map]
  rfl

theorem positionsIn_append (K : AddrParams) (nKey : List UInt8) (m : ℕ) (e : List (ℤ × CAddrInfo))
    (p : ℤ × CAddrInfo) (b : Fin 64) : positionsIn K nKey m (e ++ [p]) b =
      if p.2.getTriedBucket K nKey = b then positionsIn K nKey m e b ++ [((m + e.length : ℕ) : ℤ)]
      else positionsIn K nKey m e b := by
  rw [positionsIn, List.zipIdx_append, List.filter_append, List.map_append]
  split_ifs with hb
  · simp [positionsIn, hb]
  · simp [positionsIn, hb]

/-- The reader takes in the entries of the tried table one after the other, and files them by their
hash. -/
theorem listed_restoreTried (K : AddrParams) (h : am.Listed l) (hcount : am.nIdCount = l.length)
    (hempty : ∀ b, am.vvTried b = []) {e : List (ℤ × CAddrInfo)}
    (hnodup : (l.map (fun info => info.addr) ++ e.map fun p => p.2.addr).Nodup)
    (hsize : ∀ b, (e.filter fun p => p.2.getTriedBucket K am.nKey = b).length ≤ 64)
    (hout : e.foldl (fun am p => restoreTried K am p.2.saved) am = am') :
    am'.Listed (l ++ e.map fun p => { p.2.saved with fInTried := true }) ∧
      am'.nIdCount = l.length + e.length ∧
      (∀ b, am'.vvTried b = positionsIn K am.nKey l.length e b) ∧
      am'.nKey = am.nKey ∧ am'.nNew = am.nNew ∧ am'.nTried = am.nTried ∧ am'.vvNew = am.vvNew := by
  induction e using List.reverseRecOn generalizing am' with
  | nil =>
    subst hout
    refine ⟨by simpa using h, by simpa using hcount, fun b => ?_, rfl, rfl, rfl, rfl⟩
    rw [List.foldl_nil, hempty]
    rfl
  | append_singleton e p ih =>
    rw [List.map_append, ← List.append_assoc, List.nodup_append] at hnodup
    rw [List.foldl_append, List.foldl_cons, List.foldl_nil] at hout
    have hsize' : ∀ b, (e.filter fun p => p.2.getTriedBucket K am.nKey = b).length ≤ 64 := by
      intro b
      refine le_trans ?_ (hsize b)
      rw [List.filter_append, List.length_append]
      exact Nat.le_add_right _ _
    obtain ⟨hlisted, hid, htried, hkey, hframe⟩ := ih hnodup.1 hsize' rfl
    generalize e.foldl (fun am p => restoreTried K am p.2.saved) am = out at *
    have hlen : out.vRandom.length = l.length + e.length := by
      rw [hlisted.vRandom]
      simp
    have hbucket : p.2.saved.getTriedBucket K out.nKey = p.2.getTriedBucket K am.nKey := by
      rw [hkey]
      rfl
    -- the bucket has room, as there are no more entries for it in the file
    have hroom : (out.vvTried (p.2.getTriedBucket K am.nKey)).length < 64 := by
      have hle := hsize (p.2.getTriedBucket K am.nKey)
      rw [List.filter_append, List.length_append] at hle
      rw [htried, length_positionsIn]
      simpa using hle
    rw [restoreTried, hbucket, if_pos hroom] at hout
    subst hout
    refine ⟨?_, ?_, fun b => ?_, hkey, hframe⟩
    · rw [List.map_append, List.map_singleton, ← List.append_assoc]
      refine hlisted.append ?_ ?_ ?_ ?_
      · rintro info' hinfo' heq
        refine hnodup.2.2 info'.addr ?_ p.2.addr (by simp) heq
        rcases List.mem_append.mp hinfo' with hmem | hmem
        · exact List.mem_append_left _ (List.mem_map_of_mem hmem)
        · obtain ⟨q, hq, rfl⟩ := List.mem_map.mp hmem
          exact List.mem_append_right _ (List.mem_map_of_mem hq)
      · simp [hid]
      · simp [hid, hlen]
      · simp [hid, CAddrInfo.saved]
    · simp [hid]
      ring
    · rw [positionsIn_append]
      split_ifs with hb
      · subst hb
        simp [hid, htried]
      · rw [← htried]
        exact Function.update_of_ne (Ne.symm hb) _ _

/-! ## The new buckets -/

/-- An entry with references more. -/
def addRefs (n : ℕ) (info : CAddrInfo) : CAddrInfo := { info with nRefCount := info.nRefCount + n }

/-- An entry that is read gets the references it had. -/
theorem addRefs_saved {info : CAddrInfo} {n : ℕ} {fInTried : Bool} (k : ℤ)
    (hn : (n : ℤ) = info.nRefCount) (htried : fInTried = info.fInTried) :
    addRefs n { info.saved with fInTried := fInTried, nRandomPos := k } =
      { info with nLastTry := 0, nRandomPos := k } := by
  subst htried
  rw [addRefs, hn]
  simp [CAddrInfo.saved]

/-- How often an id is referred to. -/
def refsOf (refs : List (Fin 256 × ℤ)) (k : ℤ) : ℕ := refs.countP fun p => p.2 = k

theorem refsOf_cons (p : Fin 256 × ℤ) (refs : List (Fin 256 × ℤ)) (k : ℤ) :
    refsOf (p :: refs) k = refsOf refs k + if k = p.2 then 1 else 0 := by
  simp [refsOf, List.countP_cons, eq_comm]

/-- A reference to a known entry with fewer than four is taken in. -/
theorem restoreRef_eq {p : Fin 256 × ℤ} {info : CAddrInfo} (hinfo : am.mapInfo.lookup p.2 = some info)
    (hlt : info.nRefCount < 4) :
    restoreRef 256 p.1 am p.2 =
      { am with
        mapInfo := am.mapInfo.insert p.2 (addRefs 1 info)
        vvNew := Function.update am.vvNew p.1 (insert p.2 (am.vvNew p.1)) } := by
  rw [restoreRef, hinfo, Option.getD_some]
  exact if_pos ⟨rfl, hlt⟩

theorem mem_update_insert (vvNew : Fin 256 → Finset ℤ) (p : Fin 256 × ℤ) (b : Fin 256) (k : ℤ) :
    k ∈ Function.update vvNew p.1 (insert p.2 (vvNew p.1)) b ↔ k ∈ vvNew b ∨ (b, k) = p := by
  rw [Prod.ext_iff]
  by_cases hb : b = p.1
  · subst hb
    rw [Function.update_self, Finset.mem_insert, or_comm]
    simp
  · rw [Function.update_of_ne hb]
    simp [hb]

/-- The reader takes in the references of the new buckets one after the other. -/
theorem restoreRefs {refs : List (Fin 256 × ℤ)} (hknown : ∀ p ∈ refs, p.2 ∈ am.mapInfo)
    (hroom : ∀ k info, am.mapInfo.lookup k = some info → info.nRefCount + refsOf refs k ≤ 4)
    (hout : refs.foldl (fun am p => restoreRef 256 p.1 am p.2) am = am') :
    (∀ k, am'.mapInfo.lookup k = (am.mapInfo.lookup k).map (addRefs (refsOf refs k))) ∧
      (∀ b k, k ∈ am'.vvNew b ↔ k ∈ am.vvNew b ∨ (b, k) ∈ refs) ∧
      am'.vRandom = am.vRandom ∧ am'.mapAddr = am.mapAddr ∧ am'.nIdCount = am.nIdCount ∧
      am'.nKey = am.nKey ∧ am'.nNew = am.nNew ∧ am'.nTried = am.nTried ∧ am'.vvTried = am.vvTried := by
  induction refs generalizing am with
  | nil =>
    subst hout
    refine ⟨fun k => ?_, by simp, rfl, rfl, rfl, rfl, rfl, rfl, rfl⟩
    have hid : addRefs (refsOf [] k) = id := by
      funext info
      simp [addRefs, refsOf]
    rw [hid, Option.map_id, id]
    rfl
  | cons p refs ih =>
    obtain ⟨hp, hknown⟩ := List.forall_mem_cons.mp hknown
    obtain ⟨info, hinfo⟩ := Finmap.mem_iff.mp hp
    have hlt : info.nRefCount < 4 := by
      have := hroom p.2 info hinfo
      rw [refsOf_cons, if_pos rfl] at this
      omega
    have hlookup : ∀ k, (am.mapInfo.insert p.2 (addRefs 1 info)).lookup k =
        if k = p.2 then some (addRefs 1 info) else am.mapInfo.lookup k :=
      fun k => lookup_insert_eq_ite _ _ k _
    rw [List.foldl_cons, restoreRef_eq hinfo hlt] at hout
    -- the entry of the reference has one more now, and one less to come
    obtain ⟨hmap, hnew, hframe⟩ := ih (fun q hq => Finmap.mem_insert.mpr (.inr (hknown q hq)))
      (fun k info' hinfo' => by
        rw [hlookup] at hinfo'
        split_ifs at hinfo' with hk
        · obtain rfl := Option.some.inj hinfo'
          have := hroom p.2 info hinfo
          rw [refsOf_cons, if_pos rfl] at this
          rw [hk]
          show info.nRefCount + (1 : ℕ) + _ ≤ 4
          push_cast
          omega
        · have := hroom k info' hinfo'
          rwa [refsOf_cons, if_neg hk] at this) hout
    refine ⟨fun k => ?_, fun b k => ?_, hframe⟩
    · rw [hmap, hlookup, refsOf_cons]
      split_ifs with hk
      · rw [hk, hinfo, Option.map_some, Option.map_some]
        simp only [addRefs]
        congr 2
        push_cast
        ring
      · rfl
    · refine (hnew b k).trans ?_
      rw [List.mem_cons, ← or_assoc]
      exact or_congr_left (mem_update_insert am.vvNew p b k)

/-! ## The lists of entries -/

/-- Entries of the lists are entries of the map. -/
theorem mem_newEntries {p : ℤ × CAddrInfo} :
    p ∈ am.newEntries ↔ am.mapInfo.lookup p.1 = some p.2 ∧ p.2.nRefCount ≠ 0 := by
  rw [newEntries, List.mem_filter, ← mem_entries]
  simp

theorem mem_triedEntries {p : ℤ × CAddrInfo} :
    p ∈ am.triedEntries ↔ am.mapInfo.lookup p.1 = some p.2 ∧ p.2.fInTried = true := by
  rw [triedEntries, List.mem_filter, ← mem_entries]

/-- An entry of the new table, and no other, has references. -/
theorem Check.nRefCount_ne_zero (h : am.Check) {nId : ℤ} {info : CAddrInfo}
    (hinfo : am.mapInfo.lookup nId = some info) : info.nRefCount ≠ 0 ↔ info.fInTried = false := by
  cases htried : info.fInTried with
  | true => simp [(h.tried nId info hinfo htried).1]
  | false =>
    have := (h.new nId info hinfo htried).1
    simp only [iff_true]
    omega

/-- A part of the entries has as many ids. -/
theorem length_filter_entries (am : CAddrMan) (q : CAddrInfo → Bool) :
    (am.entries.filter fun e => q e.2).length =
      (am.mapInfo.keys.filter fun nId => (am.mapInfo.lookup nId).any q).card := by
  have hnodup : ((am.entries.filter fun e => q e.2).map Prod.fst).Nodup :=
    am.nodup_entries.sublist (List.filter_sublist.map _)
  rw [← List.length_map (f := Prod.fst), ← List.toFinset_card_of_nodup hnodup]
  congr 1
  ext nId
  rw [List.mem_toFinset, List.mem_map, Finset.mem_filter, Finmap.mem_keys]
  constructor
  · rintro ⟨p, hp, rfl⟩
    obtain ⟨hmem, hq⟩ := List.mem_filter.mp hp
    have hinfo := mem_entries.mp hmem
    exact ⟨Finmap.mem_of_lookup_eq_some hinfo, by rw [hinfo]; exact hq⟩
  · rintro ⟨hmem, hq⟩
    obtain ⟨info, hinfo⟩ := Finmap.mem_iff.mp hmem
    rw [hinfo] at hq
    exact ⟨(nId, info), List.mem_filter.mpr ⟨mem_entries.mpr hinfo, hq⟩, rfl⟩

/-- The count of new entries is the length of their list. -/
theorem Check.length_newEntries (h : am.Check) : am.nNew = am.newEntries.length := by
  have hlist : am.newEntries = am.entries.filter fun e => !e.2.fInTried := by
    refine List.filter_congr fun e he => ?_
    have hiff := h.nRefCount_ne_zero (mem_entries.mp he)
    cases htried : e.2.fInTried <;> simp [htried] at hiff ⊢ <;> exact hiff
  rw [h.nNew, hlist, length_filter_entries am fun info => !info.fInTried]

theorem Check.length_triedEntries (h : am.Check) : am.nTried = am.triedEntries.length := by
  rw [h.nTried, triedEntries, length_filter_entries am fun info => info.fInTried]

/-- The lists together have every entry once. -/
theorem Check.nodup_append (h : am.Check) :
    ((am.newEntries ++ am.triedEntries).map Prod.fst).Nodup := by
  rw [List.map_append, List.nodup_append]
  refine ⟨am.nodup_entries.sublist (List.filter_sublist.map _),
    am.nodup_entries.sublist (List.filter_sublist.map _), ?_⟩
  rintro a ha b hb rfl
  obtain ⟨p, hp, rfl⟩ := List.mem_map.mp ha
  obtain ⟨q, hq, heq⟩ := List.mem_map.mp hb
  obtain ⟨hinfo, hnew⟩ := mem_newEntries.mp hp
  obtain ⟨hinfo', htried⟩ := mem_triedEntries.mp hq
  rw [heq, hinfo] at hinfo'
  rw [← Option.some.inj hinfo'] at htried
  rw [h.nRefCount_ne_zero hinfo, htried] at hnew
  cases hnew

theorem Check.mem_append (h : am.Check) {p : ℤ × CAddrInfo} :
    p ∈ am.newEntries ++ am.triedEntries ↔ am.mapInfo.lookup p.1 = some p.2 := by
  rw [List.mem_append, mem_newEntries, mem_triedEntries, ← and_or_left, and_iff_left_iff_imp]
  intro hinfo
  rw [h.nRefCount_ne_zero hinfo]
  exact (Bool.eq_false_or_eq_true p.2.fInTried).symm

/-- No address comes twice. -/
theorem Check.nodup_addr (h : am.Check) :
    ((am.newEntries ++ am.triedEntries).map fun p => p.2.addr).Nodup := by
  refine (h.nodup_append.of_map Prod.fst).map_on fun p hp q hq heq => ?_
  have hinfo := h.mem_append.mp hp
  have hinfo' := h.mem_append.mp hq
  have hid : p.1 = q.1 := by
    have hp' := (h.mapAddr p.2.addr p.1).mpr ⟨p.2, hinfo, rfl⟩
    have hq' := (h.mapAddr p.2.addr q.1).mpr ⟨q.2, hinfo', heq.symm⟩
    exact Option.some.inj (hp'.symm.trans hq')
  rw [hid, hinfo'] at hinfo
  exact Prod.ext hid (Option.some.inj hinfo).symm

/-- Ids in new buckets belong to entries of the new table. -/
theorem Check.mem_of_mem_vvNew (h : am.Check) {b : Fin 256} {nId : ℤ} (hmem : nId ∈ am.vvNew b) :
    ∃ info, (nId, info) ∈ am.newEntries := by
  obtain ⟨info, hinfo⟩ := Finmap.mem_iff.mp (h.known.1 b nId hmem)
  refine ⟨info, mem_newEntries.mpr ⟨hinfo, ?_⟩⟩
  rw [h.nRefCount_ne_zero hinfo, ← Bool.not_eq_true]
  intro htried
  exact places_eq_empty.mp (h.tried nId info hinfo htried).2.2 b hmem

/-- Ids in tried buckets belong to entries of the tried table. -/
theorem Check.mem_of_mem_vvTried (h : am.Check) {b : Fin 64} {nId : ℤ} (hmem : nId ∈ am.vvTried b) :
    ∃ info, (nId, info) ∈ am.triedEntries := by
  obtain ⟨info, hinfo⟩ := Finmap.mem_iff.mp (h.known.2 b nId hmem)
  refine ⟨info, mem_triedEntries.mpr ⟨hinfo, ?_⟩⟩
  by_contra htried
  have hocc := (h.new nId info hinfo (Bool.eq_false_iff.mpr htried)).2.2.2
  exact occurrences_eq_zero.mp hocc b hmem

/-- No id is twice in a tried bucket. -/
theorem Check.nodup_vvTried (h : am.Check) (b : Fin 64) : (am.vvTried b).Nodup := by
  refine List.nodup_iff_count_le_one.mpr fun nId => ?_
  by_cases hmem : nId ∈ am.vvTried b
  · obtain ⟨info, hp⟩ := h.mem_of_mem_vvTried hmem
    obtain ⟨hinfo, htried⟩ := mem_triedEntries.mp hp
    exact (count_le_occurrences am.vvTried b nId).trans (h.tried nId info hinfo htried).2.1.le
  · rw [List.count_eq_zero_of_not_mem hmem]
    exact Nat.zero_le 1

/-- A new entry is in a new bucket. -/
theorem Check.exists_vvNew (h : am.Check) {p : ℤ × CAddrInfo} (hp : p ∈ am.newEntries) :
    ∃ b, p.1 ∈ am.vvNew b := by
  obtain ⟨hinfo, href⟩ := mem_newEntries.mp hp
  obtain ⟨hpos, -, hplaces, -⟩ := h.new p.1 p.2 hinfo ((h.nRefCount_ne_zero hinfo).mp href)
  obtain ⟨b, hb⟩ := Finset.card_pos.mp (show 0 < (places am.vvNew p.1).card by omega)
  exact ⟨b, mem_places.mp hb⟩

/-- A tried entry is in a tried bucket. -/
theorem Check.exists_vvTried (h : am.Check) {p : ℤ × CAddrInfo} (hp : p ∈ am.triedEntries) :
    ∃ b, p.1 ∈ am.vvTried b := by
  obtain ⟨hinfo, htried⟩ := mem_triedEntries.mp hp
  have hocc := (h.tried p.1 p.2 hinfo htried).2.1
  by_contra hnone
  rw [not_exists] at hnone
  rw [occurrences_eq_zero.mpr hnone] at hocc
  cases hocc

/-- The entries of a list that is spread over buckets of at most 64 are no more than the buckets
hold. -/
theorem length_le_of_spread {n : ℕ} {e : List (ℤ × CAddrInfo)} (hnodup : (e.map Prod.fst).Nodup)
    (vv : Fin n → Finset ℤ) (hsize : ∀ b, (vv b).card ≤ 64) (hmem : ∀ p ∈ e, ∃ b, p.1 ∈ vv b) :
    e.length ≤ n * 64 := by
  have hsub : (e.map Prod.fst).toFinset ⊆ Finset.univ.biUnion vv := by
    intro nId hnId
    obtain ⟨p, hp, rfl⟩ := List.mem_map.mp (List.mem_toFinset.mp hnId)
    obtain ⟨b, hb⟩ := hmem p hp
    exact Finset.mem_biUnion.mpr ⟨b, Finset.mem_univ b, hb⟩
  calc e.length = (e.map Prod.fst).toFinset.card := by
        rw [List.toFinset_card_of_nodup hnodup, List.length_map]
    _ ≤ (Finset.univ.biUnion vv).card := Finset.card_le_card hsub
    _ ≤ Finset.univ.card * 64 := Finset.card_biUnion_le_card_mul _ _ _ fun b _ => hsize b
    _ = n * 64 := by rw [Finset.card_univ, Fintype.card_fin]

/-- **A state with the invariant fits the file.** -/
theorem Check.writable (h : am.Check) (hkey : am.nKey.length ≤ maxSize) : am.Writable where
  nKey := hkey
  nNew := h.length_newEntries
  nTried := h.length_triedEntries
  new_count := by
    refine (length_le_of_spread (am.nodup_entries.sublist (List.filter_sublist.map _)) am.vvNew
      h.sizes.1 fun p hp => h.exists_vvNew hp).trans_lt ?_
    norm_num
  tried_count := by
    refine (length_le_of_spread (am.nodup_entries.sublist (List.filter_sublist.map _))
      (fun b => (am.vvTried b).toFinset) (fun b => (List.toFinset_card_le _).trans (h.sizes.2 b))
      fun p hp => ?_).trans_lt ?_
    · obtain ⟨b, hb⟩ := h.exists_vvTried hp
      exact ⟨b, List.mem_toFinset.mpr hb⟩
    · norm_num
  new_size b := (h.sizes.1 b).trans_lt (by norm_num)
  known b nId hmem := by
    obtain ⟨info, hp⟩ := h.mem_of_mem_vvNew hmem
    exact List.mem_map.mpr ⟨(nId, info), hp, rfl⟩

/-- A tried entry is in a bucket when its hash selects the bucket. -/
theorem Check.mem_vvTried_iff (h : am.Check) (hbuckets : am.InBuckets K) {p : ℤ × CAddrInfo}
    (hp : p ∈ am.triedEntries) {b : Fin 64} :
    p.1 ∈ am.vvTried b ↔ p.2.getTriedBucket K am.nKey = b := by
  have hinfo := (mem_triedEntries.mp hp).1
  constructor
  · exact fun hmem => hbuckets b p.1 hmem p.2 hinfo
  · rintro rfl
    obtain ⟨b, hb⟩ := h.exists_vvTried hp
    rwa [hbuckets b p.1 hb p.2 hinfo]

/-- No tried bucket gets too many entries. -/
theorem Check.length_filter_le (h : am.Check) (hbuckets : am.InBuckets K) (b : Fin 64) :
    (am.triedEntries.filter fun p => p.2.getTriedBucket K am.nKey = b).length ≤ 64 := by
  have hnodup : ((am.triedEntries.filter fun p => p.2.getTriedBucket K am.nKey = b).map
      Prod.fst).Nodup :=
    am.nodup_entries.sublist ((List.filter_sublist.trans List.filter_sublist).map _)
  rw [← List.length_map (f := Prod.fst)]
  refine (hnodup.subperm fun nId hnId => ?_).length_le.trans (h.sizes.2 b)
  obtain ⟨p, hp, rfl⟩ := List.mem_map.mp hnId
  obtain ⟨hmem, hb⟩ := List.mem_filter.mp hp
  exact (h.mem_vvTried_iff hbuckets hmem).mpr (of_decide_eq_true hb)

/-! ## The references as a list -/

/-- The references of all new buckets, in the order they are written in. -/
def refs (am : CAddrMan) : List (Fin 256 × ℤ) :=
  (List.finRange 256).flatMap fun b =>
    (idsInOrder (am.vvNew b)).map fun nId => (b, (am.number nId : ℤ))

theorem readBack_eq (K : AddrParams) (am : CAddrMan) : am.readBack K =
    am.refs.foldl (fun am p => restoreRef 256 p.1 am p.2) (am.readTriedEntries K) := by
  rw [readBack, refs, List.foldl_flatMap]
  congr 1
  funext am' b
  rw [List.foldl_map]

theorem mem_refs {b : Fin 256} {k : ℤ} :
    (b, k) ∈ am.refs ↔ ∃ nId ∈ am.vvNew b, (am.number nId : ℤ) = k := by
  rw [refs, List.mem_flatMap]
  constructor
  · rintro ⟨b', -, hmem⟩
    obtain ⟨nId, hnId, heq⟩ := List.mem_map.mp hmem
    obtain ⟨rfl, rfl⟩ := Prod.mk.inj heq
    exact ⟨nId, mem_idsInOrder.mp hnId, rfl⟩
  · rintro ⟨nId, hnId, rfl⟩
    exact ⟨b, List.mem_finRange b, List.mem_map.mpr ⟨nId, mem_idsInOrder.mpr hnId, rfl⟩⟩

/-- The number of an id leads to its entry. -/
theorem number_eq_iff {nId k : ℤ} {info : CAddrInfo} (hmem : (nId, info) ∈ am.newEntries) :
    (am.number nId : ℤ) = k ↔ atId am.newEntries k = some (nId, info) := by
  have hnodup : (am.newEntries.map Prod.fst).Nodup :=
    am.nodup_entries.sublist (List.filter_sublist.map _)
  obtain ⟨n, hget⟩ := List.mem_iff_getElem?.mp hmem
  obtain ⟨hlt, hval⟩ := List.getElem?_eq_some_iff.mp hget
  have hnumber : am.number nId = n := by
    have hidx := hnodup.idxOf_getElem n (by rwa [List.length_map])
    rwa [List.getElem_map, hval] at hidx
  rw [hnumber]
  constructor
  · rintro rfl
    rw [atId_natCast, hget]
  · intro hat
    obtain ⟨n', rfl, hget'⟩ := atId_eq_some.mp hat
    have hinj := (List.getElem?_inj hlt (hnodup.of_map Prod.fst)).mp (hget.trans hget'.symm)
    rw [hinj]

/-- An entry is referred to as often as it is in a new bucket. -/
theorem Check.refsOf_refs (h : am.Check) {k : ℤ} {p : ℤ × CAddrInfo}
    (hat : atId am.newEntries k = some p) : refsOf am.refs k = (places am.vvNew p.1).card := by
  have hiff : ∀ b, ∀ nId ∈ am.vvNew b, ((am.number nId : ℤ) = k ↔ nId = p.1) := by
    intro b nId hnId
    obtain ⟨info, hmem⟩ := h.mem_of_mem_vvNew hnId
    rw [number_eq_iff hmem, hat, Option.some.injEq]
    constructor
    · rintro rfl
      rfl
    · rintro rfl
      obtain ⟨n, rfl, hget⟩ := atId_eq_some.mp hat
      have hinfo := (mem_newEntries.mp (List.mem_of_getElem? hget)).1
      rw [(mem_newEntries.mp hmem).1] at hinfo
      exact Prod.ext rfl (Option.some.inj hinfo).symm
  have hbucket : ∀ b, ((idsInOrder (am.vvNew b)).map fun nId => (b, (am.number nId : ℤ))).countP
      (fun q => q.2 = k) = if p.1 ∈ am.vvNew b then 1 else 0 := by
    intro b
    rw [List.countP_map]
    have hcount : (idsInOrder (am.vvNew b)).countP
        ((fun q : Fin 256 × ℤ => decide (q.2 = k)) ∘ fun nId => (b, (am.number nId : ℤ))) =
          (idsInOrder (am.vvNew b)).count p.1 := by
      refine List.countP_congr fun nId hnId => ?_
      have := hiff b nId (mem_idsInOrder.mp hnId)
      simpa using this
    rw [hcount, (nodup_idsInOrder _).count]
    simp only [mem_idsInOrder]
  rw [refsOf, refs, List.countP_flatMap, places, Finset.card_filter, Fin.sum_univ_def]
  congr 1
  exact List.map_congr_left fun b _ => hbucket b

/-- Other ids are not referred to. -/
theorem Check.refsOf_refs_of_none (h : am.Check) {k : ℤ} (hat : atId am.newEntries k = none) :
    refsOf am.refs k = 0 := by
  rw [refsOf, List.countP_eq_zero]
  rintro ⟨b, k'⟩ hmem heq
  obtain ⟨nId, hnId, hnumber⟩ := mem_refs.mp hmem
  obtain ⟨info, hp⟩ := h.mem_of_mem_vvNew hnId
  rw [(number_eq_iff hp).mp (hnumber.trans (of_decide_eq_true heq))] at hat
  cases hat

/-! ## The state that is read -/

/-- A state has the entries of another one under new ids, which are their positions in a list, and
its tried entries in the buckets that their hash selects. -/
structure Renumbered (K : AddrParams) (am am' : CAddrMan) (e : List (ℤ × CAddrInfo)) : Prop where
  nodup : (e.map Prod.fst).Nodup
  mem : ∀ p, p ∈ e ↔ am.mapInfo.lookup p.1 = some p.2
  vRandom : am'.vRandom = (List.range e.length).map fun n : ℕ => (n : ℤ)
  lookup : ∀ k, am'.mapInfo.lookup k =
    (atId e k).map fun p => { p.2 with nLastTry := 0, nRandomPos := k }
  mapAddr : ∀ addr k, am'.mapAddr.lookup addr = some k ↔
    ∃ info, am'.mapInfo.lookup k = some info ∧ info.addr = addr
  vvNew : ∀ b k, k ∈ am'.vvNew b ↔ ∃ p, atId e k = some p ∧ p.1 ∈ am.vvNew b
  vvTried : ∀ b k, k ∈ am'.vvTried b ↔
    ∃ p, atId e k = some p ∧ p.2.fInTried = true ∧ p.2.getTriedBucket K am.nKey = b
  tried_nodup : ∀ b, (am'.vvTried b).Nodup
  tried_size : ∀ b, (am'.vvTried b).length ≤ 64
  nIdCount : am'.nIdCount = e.length
  nKey : am'.nKey = am.nKey
  nNew : am'.nNew = am.nNew
  nTried : am'.nTried = am.nTried

/-- The positions of a bucket. -/
theorem mem_positionsIn {nKey : List UInt8} {m : ℕ} {e : List (ℤ × CAddrInfo)} {b : Fin 64} {k : ℤ} :
    k ∈ positionsIn K nKey m e b ↔
      ∃ p, atId e (k - m) = some p ∧ p.2.getTriedBucket K nKey = b := by
  rw [positionsIn, List.mem_map]
  constructor
  · rintro ⟨⟨p, i⟩, hmem, rfl⟩
    obtain ⟨hmem, hb⟩ := List.mem_filter.mp hmem
    obtain ⟨hle, hget⟩ := List.mk_mem_zipIdx_iff_le_and_getElem?_sub.mp hmem
    refine ⟨p, ?_, of_decide_eq_true hb⟩
    rw [← Nat.cast_sub hle, atId_natCast, hget]
  · rintro ⟨p, hat, hb⟩
    obtain ⟨n, hn, hget⟩ := atId_eq_some.mp hat
    refine ⟨(p, m + n), List.mem_filter.mpr ⟨?_, decide_eq_true hb⟩, by push_cast; omega⟩
    refine List.mk_mem_zipIdx_iff_le_and_getElem?_sub.mpr ⟨Nat.le_add_right m n, ?_⟩
    rw [Nat.add_sub_cancel_left, hget]

theorem nodup_positionsIn (K : AddrParams) (nKey : List UInt8) (m : ℕ) (e : List (ℤ × CAddrInfo))
    (b : Fin 64) : (positionsIn K nKey m e b).Nodup := by
  have hpositions : ((e.zipIdx m).map fun p => (p.2 : ℤ)).Nodup := by
    have hmap : ((e.zipIdx m).map fun p => (p.2 : ℤ)) =
        ((e.zipIdx m).map Prod.snd).map fun n : ℕ => (n : ℤ) := by
      rw [List.map_map]
      rfl
    rw [hmap, List.zipIdx_map_snd]
    exact (List.nodup_range' _).map Nat.cast_injective
  exact hpositions.sublist (List.filter_sublist.map _)

/-- **What is read from the file** has the entries under new ids. -/
theorem Check.renumbered (h : am.Check)
    (hsize : ∀ b, (am.triedEntries.filter fun p => p.2.getTriedBucket K am.nKey = b).length ≤ 64) :
    am.Renumbered K (am.readBack K) (am.newEntries ++ am.triedEntries) := by
  have hnodup := h.nodup_addr
  rw [List.map_append] at hnodup
  -- the entries of the new table
  have hstart : ({ empty am.nKey with nNew := am.nNew, nTried := am.nTried } : CAddrMan).Listed [] :=
    (listed_empty am.nKey).congr rfl rfl rfl
  obtain ⟨hlisted₁, hkey₁, hnNew₁, hnTried₁, hvvNew₁, hvvTried₁⟩ :=
    listed_restoreNew K hstart (List.nodup_append.mp hnodup).1 (rfl : _ = am.readNewEntries K)
  -- the entries of the tried table
  have hcount : am.nNew = (am.newEntries.map fun p => p.2.saved).length := by
    rw [List.length_map, h.length_newEntries]
  have hempty : ∀ b, (am.readNewEntries K).vvTried b = [] := fun b => by rw [hvvTried₁]; rfl
  have hkey₁' : (am.readNewEntries K).nKey = am.nKey := hkey₁
  rw [← hkey₁'] at hsize
  have hlisted₁' : ({ am.readNewEntries K with nIdCount := am.nNew } : CAddrMan).Listed
      (am.newEntries.map fun p => p.2.saved) := hlisted₁.congr rfl rfl rfl
  obtain ⟨hlisted₂, hid₂, hvvTried₂, hkey₂, hnNew₂, hnTried₂, hvvNew₂⟩ :=
    listed_restoreTried K hlisted₁' hcount hempty (by rw [List.map_map]; exact hnodup) hsize
      (rfl : _ = am.readTriedEntries K)
  rw [List.length_map] at hid₂
  simp only [List.length_map, hkey₁'] at hvvTried₂
  have hlookup₂ : ∀ k, (am.readTriedEntries K).mapInfo.lookup k =
      ((atId am.newEntries k).map fun p => { p.2.saved with nRandomPos := k }).or
        ((atId am.triedEntries (k - am.newEntries.length)).map fun p =>
          { p.2.saved with fInTried := true, nRandomPos := k }) := by
    intro k
    rw [hlisted₂.lookup, atId_append, atId_map, atId_map, List.length_map, Option.map_or,
      Option.map_map, Option.map_map]
    rfl
  -- the references of the new buckets
  have hknown : ∀ p ∈ am.refs, p.2 ∈ (am.readTriedEntries K).mapInfo := by
    rintro ⟨b, k⟩ hmem
    obtain ⟨nId, hnId, hnumber⟩ := mem_refs.mp hmem
    obtain ⟨info, hp⟩ := h.mem_of_mem_vvNew hnId
    rw [← Finmap.lookup_isSome, hlookup₂, (number_eq_iff hp).mp hnumber]
    rfl
  have hroom : ∀ k info, (am.readTriedEntries K).mapInfo.lookup k = some info →
      info.nRefCount + refsOf am.refs k ≤ 4 := by
    intro k info hinfo
    rw [hlookup₂] at hinfo
    cases hat : atId am.newEntries k with
    | none =>
      rw [hat, Option.map_none, Option.none_or] at hinfo
      obtain ⟨p, -, rfl⟩ := Option.map_eq_some_iff.mp hinfo
      rw [h.refsOf_refs_of_none hat]
      exact Int.le.intro 4 rfl
    | some p =>
      rw [hat, Option.map_some, Option.some_or, Option.some.injEq] at hinfo
      subst hinfo
      obtain ⟨n, -, hget⟩ := atId_eq_some.mp hat
      obtain ⟨hinfo, href⟩ := mem_newEntries.mp (List.mem_of_getElem? hget)
      obtain ⟨-, hle, hplaces, -⟩ := h.new p.1 p.2 hinfo ((h.nRefCount_ne_zero hinfo).mp href)
      rw [h.refsOf_refs hat]
      show (0 : ℤ) + _ ≤ 4
      omega
  obtain ⟨hlookup₃, hvvNew₃, hrandom₃, haddr₃, hid₃, hkey₃, hnNew₃, hnTried₃, hvvTried₃⟩ :=
    restoreRefs hknown hroom (am.readBack_eq K).symm
  have hvvNewEmpty : ∀ b, (am.readTriedEntries K).vvNew b = ∅ := fun b => by
    rw [hvvNew₂]
    exact congrFun hvvNew₁ b
  refine ⟨h.nodup_append, fun p => h.mem_append, ?_, fun k => ?_, fun addr k => ?_, fun b k => ?_,
    fun b k => ?_, fun b => ?_, fun b => ?_, ?_, ?_, ?_, ?_⟩
  · rw [hrandom₃, hlisted₂.vRandom]
    simp
  · rw [hlookup₃, hlookup₂, atId_append]
    cases hat : atId am.newEntries k with
    | some p =>
      obtain ⟨hinfo, href⟩ := mem_newEntries.mp (mem_of_atId hat)
      have htried := (h.nRefCount_ne_zero hinfo).mp href
      exact congrArg some (addRefs_saved k
        (by rw [h.refsOf_refs hat, (h.new p.1 p.2 hinfo htried).2.2.1]) htried.symm)
    | none =>
      cases hat' : atId am.triedEntries (k - am.newEntries.length) with
      | none => rfl
      | some p =>
        obtain ⟨hinfo, htried⟩ := mem_triedEntries.mp (mem_of_atId hat')
        exact congrArg some (addRefs_saved k
          (by rw [h.refsOf_refs_of_none hat, (h.tried p.1 p.2 hinfo htried).1]; rfl) htried.symm)
  · rw [haddr₃, hlisted₂.mapAddr, hlookup₃]
    constructor
    · rintro ⟨info, hinfo, rfl⟩
      exact ⟨addRefs (refsOf am.refs k) info, by rw [hinfo, Option.map_some], rfl⟩
    · rintro ⟨info, hinfo, rfl⟩
      obtain ⟨info₂, hinfo₂, rfl⟩ := Option.map_eq_some_iff.mp hinfo
      exact ⟨info₂, hinfo₂, rfl⟩
  · rw [hvvNew₃, hvvNewEmpty, mem_refs, or_iff_right (Finset.notMem_empty k)]
    constructor
    · rintro ⟨nId, hnId, hnumber⟩
      obtain ⟨info, hp⟩ := h.mem_of_mem_vvNew hnId
      exact ⟨(nId, info), atId_append_eq_some.mpr (.inl ((number_eq_iff hp).mp hnumber)), hnId⟩
    · rintro ⟨p, hat, hmem⟩
      rcases atId_append_eq_some.mp hat with hat | hat
      · exact ⟨p.1, hmem, (number_eq_iff (mem_of_atId hat)).mpr hat⟩
      · obtain ⟨hinfo, htried⟩ := mem_triedEntries.mp (mem_of_atId hat)
        exact absurd hmem (places_eq_empty.mp (h.tried p.1 p.2 hinfo htried).2.2 b)
  · rw [hvvTried₃, hvvTried₂, mem_positionsIn]
    constructor
    · rintro ⟨p, hat, hb⟩
      exact ⟨p, atId_append_eq_some.mpr (.inr hat), (mem_triedEntries.mp (mem_of_atId hat)).2, hb⟩
    · rintro ⟨p, hat, htried, hb⟩
      rcases atId_append_eq_some.mp hat with hat | hat
      · obtain ⟨hinfo, href⟩ := mem_newEntries.mp (mem_of_atId hat)
        rw [h.nRefCount_ne_zero hinfo, htried] at href
        cases href
      · exact ⟨p, hat, hb⟩
  · rw [hvvTried₃, hvvTried₂]
    exact nodup_positionsIn _ _ _ _ _
  · rw [hvvTried₃, hvvTried₂, length_positionsIn]
    exact hkey₁' ▸ hsize b
  · rw [hid₃, hid₂]
    simp
  · rw [hkey₃, hkey₂]
    exact hkey₁
  · rw [hnNew₃, hnNew₂]
    exact hnNew₁
  · rw [hnTried₃, hnTried₂]
    exact hnTried₁

/-! ## The same tables -/

/-- An address is in a new bucket. -/
def inNew (am : CAddrMan) (b : Fin 256) (addr : CNetAddr) : Bool :=
  (am.find addr).any fun p => p.1 ∈ am.vvNew b

/-- An address is in a tried bucket. -/
def inTried (am : CAddrMan) (b : Fin 64) (addr : CNetAddr) : Bool :=
  (am.find addr).any fun p => p.1 ∈ am.vvTried b

/-- What stays of an entry: the fields on disk, the references and the table. -/
def stored (p : ℤ × CAddrInfo) : CAddrInfo × ℤ × Bool := (p.2.saved, p.2.status)

/-- Two states have the same addresses with the same fields, in the same tables and buckets. -/
structure SameTables (am am' : CAddrMan) : Prop where
  nKey : am'.nKey = am.nKey
  entries : ∀ addr, (am'.find addr).map stored = (am.find addr).map stored
  inNew : ∀ b addr, am'.inNew b addr = am.inNew b addr
  inTried : ∀ b addr, am'.inTried b addr = am.inTried b addr
  nNew : am'.nNew = am.nNew
  nTried : am'.nTried = am.nTried

/-- `Find` finds the entry of the address. -/
theorem find_eq_some (hmapAddr : ∀ addr nId, am.mapAddr.lookup addr = some nId ↔
      ∃ info, am.mapInfo.lookup nId = some info ∧ info.addr = addr) {addr : CNetAddr}
    {p : ℤ × CAddrInfo} :
    am.find addr = some p ↔ am.mapInfo.lookup p.1 = some p.2 ∧ p.2.addr = addr := by
  rw [find, Option.bind_eq_some_iff]
  constructor
  · rintro ⟨nId, haddr, hmap⟩
    obtain ⟨info, hinfo, rfl⟩ := Option.map_eq_some_iff.mp hmap
    obtain ⟨info', hinfo', heq⟩ := (hmapAddr addr nId).mp haddr
    rw [hinfo] at hinfo'
    rw [← Option.some.inj hinfo'] at heq
    exact ⟨hinfo, heq⟩
  · rintro ⟨hinfo, haddr⟩
    exact ⟨p.1, (hmapAddr addr p.1).mpr ⟨p.2, hinfo, haddr⟩, by rw [hinfo, Option.map_some]⟩

variable {e : List (ℤ × CAddrInfo)}

/-- An id of the state that is read stands for an entry of the list. -/
theorem Renumbered.lookup_eq_some (h : Renumbered K am am' e) {k : ℤ} {info' : CAddrInfo} :
    am'.mapInfo.lookup k = some info' ↔
      ∃ p, atId e k = some p ∧ { p.2 with nLastTry := 0, nRandomPos := k } = info' := by
  rw [h.lookup, Option.map_eq_some_iff]

/-- No two ids stand for the same entry. -/
theorem Renumbered.atId_inj (h : Renumbered K am am' e) {k k' : ℤ} {p p' : ℤ × CAddrInfo}
    (hat : atId e k = some p) (hat' : atId e k' = some p') (hid : p.1 = p'.1) : k = k' := by
  obtain ⟨n, rfl, hget⟩ := atId_eq_some.mp hat
  obtain ⟨n', rfl, hget'⟩ := atId_eq_some.mp hat'
  have hids : (e.map Prod.fst)[n]? = (e.map Prod.fst)[n']? := by
    rw [List.getElem?_map, List.getElem?_map, hget, hget', Option.map_some, Option.map_some, hid]
  have hlt : n < (e.map Prod.fst).length := by
    rw [List.length_map]
    exact (List.getElem?_eq_some_iff.mp hget).1
  rw [(List.getElem?_inj hlt h.nodup).mp hids]

/-- Every entry has an id in the state that is read. -/
theorem Renumbered.exists_atId (h : Renumbered K am am' e) {p : ℤ × CAddrInfo}
    (hinfo : am.mapInfo.lookup p.1 = some p.2) : ∃ k, atId e k = some p := by
  obtain ⟨n, hget⟩ := List.mem_iff_getElem?.mp ((h.mem p).mpr hinfo)
  exact ⟨n, atId_eq_some.mpr ⟨n, rfl, hget⟩⟩

/-- The buckets of an id are those of the entry it stands for. -/
theorem Renumbered.places_eq (h : Renumbered K am am' e) {k : ℤ} {p : ℤ × CAddrInfo}
    (hat : atId e k = some p) : places am'.vvNew k = places am.vvNew p.1 := by
  ext b
  rw [mem_places, mem_places, h.vvNew]
  constructor
  · rintro ⟨p', hat', hmem⟩
    rw [hat, Option.some.injEq] at hat'
    rwa [hat']
  · exact fun hmem => ⟨p, hat, hmem⟩

theorem Renumbered.mem_vvTried_iff (h : Renumbered K am am' e) (hcheck : am.Check)
    (hbuckets : am.InBuckets K) {k : ℤ} {p : ℤ × CAddrInfo} (hat : atId e k = some p) (b : Fin 64) :
    k ∈ am'.vvTried b ↔ p.1 ∈ am.vvTried b := by
  have hinfo := (h.mem p).mp (mem_of_atId hat)
  rw [h.vvTried]
  constructor
  · rintro ⟨p', hat', htried, hb⟩
    rw [hat, Option.some.injEq] at hat'
    subst hat'
    exact (hcheck.mem_vvTried_iff hbuckets (mem_triedEntries.mpr ⟨hinfo, htried⟩)).mpr hb
  · intro hmem
    obtain ⟨info, hp⟩ := hcheck.mem_of_mem_vvTried hmem
    obtain ⟨hinfo', htried⟩ := mem_triedEntries.mp hp
    rw [hinfo, Option.some.injEq] at hinfo'
    exact ⟨p, hat, hinfo' ▸ htried, hbuckets b p.1 hmem p.2 hinfo⟩

theorem Renumbered.occurrences_eq (h : Renumbered K am am' e) (hcheck : am.Check)
    (hbuckets : am.InBuckets K) {k : ℤ} {p : ℤ × CAddrInfo} (hat : atId e k = some p) :
    occurrences am'.vvTried k = occurrences am.vvTried p.1 := by
  refine Finset.sum_congr rfl fun b _ => ?_
  rw [(h.tried_nodup b).count, (hcheck.nodup_vvTried b).count]
  simp only [h.mem_vvTried_iff hcheck hbuckets hat b]

/-- As many ids have a property of their entries. -/
theorem Renumbered.card_filter (h : Renumbered K am am' e) (q : CAddrInfo → Bool)
    (hq : ∀ (info : CAddrInfo) (k : ℤ), q { info with nLastTry := 0, nRandomPos := k } = q info) :
    (am'.mapInfo.keys.filter fun k => (am'.mapInfo.lookup k).any q).card =
      (am.mapInfo.keys.filter fun nId => (am.mapInfo.lookup nId).any q).card := by
  have hany : ∀ k, (am'.mapInfo.lookup k).any q = (atId e k).any fun p => q p.2 := by
    intro k
    rw [h.lookup]
    cases atId e k with
    | none => rfl
    | some p => exact hq p.2 k
  -- an id after reading stands for the id that the entry had before
  refine Finset.card_bij (fun k _ => ((atId e k).map Prod.fst).getD 0) ?_ ?_ ?_
  · intro k hk
    obtain ⟨-, hk⟩ := Finset.mem_filter.mp hk
    rw [hany] at hk
    cases hat : atId e k with
    | none =>
      rw [hat] at hk
      cases hk
    | some p =>
      rw [hat] at hk
      have hinfo := (h.mem p).mp (mem_of_atId hat)
      rw [Option.map_some, Option.getD_some, Finset.mem_filter, Finmap.mem_keys, hinfo]
      exact ⟨Finmap.mem_of_lookup_eq_some hinfo, hk⟩
  · intro k hk k' hk' heq
    obtain ⟨hk, -⟩ := Finset.mem_filter.mp hk
    obtain ⟨hk', -⟩ := Finset.mem_filter.mp hk'
    obtain ⟨info, hinfo⟩ := Finmap.mem_iff.mp (Finmap.mem_keys.mp hk)
    obtain ⟨info', hinfo'⟩ := Finmap.mem_iff.mp (Finmap.mem_keys.mp hk')
    obtain ⟨p, hat, -⟩ := h.lookup_eq_some.mp hinfo
    obtain ⟨p', hat', -⟩ := h.lookup_eq_some.mp hinfo'
    rw [hat, hat'] at heq
    exact h.atId_inj hat hat' heq
  · intro nId hnId
    obtain ⟨hmem, hq'⟩ := Finset.mem_filter.mp hnId
    obtain ⟨info, hinfo⟩ := Finmap.mem_iff.mp (Finmap.mem_keys.mp hmem)
    obtain ⟨k, hat⟩ := h.exists_atId (p := (nId, info)) hinfo
    rw [hinfo] at hq'
    have hlookup := h.lookup_eq_some.mpr ⟨_, hat, rfl⟩
    refine ⟨k, Finset.mem_filter.mpr ⟨?_, ?_⟩, ?_⟩
    · exact Finmap.mem_keys.mpr (Finmap.mem_of_lookup_eq_some hlookup)
    · rw [hany, hat]
      exact hq'
    · rw [hat]
      rfl

/-- **The state that is read has the invariant.** -/
theorem Renumbered.check (h : Renumbered K am am' e) (hcheck : am.Check)
    (hbuckets : am.InBuckets K) : am'.Check where
  vRandom := by
    refine ⟨h.vRandom ▸ List.nodup_range.map Nat.cast_injective, fun k => ?_⟩
    rw [h.vRandom, ← Finmap.lookup_isSome, h.lookup, Option.isSome_map, List.mem_map]
    constructor
    · rintro ⟨n, hn, rfl⟩
      rw [atId_natCast, List.getElem?_eq_getElem (List.mem_range.mp hn)]
      rfl
    · intro hsome
      obtain ⟨p, hat⟩ := Option.isSome_iff_exists.mp hsome
      obtain ⟨n, rfl, hget⟩ := atId_eq_some.mp hat
      exact ⟨n, List.mem_range.mpr (List.getElem?_eq_some_iff.mp hget).1, rfl⟩
  nRandomPos k info hinfo := by
    obtain ⟨p, hat, rfl⟩ := h.lookup_eq_some.mp hinfo
    obtain ⟨n, rfl, hget⟩ := atId_eq_some.mp hat
    refine ⟨Int.natCast_nonneg n, ?_⟩
    rw [h.vRandom, Int.toNat_natCast, List.getElem?_map,
      List.getElem?_range (List.getElem?_eq_some_iff.mp hget).1]
    rfl
  mapAddr := h.mapAddr
  tried k info hinfo htried := by
    obtain ⟨p, hat, rfl⟩ := h.lookup_eq_some.mp hinfo
    rw [h.places_eq hat, h.occurrences_eq hcheck hbuckets hat]
    exact hcheck.tried p.1 p.2 ((h.mem p).mp (mem_of_atId hat)) htried
  new k info hinfo htried := by
    obtain ⟨p, hat, rfl⟩ := h.lookup_eq_some.mp hinfo
    rw [h.places_eq hat, h.occurrences_eq hcheck hbuckets hat]
    exact hcheck.new p.1 p.2 ((h.mem p).mp (mem_of_atId hat)) htried
  known := by
    refine ⟨fun b k hmem => ?_, fun b k hmem => ?_⟩
    · obtain ⟨p, hat, -⟩ := (h.vvNew b k).mp hmem
      exact Finmap.mem_of_lookup_eq_some (h.lookup_eq_some.mpr ⟨p, hat, rfl⟩)
    · obtain ⟨p, hat, -⟩ := (h.vvTried b k).mp hmem
      exact Finmap.mem_of_lookup_eq_some (h.lookup_eq_some.mpr ⟨p, hat, rfl⟩)
  sizes := by
    refine ⟨fun b => ?_, h.tried_size⟩
    -- the new identifiers of a bucket stand for different old ones of the same bucket
    refine (Finset.card_le_card_of_injOn (fun k => ((atId e k).map Prod.fst).getD 0) ?_ ?_).trans
      (hcheck.sizes.1 b)
    · intro k hk
      obtain ⟨p, hat, hmem⟩ := (h.vvNew b k).mp hk
      show ((atId e k).map Prod.fst).getD 0 ∈ am.vvNew b
      rwa [hat]
    · intro k hk k' hk' heq
      obtain ⟨p, hat, -⟩ := (h.vvNew b k).mp hk
      obtain ⟨p', hat', -⟩ := (h.vvNew b k').mp hk'
      simp only [hat, hat', Option.map_some, Option.getD_some] at heq
      exact h.atId_inj hat hat' heq
  nNew := by
    rw [h.nNew, hcheck.nNew, h.card_filter (fun info => !info.fInTried) fun _ _ => rfl]
  nTried := by
    rw [h.nTried, hcheck.nTried, h.card_filter (fun info => info.fInTried) fun _ _ => rfl]

/-- An address that is found is found again. -/
theorem Renumbered.find (h : Renumbered K am am' e) (hcheck : am.Check) {addr : CNetAddr}
    {p : ℤ × CAddrInfo} (hp : am.find addr = some p) : ∃ k, atId e k = some p ∧
      am'.find addr = some (k, { p.2 with nLastTry := 0, nRandomPos := k }) := by
  obtain ⟨hinfo, haddr⟩ := (find_eq_some hcheck.mapAddr).mp hp
  obtain ⟨k, hat⟩ := h.exists_atId hinfo
  exact ⟨k, hat, (find_eq_some h.mapAddr).mpr ⟨h.lookup_eq_some.mpr ⟨p, hat, rfl⟩, haddr⟩⟩

/-- An address that is not found is not found later. -/
theorem Renumbered.find_none (h : Renumbered K am am' e) (hcheck : am.Check) {addr : CNetAddr}
    (hnone : am.find addr = none) : am'.find addr = none := by
  by_contra hsome
  obtain ⟨q, hq⟩ := Option.ne_none_iff_exists'.mp hsome
  obtain ⟨hinfo, haddr⟩ := (find_eq_some h.mapAddr).mp hq
  obtain ⟨p, hat, heq⟩ := h.lookup_eq_some.mp hinfo
  have hp := (find_eq_some hcheck.mapAddr).mpr
    ⟨(h.mem p).mp (mem_of_atId hat), (congrArg (fun info => info.addr) heq).trans haddr⟩
  rw [hp] at hnone
  cases hnone

/-- A tried address is read into the bucket that its hash selects. -/
theorem Renumbered.inTried (h : Renumbered K am am' e) (hcheck : am.Check) {addr : CNetAddr}
    {p : ℤ × CAddrInfo} (hp : am.find addr = some p) (htried : p.2.fInTried = true) :
    am'.inTried (p.2.getTriedBucket K am.nKey) addr = true := by
  obtain ⟨k, hat, hp'⟩ := h.find hcheck hp
  rw [CAddrMan.inTried, hp', Option.any_some, decide_eq_true_eq]
  exact (h.vvTried _ k).mpr ⟨p, hat, htried, rfl⟩

/-- **The state that is read has the same tables.** -/
theorem Renumbered.sameTables (h : Renumbered K am am' e) (hcheck : am.Check)
    (hbuckets : am.InBuckets K) : am.SameTables am' := by
  refine ⟨h.nKey, fun addr => ?_, fun b addr => ?_, fun b addr => ?_, h.nNew, h.nTried⟩
  · cases hp : am.find addr with
    | none => rw [h.find_none hcheck hp]
    | some p =>
      obtain ⟨k, -, hp'⟩ := h.find hcheck hp
      rw [hp']
      rfl
  · rw [CAddrMan.inNew, CAddrMan.inNew]
    cases hp : am.find addr with
    | none => rw [h.find_none hcheck hp]; rfl
    | some p =>
      obtain ⟨k, hat, hp'⟩ := h.find hcheck hp
      have hiff : k ∈ am'.vvNew b ↔ p.1 ∈ am.vvNew b := by
        rw [← mem_places, h.places_eq hat, mem_places]
      rw [hp', Option.any_some, Option.any_some, decide_eq_decide]
      exact hiff
  · rw [CAddrMan.inTried, CAddrMan.inTried]
    cases hp : am.find addr with
    | none => rw [h.find_none hcheck hp]; rfl
    | some p =>
      obtain ⟨k, hat, hp'⟩ := h.find hcheck hp
      rw [hp', Option.any_some, Option.any_some, decide_eq_decide]
      exact h.mem_vvTried_iff hcheck hbuckets hat b

end CAddrMan

/-- **The address manager survives a restart**: the bytes that are written are read completely, and
give a state that has the invariant and the same tables. -/
theorem addrMan_read_serialize (K : AddrParams) {am : CAddrMan} (h : am.Check)
    (hbuckets : am.InBuckets K) (hkey : am.nKey.length ≤ maxSize) :
    ∃ am', CAddrMan.read K am.serialize = some (am', []) ∧ am'.Check ∧ am.SameTables am' := by
  have hrenumbered := h.renumbered (h.length_filter_le hbuckets)
  exact ⟨am.readBack K, ((h.writable hkey).reads K).run, hrenumbered.check h hbuckets,
    hrenumbered.sameTables h hbuckets⟩

/-- The example state survives a restart. -/
theorem addrMan_read_serialize_exampleAddrMan : ∃ am',
    CAddrMan.read exampleAddrParams exampleAddrMan.serialize = some (am', []) ∧ am'.Check ∧
      exampleAddrMan.SameTables am' :=
  addrMan_read_serialize exampleAddrParams
    (CAddrMan.valid_of_reachable reachable_exampleAddrMan).check
    (CAddrMan.inBuckets_of_reachable reachable_exampleAddrMan) (by decide +kernel)

/-- A hash that always selects the first bucket. -/
def constAddrParams : AddrParams := { exampleAddrParams with hash64 := fun _ => 0 }

/-- **An entry that changes its bucket.** `Check_` does not test which bucket a tried entry is in.
The reader files the entry by its hash, so that it moves when it was in another bucket. -/
theorem not_forall_addrMan_read_serialize : ¬∀ (K : AddrParams) (am : CAddrMan), am.Check →
    am.nKey.length ≤ maxSize →
      ∃ am', CAddrMan.read K am.serialize = some (am', []) ∧ am'.Check ∧ am.SameTables am' := by
  intro hall
  have hcheck := (CAddrMan.valid_of_reachable reachable_exampleAddrMan).check
  have hkey : exampleAddrMan.nKey.length ≤ maxSize := by decide +kernel
  obtain ⟨am', hread, -, hsame⟩ := hall constAddrParams exampleAddrMan hcheck hkey
  rw [((hcheck.writable hkey).reads constAddrParams).run, Option.some.injEq, Prod.mk.injEq] at hread
  have hsize : ∀ b, (exampleAddrMan.triedEntries.filter fun p =>
      p.2.getTriedBucket constAddrParams exampleAddrMan.nKey = b).length ≤ 64 := by
    intro b
    have hlen := hcheck.length_triedEntries
    have hcount : exampleAddrMan.nTried = 1 := by decide +kernel
    have hle := List.length_filter_le
      (fun p : ℤ × CAddrInfo => decide (p.2.getTriedBucket constAddrParams exampleAddrMan.nKey = b))
      exampleAddrMan.triedEntries
    omega
  have hrenumbered := hcheck.renumbered hsize
  rw [hread.1] at hrenumbered
  -- the example address is a tried one, and the reader files it in the first bucket
  have htried : (exampleAddrMan.find (exampleAddress 1).addr).any (fun p => p.2.fInTried) = true := by
    decide +kernel
  cases hp : exampleAddrMan.find (exampleAddress 1).addr with
  | none =>
    rw [hp] at htried
    cases htried
  | some p =>
    rw [hp] at htried
    have hafter : am'.inTried 0 (exampleAddress 1).addr = true :=
      hrenumbered.inTried hcheck hp htried
    have hbefore : exampleAddrMan.inTried 0 (exampleAddress 1).addr = false := by decide +kernel
    rw [hsame.inTried, hbefore] at hafter
    cases hafter

end FoxCoin
