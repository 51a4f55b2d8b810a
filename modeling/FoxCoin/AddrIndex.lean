import FoxCoin.AddrMan
import FoxCoin.Lib.Overlay

/-! # The indexes of the address manager

`vRandom` lists the ids of the entries in random order, and every entry knows its position there;
`mapAddr` leads from an address to its id. Changes of the tables leave the indexes alone, and
swapping, creating and deleting keep them. -/

namespace FoxCoin

open Overlay

/-! ## Definitions -/

/-- The indexes lead to the entries and back. -/
structure CAddrMan.Indexed (am : CAddrMan) : Prop where
  nodup : am.vRandom.Nodup
  mem_vRandom : ∀ nId, nId ∈ am.vRandom ↔ nId ∈ am.mapInfo
  position : ∀ nId info, am.mapInfo.lookup nId = some info →
    0 ≤ info.nRandomPos ∧ am.vRandom[info.nRandomPos.toNat]? = some nId
  address : ∀ addr nId, am.mapAddr.lookup addr = some nId ↔
    ∃ info, am.mapInfo.lookup nId = some info ∧ info.addr = addr
  lt_nIdCount : ∀ nId, nId ∈ am.mapInfo → nId < am.nIdCount

/-- What the indexes need to know of an entry. -/
def CAddrInfo.place (info : CAddrInfo) : CNetAddr × ℤ := (info.addr, info.nRandomPos)

namespace CAddrMan

variable {am am' : CAddrMan} {nId k : ℤ} {f : CAddrInfo → CAddrInfo}

/-! ## Changes of an entry -/

/-- A lookup after a change of an entry. -/
theorem lookup_modifyInfo (am : CAddrMan) (nId : ℤ) (f : CAddrInfo → CAddrInfo) (k : ℤ) :
    (am.modifyInfo nId f).mapInfo.lookup k =
      if k = nId then (am.mapInfo.lookup nId).map f else am.mapInfo.lookup k := by
  rw [modifyInfo]
  cases h : am.mapInfo.lookup nId with
  | none =>
    split_ifs with hk
    · rw [hk, h]
      rfl
    · rfl
  | some info => exact lookup_insert_eq_ite _ _ _ _

@[simp] theorem modifyInfo_vRandom : (am.modifyInfo nId f).vRandom = am.vRandom := by
  unfold modifyInfo; split <;> rfl

@[simp] theorem modifyInfo_mapAddr : (am.modifyInfo nId f).mapAddr = am.mapAddr := by
  unfold modifyInfo; split <;> rfl

@[simp] theorem modifyInfo_nIdCount : (am.modifyInfo nId f).nIdCount = am.nIdCount := by
  unfold modifyInfo; split <;> rfl

@[simp] theorem modifyInfo_vvNew : (am.modifyInfo nId f).vvNew = am.vvNew := by
  unfold modifyInfo; split <;> rfl

@[simp] theorem modifyInfo_vvTried : (am.modifyInfo nId f).vvTried = am.vvTried := by
  unfold modifyInfo; split <;> rfl

@[simp] theorem modifyInfo_nNew : (am.modifyInfo nId f).nNew = am.nNew := by
  unfold modifyInfo; split <;> rfl

@[simp] theorem modifyInfo_nTried : (am.modifyInfo nId f).nTried = am.nTried := by
  unfold modifyInfo; split <;> rfl

@[simp] theorem modifyInfo_nKey : (am.modifyInfo nId f).nKey = am.nKey := by
  unfold modifyInfo; split <;> rfl

/-- A change that keeps a feature of the entries keeps it in every lookup. -/
theorem map_lookup_modifyInfo {α : Type} (g : CAddrInfo → α) (hf : ∀ info, g (f info) = g info)
    (k : ℤ) : ((am.modifyInfo nId f).mapInfo.lookup k).map g = (am.mapInfo.lookup k).map g := by
  rw [lookup_modifyInfo]
  split_ifs with hk
  · rw [hk, Option.map_map]
    exact congrArg (Option.map · _) (funext hf)
  · rfl

/-- Maps that agree in a feature of their entries have the same ids. -/
theorem mem_iff_of_map_lookup {α : Type} {m m' : StdMap ℤ CAddrInfo} {g : CAddrInfo → α} {k : ℤ}
    (h : (m'.lookup k).map g = (m.lookup k).map g) : k ∈ m' ↔ k ∈ m := by
  rw [← Finmap.lookup_isSome, ← Finmap.lookup_isSome, ← Option.isSome_map (f := g), h,
    Option.isSome_map]

/-- **What keeps the places of the entries keeps the indexes.** -/
theorem Indexed.congr (h : am.Indexed) (hrandom : am'.vRandom = am.vRandom)
    (haddr : am'.mapAddr = am.mapAddr) (hcount : am'.nIdCount = am.nIdCount)
    (hplace : ∀ k, (am'.mapInfo.lookup k).map CAddrInfo.place =
      (am.mapInfo.lookup k).map CAddrInfo.place) : am'.Indexed := by
  have hmem : ∀ k, k ∈ am'.mapInfo ↔ k ∈ am.mapInfo := fun k => mem_iff_of_map_lookup (hplace k)
  have hold : ∀ {k info}, am'.mapInfo.lookup k = some info →
      ∃ old, am.mapInfo.lookup k = some old ∧ old.addr = info.addr ∧
        old.nRandomPos = info.nRandomPos := by
    intro k info hinfo
    have heq := hplace k
    rw [hinfo, Option.map_some] at heq
    obtain ⟨old, hold, hpl⟩ := Option.map_eq_some_iff.mp heq.symm
    exact ⟨old, hold, congrArg Prod.fst hpl, congrArg Prod.snd hpl⟩
  have hnew : ∀ {k old}, am.mapInfo.lookup k = some old →
      ∃ info, am'.mapInfo.lookup k = some info ∧ info.addr = old.addr := by
    intro k old hlookup
    have heq := hplace k
    rw [hlookup, Option.map_some] at heq
    obtain ⟨info, hinfo, hpl⟩ := Option.map_eq_some_iff.mp heq
    exact ⟨info, hinfo, congrArg Prod.fst hpl⟩
  refine ⟨hrandom ▸ h.nodup, fun k => ?_, fun k info hinfo => ?_, fun addr k => ?_, fun k hk => ?_⟩
  · rw [hrandom, h.mem_vRandom, hmem]
  · obtain ⟨old, hlookup, -, hpos⟩ := hold hinfo
    rw [hrandom, ← hpos]
    exact h.position k old hlookup
  · rw [haddr, h.address]
    constructor
    · rintro ⟨old, hlookup, rfl⟩
      exact hnew hlookup
    · rintro ⟨info, hinfo, rfl⟩
      obtain ⟨old, hlookup, heq, -⟩ := hold hinfo
      exact ⟨old, hlookup, heq⟩
  · rw [hcount]
    exact h.lt_nIdCount k ((hmem k).mp hk)

/-- A change of an entry that keeps its place. -/
theorem Indexed.modifyInfo (h : am.Indexed) (hf : ∀ info, (f info).place = info.place) :
    (am.modifyInfo nId f).Indexed :=
  h.congr (by simp) (by simp) (by simp) (map_lookup_modifyInfo _ hf)

/-! ## Swapping -/

/-- What a swap of two positions leaves: nothing has changed, or the ids at the positions have
changed places. -/
theorem swapRandom_cases (am : CAddrMan) (p q : ℕ) : am.swapRandom p q = am ∨
    ∃ nId₁ nId₂, p ≠ q ∧ am.vRandom[p]? = some nId₁ ∧ am.vRandom[q]? = some nId₂ ∧
      am.swapRandom p q =
        { (am.modifyInfo nId₁ fun info => { info with nRandomPos := q }).modifyInfo nId₂
            fun info => { info with nRandomPos := p } with
          vRandom := (am.vRandom.set p nId₂).set q nId₁ } := by
  unfold swapRandom
  split_ifs with heq
  · exact .inl rfl
  · cases hp : am.vRandom[p]? with
    | none => exact .inl rfl
    | some nId₁ =>
      cases hq : am.vRandom[q]? with
      | none => exact .inl rfl
      | some nId₂ => exact .inr ⟨nId₁, nId₂, heq, rfl, rfl, rfl⟩

/-- A swap changes positions only. -/
theorem map_lookup_swapRandom (am : CAddrMan) {α : Type} (g : CAddrInfo → α)
    (hg : ∀ (info : CAddrInfo) (n : ℤ), g { info with nRandomPos := n } = g info) (p q : ℕ) (k : ℤ) :
    ((am.swapRandom p q).mapInfo.lookup k).map g = (am.mapInfo.lookup k).map g := by
  rcases am.swapRandom_cases p q with heq | ⟨nId₁, nId₂, -, -, -, heq⟩
  · rw [heq]
  · rw [heq]
    exact (map_lookup_modifyInfo g (fun info => hg info p) k).trans
      (map_lookup_modifyInfo g (fun info => hg info q) k)

/-- A swap leaves the tables and the counts alone. -/
theorem swapRandom_frame (am : CAddrMan) (p q : ℕ) :
    (am.swapRandom p q).mapAddr = am.mapAddr ∧ (am.swapRandom p q).nIdCount = am.nIdCount ∧
      (am.swapRandom p q).vvNew = am.vvNew ∧ (am.swapRandom p q).vvTried = am.vvTried ∧
      (am.swapRandom p q).nNew = am.nNew ∧ (am.swapRandom p q).nTried = am.nTried ∧
      (am.swapRandom p q).nKey = am.nKey := by
  rcases am.swapRandom_cases p q with heq | ⟨nId₁, nId₂, -, -, -, heq⟩ <;> rw [heq] <;> simp

/-- A swap keeps the number of entries. -/
@[simp] theorem swapRandom_length (am : CAddrMan) (p q : ℕ) :
    (am.swapRandom p q).vRandom.length = am.vRandom.length := by
  rcases am.swapRandom_cases p q with heq | ⟨nId₁, nId₂, -, -, -, heq⟩ <;> rw [heq]
  simp

/-- The ids after a swap. -/
theorem getElem?_swapRandom (am : CAddrMan) {p q : ℕ} (hp : p < am.vRandom.length)
    (hq : q < am.vRandom.length) :
    (am.swapRandom p q).vRandom[q]? = am.vRandom[p]? := by
  unfold swapRandom
  split_ifs with heq
  · rw [heq]
  · rw [List.getElem?_eq_getElem hp, List.getElem?_eq_getElem hq]
    simp [hq]

/-- **A swap keeps the indexes.** -/
theorem Indexed.swapRandom (h : am.Indexed) (p q : ℕ) : (am.swapRandom p q).Indexed := by
  obtain ⟨haddr, hcount, -⟩ := am.swapRandom_frame p q
  have hlookup : ∀ k, ((am.swapRandom p q).mapInfo.lookup k).map (fun info => info.addr) =
      (am.mapInfo.lookup k).map (fun info => info.addr) :=
    am.map_lookup_swapRandom _ (fun _ _ => rfl) p q
  have hmem : ∀ k, k ∈ (am.swapRandom p q).mapInfo ↔ k ∈ am.mapInfo :=
    fun k => mem_iff_of_map_lookup (hlookup k)
  rcases am.swapRandom_cases p q with heq | ⟨nId₁, nId₂, hne, hp, hq, heq⟩
  · rwa [heq]
  obtain ⟨hplt, hp'⟩ := List.getElem?_eq_some_iff.mp hp
  obtain ⟨hqlt, hq'⟩ := List.getElem?_eq_some_iff.mp hq
  have hperm : (am.swapRandom p q).vRandom.Perm am.vRandom := by
    have hset : ((am.vRandom.set p am.vRandom[q]).set q am.vRandom[p]).Perm am.vRandom :=
      List.set_set_perm hplt hqlt
    rw [heq, ← hp', ← hq']
    exact hset
  have hids : nId₁ ≠ nId₂ := by
    rintro rfl
    exact hne ((List.Nodup.getElem_inj_iff h.nodup).mp (hp'.trans hq'.symm))
  refine ⟨hperm.nodup_iff.mpr h.nodup, fun k => ?_, fun k info hinfo => ?_, fun addr k => ?_,
    fun k hk => ?_⟩
  · rw [hperm.mem_iff, h.mem_vRandom, hmem]
  · -- the entries that were swapped know their new positions, the others have kept theirs
    rw [heq] at hinfo ⊢
    simp only [lookup_modifyInfo, hids.symm, if_false] at hinfo
    by_cases hk₂ : k = nId₂
    · subst hk₂
      rw [if_pos rfl] at hinfo
      obtain ⟨old, hold, rfl⟩ := Option.map_eq_some_iff.mp hinfo
      refine ⟨Int.natCast_nonneg p, ?_⟩
      simp [hne.symm, hplt]
    · rw [if_neg hk₂] at hinfo
      by_cases hk₁ : k = nId₁
      · subst hk₁
        rw [if_pos rfl] at hinfo
        obtain ⟨old, hold, rfl⟩ := Option.map_eq_some_iff.mp hinfo
        refine ⟨Int.natCast_nonneg q, ?_⟩
        simp [hqlt]
      · rw [if_neg hk₁] at hinfo
        obtain ⟨hpos, hget⟩ := h.position k info hinfo
        refine ⟨hpos, ?_⟩
        have hnp : p ≠ info.nRandomPos.toNat := by
          intro hpe
          rw [← hpe, hp, Option.some.injEq] at hget
          exact hk₁ hget.symm
        have hnq : q ≠ info.nRandomPos.toNat := by
          intro hqe
          rw [← hqe, hq, Option.some.injEq] at hget
          exact hk₂ hget.symm
        rw [List.getElem?_set_ne hnq, List.getElem?_set_ne hnp, hget]
  · rw [haddr, h.address]
    have hmap := hlookup k
    constructor
    · rintro ⟨info, hinfo, rfl⟩
      rw [hinfo, Option.map_some] at hmap
      obtain ⟨info', hinfo', heq'⟩ := Option.map_eq_some_iff.mp hmap
      exact ⟨info', hinfo', heq'⟩
    · rintro ⟨info, hinfo, rfl⟩
      rw [hinfo, Option.map_some] at hmap
      obtain ⟨info', hinfo', heq'⟩ := Option.map_eq_some_iff.mp hmap.symm
      exact ⟨info', hinfo', heq'⟩
  · rw [hcount]
    exact h.lt_nIdCount k ((hmem k).mp hk)

/-! ## Creating and deleting -/

/-- The next id is not in use. -/
theorem Indexed.nIdCount_notMem (h : am.Indexed) : am.nIdCount ∉ am.mapInfo :=
  fun hmem => lt_irrefl _ (h.lt_nIdCount _ hmem)

/-- **Creating an entry for an address that is not known keeps the indexes.** -/
theorem Indexed.create (h : am.Indexed) {addr : CAddress} (source : CNetAddr)
    (hnew : am.mapAddr.lookup addr.addr = none) : (am.create addr source).Indexed := by
  have hfresh := h.nIdCount_notMem
  have hne : ∀ {k}, k ∈ am.mapInfo → k ≠ am.nIdCount := by
    rintro k hk rfl
    exact hfresh hk
  have hlookup : ∀ k, (am.create addr source).mapInfo.lookup k = if k = am.nIdCount then
      some { CAddrInfo.new addr source with nRandomPos := am.vRandom.length }
      else am.mapInfo.lookup k := fun k => lookup_insert_eq_ite _ _ _ _
  refine ⟨?_, fun k => ?_, fun k info hinfo => ?_, fun a k => ?_, fun k hk => ?_⟩
  · refine List.nodup_append.mpr ⟨h.nodup, List.nodup_singleton _, ?_⟩
    intro a ha b hb
    rw [List.mem_singleton.mp hb]
    exact hne ((h.mem_vRandom a).mp ha)
  · rw [CAddrMan.create, List.mem_append, List.mem_singleton, h.mem_vRandom, Finmap.mem_insert,
      or_comm]
  · -- the new entry is at the end, and the others are where they were
    rw [hlookup] at hinfo
    by_cases hk : k = am.nIdCount
    · rw [if_pos hk, Option.some.injEq] at hinfo
      subst hinfo hk
      exact ⟨Int.natCast_nonneg _, by simp [CAddrMan.create]⟩
    · rw [if_neg hk] at hinfo
      obtain ⟨hpos, hget⟩ := h.position k info hinfo
      refine ⟨hpos, ?_⟩
      rw [CAddrMan.create, List.getElem?_append_left (List.getElem?_eq_some_iff.mp hget).1, hget]
  · rw [hlookup, CAddrMan.create]
    refine (Eq.congr_left (lookup_insert_eq_ite am.mapAddr addr.addr a am.nIdCount)).trans ?_
    by_cases ha : a = addr.addr
    · -- no older entry has the address, as it was not known
      subst ha
      rw [if_pos rfl, Option.some.injEq]
      constructor
      · rintro rfl
        rw [if_pos rfl]
        exact ⟨_, rfl, rfl⟩
      · rintro ⟨info, hinfo, haddr⟩
        by_contra hk
        rw [if_neg (Ne.symm hk)] at hinfo
        rw [(h.address _ _).mpr ⟨info, hinfo, haddr⟩] at hnew
        cases hnew
    · rw [if_neg ha, h.address]
      constructor
      · rintro ⟨info, hinfo, rfl⟩
        rw [if_neg (hne (Finmap.mem_of_lookup_eq_some hinfo))]
        exact ⟨info, hinfo, rfl⟩
      · rintro ⟨info, hinfo, rfl⟩
        by_cases hk : k = am.nIdCount
        · rw [if_pos hk, Option.some.injEq] at hinfo
          subst hinfo
          exact absurd rfl ha
        · rw [if_neg hk] at hinfo
          exact ⟨info, hinfo, rfl⟩
  · rw [CAddrMan.create, Finmap.mem_insert] at hk
    show k < am.nIdCount + 1
    rcases hk with rfl | hk
    · omega
    · have := h.lt_nIdCount k hk
      omega

/-- **Deleting the entry at the end of `vRandom` keeps the indexes.** -/
theorem Indexed.delete (h : am.Indexed) {info : CAddrInfo} (hinfo : am.mapInfo.lookup nId = some info)
    (hlast : am.vRandom.getLast? = some nId) (hrandom : am'.vRandom = am.vRandom.dropLast)
    (haddr : am'.mapAddr = am.mapAddr.erase info.addr) (hmap : am'.mapInfo = am.mapInfo.erase nId)
    (hcount : am'.nIdCount = am.nIdCount) : am'.Indexed := by
  have hsplit : am.vRandom = am.vRandom.dropLast ++ [nId] := by
    obtain ⟨ids, hids⟩ := List.getLast?_eq_some_iff.mp hlast
    rw [hids, List.dropLast_concat]
  have hnodup : (am.vRandom.dropLast ++ [nId]).Nodup := hsplit ▸ h.nodup
  obtain ⟨hdrop, -, hdisj⟩ := List.nodup_append.mp hnodup
  have hnot : nId ∉ am.vRandom.dropLast := fun hmem => hdisj nId hmem nId (List.mem_singleton_self _) rfl
  have hlookup : ∀ k, am'.mapInfo.lookup k = if k = nId then none else am.mapInfo.lookup k := by
    intro k
    rw [hmap]
    exact lookup_erase_eq_ite _ _ _
  refine ⟨hrandom ▸ hdrop, fun k => ?_, fun k info' hinfo' => ?_, fun a k => ?_, fun k hk => ?_⟩
  · -- the id is at the end of `vRandom` and nowhere else in it
    have hmem := h.mem_vRandom k
    rw [hsplit, List.mem_append, List.mem_singleton] at hmem
    rw [hrandom, hmap, Finmap.mem_erase, ← hmem]
    constructor
    · intro hk
      refine ⟨?_, .inl hk⟩
      rintro rfl
      exact hnot hk
    · exact fun hk => hk.2.resolve_right hk.1
  · -- the positions of the others are before the end
    rw [hlookup] at hinfo'
    by_cases hk : k = nId
    · rw [if_pos hk] at hinfo'
      cases hinfo'
    · rw [if_neg hk] at hinfo'
      obtain ⟨hpos, hget⟩ := h.position k info' hinfo'
      refine ⟨hpos, ?_⟩
      rw [hsplit] at hget
      rw [hrandom]
      have hlt := (List.getElem?_eq_some_iff.mp hget).1
      by_cases hend : info'.nRandomPos.toNat < am.vRandom.dropLast.length
      · rwa [List.getElem?_append_left hend] at hget
      · rw [List.getElem?_append_right (not_lt.mp hend)] at hget
        have := List.mem_singleton.mp (List.mem_of_getElem? hget)
        exact absurd this hk
  · rw [haddr, hlookup]
    refine (Eq.congr_left (lookup_erase_eq_ite am.mapAddr info.addr a)).trans ?_
    by_cases ha : a = info.addr
    · -- the deleted entry was the only one with its address
      subst ha
      rw [if_pos rfl]
      constructor
      · rintro ⟨⟩
      · rintro ⟨info', hinfo', heq⟩
        by_cases hk : k = nId
        · rw [if_pos hk] at hinfo'
          cases hinfo'
        · rw [if_neg hk] at hinfo'
          have hid := (h.address info.addr nId).mpr ⟨info, hinfo, rfl⟩
          rw [(h.address info.addr k).mpr ⟨info', hinfo', heq⟩, Option.some.injEq] at hid
          exact absurd hid hk
    · rw [if_neg ha, h.address]
      by_cases hk : k = nId
      · rw [if_pos hk]
        constructor
        · rintro ⟨info', hinfo', rfl⟩
          rw [hk, hinfo, Option.some.injEq] at hinfo'
          exact absurd (congrArg (·.addr) hinfo').symm ha
        · rintro ⟨info', hinfo', -⟩
          cases hinfo'
      · rw [if_neg hk]
  · rw [hmap, Finmap.mem_erase] at hk
    rw [hcount]
    exact h.lt_nIdCount k hk.2

end CAddrMan

end FoxCoin
