import FoxCoin.AddrTried
import FoxCoin.Lib.Runs

/-! # The address manager over whole runs

Every operation keeps the indexes and the tables in agreement with the entries, whatever the
addresses, the times and the random choices are. -/

namespace FoxCoin

open Overlay Buckets Runs

namespace CAddrMan

variable {am : CAddrMan} {nId : ℤ}

/-! ## Operations -/

/-- A change of an entry that keeps its place and its status. -/
theorem Valid.modifyInfo (h : am.Valid) (nId : ℤ) {f : CAddrInfo → CAddrInfo}
    (hplace : ∀ info, (f info).place = info.place) (hstatus : ∀ info, (f info).status = info.status) :
    (am.modifyInfo nId f).Valid :=
  ⟨h.indexed.modifyInfo hplace,
    h.tabled.inside (fun _ _ => sameFiling_modifyInfo_of_status hstatus)
      (by simpa using h.tabled.new_size) (by simpa using h.tabled.tried_size) (by simp) (by simp)⟩

/-- A swap keeps the tables. -/
theorem Valid.swapRandom (h : am.Valid) (p q : ℕ) : (am.swapRandom p q).Valid := by
  obtain ⟨-, -, hnew, htried, hnNew, hnTried, -⟩ := am.swapRandom_frame p q
  exact ⟨h.indexed.swapRandom p q,
    h.tabled.inside (fun _ _ => sameFiling_swapRandom p q) (hnew ▸ h.tabled.new_size)
      (htried ▸ h.tabled.tried_size) (by rw [hnNew]) (by rw [hnTried])⟩

/-- The empty tables. -/
theorem valid_empty (nKey : List UInt8) : (empty nKey).Valid := by
  refine ⟨⟨List.nodup_nil, ?_, ?_, ?_, ?_⟩, ⟨?_, ?_, ?_, rfl, rfl⟩⟩
  · exact fun nId => iff_of_false List.not_mem_nil Finmap.notMem_empty
  · rintro nId info ⟨⟩
  · simp [empty]
  · exact fun nId hmem => absurd hmem Finmap.notMem_empty
  · intro nId _
    refine ⟨?_, occurrences_eq_zero.mpr fun _ => List.not_mem_nil⟩
    rw [Finset.card_eq_zero, places_eq_empty]
    exact fun _ => Finset.notMem_empty _
  · exact fun _ => Nat.zero_le _
  · exact fun _ => Nat.zero_le _

/-- What `Find` finds for a service. -/
theorem lookup_of_findService {addr : CService} {info : CAddrInfo}
    (h : am.findService addr = some (nId, info)) : am.mapInfo.lookup nId = some info := by
  obtain ⟨nId', -, hmap⟩ := Option.bind_eq_some_iff.mp (Option.filter_eq_some_iff.mp h).1
  obtain ⟨info', hinfo, heq⟩ := Option.map_eq_some_iff.mp hmap
  rw [Prod.mk.injEq] at heq
  rw [← heq.1, ← heq.2, hinfo]

/-- The status of an entry that `Find` finds. -/
theorem statusOf_of_findService {addr : CService} {info : CAddrInfo}
    (h : am.findService addr = some (nId, info)) : am.statusOf nId = some info.status := by
  rw [statusOf, lookup_of_findService h, Option.map_some]

/-- What `Good_` writes into an entry. -/
def setGood (nTime : Int64) (info : CAddrInfo) : CAddrInfo :=
  { info with
    nLastSuccess := nTime
    nLastTry := nTime
    nTime := nTime.toUInt64.toUInt32
    nAttempts := 0 }

/-- What `Good_` does: nothing, or it writes the entry, or it moves it to the tried table after
that. -/
theorem good_cases (K : AddrParams) (am : CAddrMan) (rnd : ℕ → ℕ) (addr : CService) (nTime : Int64) :
    am.good K rnd addr nTime = am ∨
      (∃ nId, am.good K rnd addr nTime = am.modifyInfo nId (setGood nTime)) ∨
      ∃ nId info b, am.findService addr = some (nId, info) ∧ info.fInTried = false ∧
        nId ∈ (am.modifyInfo nId (setGood nTime)).vvNew b ∧
        am.good K rnd addr nTime =
          (am.modifyInfo nId (setGood nTime)).makeTried K (fun i => rnd (i + 1)) nId b := by
  unfold CAddrMan.good
  cases hfind : am.findService addr with
  | none => exact .inl rfl
  | some p =>
    obtain ⟨nId, info⟩ := p
    dsimp only
    split_ifs with htried
    · exact .inr (.inl ⟨nId, rfl⟩)
    · split
      · exact .inr (.inl ⟨nId, rfl⟩)
      · next b horigin =>
        exact .inr (.inr ⟨nId, info, b, rfl, Bool.eq_false_iff.mpr htried, mem_of_originOf horigin,
          rfl⟩)

theorem Valid.setGood (h : am.Valid) (nId : ℤ) (nTime : Int64) :
    (am.modifyInfo nId (setGood nTime)).Valid :=
  h.modifyInfo nId (fun _ => rfl) fun _ => rfl

theorem triedFrame_setGood (am : CAddrMan) (nId : ℤ) (nTime : Int64) :
    am.TriedFrame (am.modifyInfo nId (setGood nTime)) :=
  am.triedFrame_modifyInfo nId fun _ => rfl

/-- The entry that `Good_` moves is a new one. -/
theorem statusOf_setGood {addr : CService} {info : CAddrInfo} (nTime : Int64)
    (hfind : am.findService addr = some (nId, info)) (htried : info.fInTried = false) :
    (am.modifyInfo nId (setGood nTime)).statusOf nId = some (info.nRefCount, false) := by
  have hsame : am.SameFiling (am.modifyInfo nId (setGood nTime)) nId :=
    sameFiling_modifyInfo_of_status fun _ => rfl
  rw [hsame.status, statusOf_of_findService hfind, CAddrInfo.status, htried]

/-- `Good_` keeps the indexes and the tables. -/
theorem Valid.good (K : AddrParams) (h : am.Valid) (rnd : ℕ → ℕ) (addr : CService) (nTime : Int64) :
    (am.good K rnd addr nTime).Valid := by
  rcases am.good_cases K rnd addr nTime with
    heq | ⟨nId, heq⟩ | ⟨nId, info, b, hfind, htried, hmem, heq⟩
  · rwa [heq]
  · rw [heq]
    exact h.setGood nId nTime
  · rw [heq]
    exact (h.setGood nId nTime).makeTried K (statusOf_setGood nTime hfind htried) hmem _

/-- `Good_` files the entry by its hash. -/
theorem InBuckets.good {K : AddrParams} (hbuckets : am.InBuckets K) (h : am.Valid) (rnd : ℕ → ℕ)
    (addr : CService) (nTime : Int64) : (am.good K rnd addr nTime).InBuckets K := by
  rcases am.good_cases K rnd addr nTime with heq | ⟨nId, heq⟩ | ⟨nId, info, b, hfind, htried, -, heq⟩
  · rwa [heq]
  · rw [heq]
    exact hbuckets.congr (am.triedFrame_setGood nId nTime)
  · rw [heq]
    exact (hbuckets.congr (am.triedFrame_setGood nId nTime)).makeTried (h.setGood nId nTime)
      (statusOf_setGood nTime hfind htried) b _

/-- `Attempt_` keeps the indexes and the tables. -/
theorem Valid.attempt (h : am.Valid) (addr : CService) (nTime : Int64) :
    (am.attempt addr nTime).Valid := by
  unfold CAddrMan.attempt
  cases am.findService addr with
  | none => exact h
  | some p => exact h.modifyInfo p.1 (fun _ => rfl) fun _ => rfl

/-- `Connected_` keeps the indexes and the tables. -/
theorem Valid.connected (h : am.Valid) (addr : CService) (nTime : Int64) :
    (am.connected addr nTime).Valid := by
  unfold CAddrMan.connected
  cases am.findService addr with
  | none => exact h
  | some p =>
    refine h.modifyInfo p.1 (fun info => ?_) fun info => ?_
    · split_ifs <;> rfl
    · split_ifs <;> rfl

/-- What swaps keep, `GetAddr_` keeps. -/
theorem getAddr_induction {p : CAddrMan → Prop} (hswap : ∀ am i j, p am → p (am.swapRandom i j))
    (h : p am) (rnd : ℕ → ℕ) : p (am.getAddr rnd).2 := by
  unfold CAddrMan.getAddr
  generalize List.range am.nNodes = ns
  suffices hfold : ∀ out : List CAddrInfo × CAddrMan, p out.2 →
      p (ns.foldl (fun out n =>
        let nRndPos := getRandInt (rnd n) (out.2.vRandom.length - n) + n
        let am := out.2.swapRandom n nRndPos
        (out.1 ++ ((am.vRandom[n]?).bind am.mapInfo.lookup).toList, am)) out).2 from
    hfold ([], am) h
  induction ns with
  | nil => exact fun _ hout => hout
  | cons n ns ih => exact fun out hout => ih _ (hswap out.2 _ _ hout)

/-- `GetAddr_` keeps the indexes and the tables. -/
theorem Valid.getAddr (h : am.Valid) (rnd : ℕ → ℕ) : (am.getAddr rnd).2.Valid :=
  getAddr_induction (fun _ i j hvalid => hvalid.swapRandom i j) h rnd

theorem triedFrame_getAddr (am : CAddrMan) (rnd : ℕ → ℕ) : am.TriedFrame (am.getAddr rnd).2 :=
  getAddr_induction (p := am.TriedFrame) (fun am' i j h => h.trans (am'.triedFrame_swapRandom i j))
    (.refl am) rnd

/-- What `Add_` learns leaves the place, the status and the service of an entry alone. -/
theorem refresh_frame (addr : CAddress) (nTimePenalty nNow : ℤ) (info : CAddrInfo) :
    (refresh addr nTimePenalty nNow info).place = info.place ∧
      (refresh addr nTimePenalty nNow info).status = info.status ∧
        (refresh addr nTimePenalty nNow info).toCService = info.toCService := by
  unfold refresh
  dsimp only
  split_ifs <;> exact ⟨rfl, rfl, rfl⟩

/-- An entry that gets another reference was not tried and has less than four. -/
theorem of_wantsRef {addr : CAddress} {nRnd : ℕ} {info : CAddrInfo}
    (h : wantsRef addr nRnd info = true) : info.fInTried = false ∧ info.nRefCount ≠ 4 := by
  unfold wantsRef at h
  split_ifs at h with _ htried hfull
  exact ⟨Bool.eq_false_iff.mpr htried, hfull⟩

/-- `Add_` keeps the indexes and the tables for an address it has. -/
theorem Valid.addRef (K : AddrParams) (h : am.Valid) {info : CAddrInfo}
    (hinfo : am.mapInfo.lookup nId = some info) (htried : info.fInTried = false)
    (hfull : info.nRefCount ≠ 4) (rnd : ℕ → ℕ) (nNow : ℤ) (source : CNetAddr) :
    (am.addRef K rnd nNow nId source).Valid ∧ am.TriedFrame (am.addRef K rnd nNow nId source) := by
  have hstatus : am.statusOf nId = some (info.nRefCount, false) := by
    rw [statusOf, hinfo, Option.map_some, CAddrInfo.status, htried]
  have hfiled := h.tabled.filed nId (Finset.notMem_empty nId)
  have hopen := h.tabled.open nId
  rw [hstatus] at hfiled hopen
  obtain ⟨hpos, hle, hplaces, hocc⟩ := hfiled
  exact h.indexed.addRef K hopen hstatus (by omega) (by omega) hplaces hocc rnd nNow source

/-- The state after `Create`, before the new entry has a reference. -/
def created (am : CAddrMan) (addr : CAddress) (source : CNetAddr) (nTimePenalty : ℤ) : CAddrMan :=
  let am' := (am.create addr source).modifyInfo am.nIdCount fun info =>
    { info with nTime := penalize info.nTime nTimePenalty }
  { am' with nNew := am'.nNew + 1 }

/-- The status of the ids after `Create`. -/
theorem statusOf_created (am : CAddrMan) (addr : CAddress) (source : CNetAddr) (nTimePenalty k : ℤ) :
    (am.created addr source nTimePenalty).statusOf k =
      if k = am.nIdCount then some (0, false) else am.statusOf k := by
  have hsame : (am.create addr source).SameFiling ((am.create addr source).modifyInfo am.nIdCount
      fun info => { info with nTime := penalize info.nTime nTimePenalty }) k :=
    sameFiling_modifyInfo_of_status fun _ => rfl
  refine hsame.status.trans ?_
  refine (congrArg (Option.map _) (lookup_insert_eq_ite _ _ _ _)).trans ?_
  split_ifs <;> rfl

/-- `Add_` keeps the indexes and the tables for a new address. -/
theorem Valid.addRef_created (K : AddrParams) (h : am.Valid) {addr : CAddress}
    (hnew : am.mapAddr.lookup addr.addr = none) (source : CNetAddr) (nTimePenalty : ℤ)
    (rnd : ℕ → ℕ) (nNow : ℤ) :
    ((am.created addr source nTimePenalty).addRef K rnd nNow am.nIdCount source).Valid ∧
      am.TriedFrame ((am.created addr source nTimePenalty).addRef K rnd nNow am.nIdCount source) := by
  have hfresh : am.statusOf am.nIdCount = none :=
    congrArg (Option.map _) (Finmap.lookup_eq_none.mpr h.indexed.nIdCount_notMem)
  have hfiled := h.tabled.filed am.nIdCount (Finset.notMem_empty _)
  have hopen := h.tabled.open am.nIdCount
  rw [hfresh] at hfiled hopen
  have hvvNew : (am.created addr source nTimePenalty).vvNew = am.vvNew := modifyInfo_vvNew
  have hvvTried : (am.created addr source nTimePenalty).vvTried = am.vvTried := modifyInfo_vvTried
  have hnNew : (am.created addr source nTimePenalty).nNew = am.nNew + 1 :=
    congrArg (· + 1) modifyInfo_nNew
  have hnTried : (am.created addr source nTimePenalty).nTried = am.nTried := modifyInfo_nTried
  have hstatus := am.statusOf_created addr source nTimePenalty
  have hindexed : (am.created addr source nTimePenalty).Indexed := by
    have hcreate : ((am.create addr source).modifyInfo am.nIdCount fun info =>
        { info with nTime := penalize info.nTime nTimePenalty }).Indexed :=
      (h.indexed.create source hnew).modifyInfo fun _ => rfl
    exact hcreate.congr rfl rfl rfl fun _ => rfl
  have hframe : am.TriedFrame (am.created addr source nTimePenalty) := by
    refine ⟨modifyInfo_nKey, modifyInfo_vvTried, fun b k hmem => ?_⟩
    have hk : k ≠ am.nIdCount := by
      rintro rfl
      exact occurrences_eq_zero.mp hfiled.2 b hmem
    refine (congrArg (Option.map _) ((lookup_modifyInfo _ _ _ _).trans (if_neg hk))).trans ?_
    exact congrArg (Option.map _) ((lookup_insert_eq_ite _ _ _ _).trans (if_neg hk))
  refine (hindexed.addRef K ?_ ((hstatus _).trans (if_pos rfl)) le_rfl (by norm_num)
    (by rw [hvvNew, hfiled.1]; rfl) (by rw [hvvTried, hfiled.2]) rnd nNow source).imp_right hframe.trans
  refine hopen.inside (fun k hk => ⟨(hstatus k).trans (if_neg (by simpa using hk)), ?_, ?_⟩)
    (by rw [hvvNew]; exact h.tabled.new_size) (by rw [hvvTried]; exact h.tabled.tried_size) ?_ ?_
  · rw [hvvNew]
  · rw [hvvTried]
  · rw [hnNew]
    simp
  · rw [hnTried]
    simp

/-- An address that `Find` does not find is not in `mapAddr`. -/
theorem Indexed.lookup_of_find (h : am.Indexed) {addr : CNetAddr} (hfind : am.find addr = none) :
    am.mapAddr.lookup addr = none := by
  cases hlookup : am.mapAddr.lookup addr with
  | none => rfl
  | some nId =>
    obtain ⟨info, hinfo, -⟩ := (h.address addr nId).mp hlookup
    rw [find, hlookup, Option.bind_some, hinfo] at hfind
    cases hfind

/-- `Add_` keeps the indexes and the tables, and leaves the tried table alone. -/
theorem Valid.add (K : AddrParams) (h : am.Valid) (rnd : ℕ → ℕ) (nNow : ℤ) (addr : CAddress)
    (source : CNetAddr) (nTimePenalty : ℤ) : (am.add K rnd nNow addr source nTimePenalty).2.Valid ∧
      am.TriedFrame (am.add K rnd nNow addr source nTimePenalty).2 := by
  unfold CAddrMan.add
  split_ifs with hroutable
  · exact ⟨h, .refl am⟩
  · cases hfind : am.find addr.addr with
    | none => exact h.addRef_created K (h.indexed.lookup_of_find hfind) source nTimePenalty rnd nNow
    | some p =>
      obtain ⟨nId, info⟩ := p
      dsimp only
      have hframe := refresh_frame addr nTimePenalty nNow
      have h₁ := h.modifyInfo nId (fun info => (hframe info).1) fun info => (hframe info).2.1
      have htried₁ := am.triedFrame_modifyInfo nId fun info => (hframe info).2.2
      split_ifs with hwants
      · obtain ⟨htried, hfull⟩ := of_wantsRef hwants
        obtain ⟨nId', -, hmap⟩ := Option.bind_eq_some_iff.mp hfind
        obtain ⟨info', hinfo, heq⟩ := Option.map_eq_some_iff.mp hmap
        rw [Prod.mk.injEq] at heq
        obtain ⟨rfl, rfl⟩ := heq
        refine (h₁.addRef K ?_ htried hfull _ nNow source).imp_right htried₁.trans
        rw [lookup_modifyInfo, if_pos rfl, hinfo, Option.map_some]
      · exact ⟨h₁, htried₁⟩

/-! ## The representation invariant -/

/-- The statement `CAddrMan::Check_` tests, with the ids of every bucket known. -/
structure Check (am : CAddrMan) : Prop where
  vRandom : am.vRandom.Nodup ∧ ∀ nId, nId ∈ am.vRandom ↔ nId ∈ am.mapInfo
  nRandomPos : ∀ nId info, am.mapInfo.lookup nId = some info →
    0 ≤ info.nRandomPos ∧ am.vRandom[info.nRandomPos.toNat]? = some nId
  mapAddr : ∀ addr nId, am.mapAddr.lookup addr = some nId ↔
    ∃ info, am.mapInfo.lookup nId = some info ∧ info.addr = addr
  tried : ∀ nId info, am.mapInfo.lookup nId = some info → info.fInTried = true →
    info.nRefCount = 0 ∧ occurrences am.vvTried nId = 1 ∧ places am.vvNew nId = ∅
  new : ∀ nId info, am.mapInfo.lookup nId = some info → info.fInTried = false →
    1 ≤ info.nRefCount ∧ info.nRefCount ≤ 4 ∧ ((places am.vvNew nId).card : ℤ) = info.nRefCount ∧
      occurrences am.vvTried nId = 0
  known : (∀ b, ∀ nId ∈ am.vvNew b, nId ∈ am.mapInfo) ∧
    ∀ b, ∀ nId ∈ am.vvTried b, nId ∈ am.mapInfo
  sizes : (∀ b, (am.vvNew b).card ≤ 64) ∧ ∀ b, (am.vvTried b).length ≤ 64
  nNew : am.nNew = (am.mapInfo.keys.filter fun nId =>
    (am.mapInfo.lookup nId).any fun info => !info.fInTried).card
  nTried : am.nTried = (am.mapInfo.keys.filter fun nId =>
    (am.mapInfo.lookup nId).any fun info => info.fInTried).card

/-- The number of entries that a count stands for. -/
theorem total_eq_card (am : CAddrMan) (fTried : Bool) {weight : ℤ × Bool → ℤ}
    (hweight : ∀ status, weight status = if status.2 = fTried then 1 else 0) :
    total (weightOutside ∅ weight) am.mapInfo = (am.mapInfo.keys.filter fun nId =>
      (am.mapInfo.lookup nId).any fun info => info.fInTried = fTried).card := by
  rw [total_eq_sum (weightOutside ∅ weight) am.mapInfo fun k hk => Finmap.mem_keys.mpr hk,
    Finset.card_filter]
  push_cast
  refine Finset.sum_congr rfl fun k _ => ?_
  rw [weightAt_weightOutside, if_neg (Finset.notMem_empty k), statusOf]
  cases am.mapInfo.lookup k with
  | none => simp
  | some info => simp [hweight, CAddrInfo.status]

/-- **What the operations keep is what `Check_` tests.** -/
theorem Valid.check (h : am.Valid) : am.Check where
  vRandom := ⟨h.indexed.nodup, h.indexed.mem_vRandom⟩
  nRandomPos := h.indexed.position
  mapAddr := h.indexed.address
  tried nId info hinfo htried := by
    have hfiled := h.tabled.filed nId (Finset.notMem_empty nId)
    rw [statusOf, hinfo, Option.map_some, CAddrInfo.status, htried] at hfiled
    exact ⟨hfiled.1, hfiled.2.2, Finset.card_eq_zero.mp hfiled.2.1⟩
  new nId info hinfo htried := by
    have hfiled := h.tabled.filed nId (Finset.notMem_empty nId)
    rw [statusOf, hinfo, Option.map_some, CAddrInfo.status, htried] at hfiled
    exact hfiled
  known := by
    refine ⟨fun b nId hmem => h.tabled.mem_mapInfo (Finset.notMem_empty nId) hmem,
      fun b nId hmem => ?_⟩
    obtain ⟨hstatus, -⟩ := h.tabled.status_of_mem_tried (Finset.notMem_empty nId) hmem
    obtain ⟨info, hinfo, -⟩ := Option.map_eq_some_iff.mp hstatus
    exact Finmap.mem_of_lookup_eq_some hinfo
  sizes := ⟨h.tabled.new_size, h.tabled.tried_size⟩
  nNew := by
    rw [h.tabled.nNew, add_zero, total_eq_card am false fun status => ?_]
    · simp
    · cases hstatus : status.2 <;> simp [newWeight, hstatus]
  nTried := by
    rw [h.tabled.nTried, add_zero, total_eq_card am true fun status => ?_]
    · simp
    · cases hstatus : status.2 <;> simp [triedWeight, hstatus]

end CAddrMan

/-! ## Runs -/

/-- What happens to the tables. `Select_` reads them only. -/
inductive AddrEvent where
  | add (rnd : ℕ → ℕ) (nNow : ℤ) (addr : CAddress) (source : CNetAddr) (nTimePenalty : ℤ)
  | good (rnd : ℕ → ℕ) (addr : CService) (nTime : Int64)
  | attempt (addr : CService) (nTime : Int64)
  | connected (addr : CService) (nTime : Int64)
  | select
  | getAddr (rnd : ℕ → ℕ)

/-- The tables after an event. -/
def CAddrMan.next (K : AddrParams) (am : CAddrMan) : AddrEvent → CAddrMan
  | .add rnd nNow addr source nTimePenalty => (am.add K rnd nNow addr source nTimePenalty).2
  | .good rnd addr nTime => am.good K rnd addr nTime
  | .attempt addr nTime => am.attempt addr nTime
  | .connected addr nTime => am.connected addr nTime
  | .select => am
  | .getAddr rnd => (am.getAddr rnd).2

/-- The address manager of a node: it starts empty, and every event may happen. -/
def addrSystem (K : AddrParams) : System CAddrMan AddrEvent where
  start am := ∃ nKey, am = CAddrMan.empty nKey
  legal _ _ := True
  next am e := am.next K e

/-- Every event keeps the indexes and the tables. -/
theorem CAddrMan.Valid.next (K : AddrParams) {am : CAddrMan} (h : am.Valid) (e : AddrEvent) :
    (am.next K e).Valid := by
  cases e with
  | add rnd nNow addr source nTimePenalty => exact (h.add K rnd nNow addr source nTimePenalty).1
  | good rnd addr nTime => exact h.good K rnd addr nTime
  | attempt addr nTime => exact h.attempt addr nTime
  | connected addr nTime => exact h.connected addr nTime
  | select => exact h
  | getAddr rnd => exact h.getAddr rnd

/-- The indexes and the tables agree with the entries in every run. -/
theorem CAddrMan.valid_of_reachable {K : AddrParams} {am : CAddrMan}
    (h : Reachable (addrSystem K) am) : am.Valid :=
  h.invariant (by rintro am ⟨nKey, rfl⟩; exact valid_empty nKey) fun _ e hvalid _ _ => hvalid.next K e

/-- Every event leaves the tried entries in the buckets that their hash selects. -/
theorem CAddrMan.InBuckets.next {K : AddrParams} {am : CAddrMan} (hbuckets : am.InBuckets K)
    (h : am.Valid) (e : AddrEvent) : (am.next K e).InBuckets K := by
  cases e with
  | add rnd nNow addr source nTimePenalty =>
    exact hbuckets.congr (h.add K rnd nNow addr source nTimePenalty).2
  | good rnd addr nTime => exact hbuckets.good h rnd addr nTime
  | attempt addr nTime =>
    show (am.attempt addr nTime).InBuckets K
    unfold attempt
    cases am.findService addr with
    | none => exact hbuckets
    | some p => exact hbuckets.congr (am.triedFrame_modifyInfo p.1 fun _ => rfl)
  | connected addr nTime =>
    show (am.connected addr nTime).InBuckets K
    unfold connected
    cases am.findService addr with
    | none => exact hbuckets
    | some p =>
      refine hbuckets.congr (am.triedFrame_modifyInfo p.1 fun info => ?_)
      split_ifs <;> rfl
  | select => exact hbuckets
  | getAddr rnd => exact hbuckets.congr (am.triedFrame_getAddr rnd)

/-- **In every run the tried entries are in the buckets that their hash selects.** -/
theorem CAddrMan.inBuckets_of_reachable {K : AddrParams} {am : CAddrMan}
    (h : Reachable (addrSystem K) am) : am.InBuckets K := by
  have hboth : am.Valid ∧ am.InBuckets K := by
    refine h.invariant (I := fun am => am.Valid ∧ am.InBuckets K) ?_
      fun _ e hboth _ _ => ⟨hboth.1.next K e, hboth.2.next hboth.1 e⟩
    rintro am ⟨nKey, rfl⟩
    exact ⟨valid_empty nKey, fun _ _ hmem => absurd hmem List.not_mem_nil⟩
  exact hboth.2

/-- Example parameters, with a sum in the place of the hash. -/
def exampleAddrParams : AddrParams where
  hash64 stream := (stream.map UInt8.toNat).sum
  getGroup addr := addr.ip.toList.take 2
  isRoutable _ := true

/-- An example address. -/
def exampleAddress (n : UInt8) : CAddress :=
  { addr := ⟨Vector.replicate 16 n⟩, port := 8333, nServices := 1, nTime := 1000000, nLastTry := 0 }

/-- Two addresses are added, one of them turns out to be accessible. -/
def exampleAddrRun : List AddrEvent :=
  [.add id 1000000 (exampleAddress 1) ⟨Vector.replicate 16 9⟩ 0,
    .add id 1000000 (exampleAddress 2) ⟨Vector.replicate 16 9⟩ 0,
    .good id (exampleAddress 1).toCService 1000010]

/-- The state after the example run. -/
def exampleAddrMan : CAddrMan :=
  (addrSystem exampleAddrParams).run (CAddrMan.empty (List.replicate 32 0)) exampleAddrRun

theorem reachable_exampleAddrMan : Reachable (addrSystem exampleAddrParams) exampleAddrMan := by
  have hstart : Reachable (addrSystem exampleAddrParams) (CAddrMan.empty (List.replicate 32 0)) :=
    .start ⟨_, rfl⟩
  exact hstart.run ⟨⟨trivial, trivial⟩, ⟨trivial, trivial⟩, ⟨trivial, trivial⟩, trivial⟩

end FoxCoin
