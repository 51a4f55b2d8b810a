import FoxCoin.NetMessage
import FoxCoin.Lib.Overlay
import FoxCoin.Lib.Runs

/-! # The relay memory

`RelayMessage` keeps the stream of an item so that `getdata` can be answered from it, and queues an
expiry record for 15 minutes later. An item that is there already is not inserted again, but every
call queues a record of its own, so the record of an earlier call takes the item away early. -/

namespace FoxCoin

open Overlay Runs

/-! ## Inventory items -/

/-- `CInv`: the type of an item and its hash. -/
structure CInv where
  type : ℤ
  hash : Uint256
  deriving DecidableEq, Repr

/-- `MSG_TX`. -/
def msgTx : ℤ := 1

/-- `MSG_BLOCK`. -/
def msgBlock : ℤ := 2

/-- `CInv::IsKnownType`. -/
def CInv.isKnownType (inv : CInv) : Bool := decide (1 ≤ inv.type) && decide (inv.type < 3)

/-! ## Relaying -/

/-- `mapRelay` and `vRelayExpiration`. -/
structure RelayMemory where
  mapRelay : StdMap CInv CDataStream
  vRelayExpiration : List (ℤ × CInv)

/-- The time in seconds that an item is to be kept. -/
def relaySeconds : ℤ := 15 * 60

/-- The loop of `RelayMessage` that takes the expired records off the front of the queue, and their
items out of the map. -/
def expireRelay (nTime : ℤ) (mapRelay : StdMap CInv CDataStream) : List (ℤ × CInv) → RelayMemory
  | [] => ⟨mapRelay, []⟩
  | record :: records =>
    if record.1 < nTime then expireRelay nTime (mapRelay.erase record.2) records
    else ⟨mapRelay, record :: records⟩

/-- `RelayMessage`, without the announcement to the peers. `map::insert` leaves an entry alone that
is there. -/
def RelayMemory.relayMessage (nTime : ℤ) (inv : CInv) (ss : CDataStream) (relay : RelayMemory) :
    RelayMemory :=
  let relay := expireRelay nTime relay.mapRelay relay.vRelayExpiration
  { mapRelay := if inv ∈ relay.mapRelay then relay.mapRelay else relay.mapRelay.insert inv ss
    vRelayExpiration := relay.vRelayExpiration ++ [(nTime + relaySeconds, inv)] }

/-- The answer of `getdata` from the relay memory. Blocks are served from the disk. -/
def RelayMemory.getData (relay : RelayMemory) (inv : CInv) : Option CDataStream :=
  if inv.type ≠ msgBlock ∧ inv.isKnownType then relay.mapRelay.lookup inv else none

/-- The loop takes off exactly the records before the first one that has not expired. -/
theorem expireRelay_records (nTime : ℤ) (mapRelay : StdMap CInv CDataStream)
    (records : List (ℤ × CInv)) : (expireRelay nTime mapRelay records).vRelayExpiration =
      records.dropWhile fun record => decide (record.1 < nTime) := by
  induction records generalizing mapRelay with
  | nil => rfl
  | cons record records ih =>
    rw [expireRelay]
    split_ifs with hexpired
    · rw [ih, List.dropWhile_cons_of_pos (by simpa using hexpired)]
    · rw [List.dropWhile_cons_of_neg (by simpa using hexpired)]

/-- On a sorted queue, an item is there afterwards when it was there and none of its records has
expired. -/
theorem mem_expireRelay {nTime : ℤ} {mapRelay : StdMap CInv CDataStream}
    {records : List (ℤ × CInv)} (hsorted : records.Pairwise fun a b => a.1 ≤ b.1) {inv : CInv} :
    inv ∈ (expireRelay nTime mapRelay records).mapRelay ↔
      inv ∈ mapRelay ∧ ∀ record ∈ records, record.2 = inv → nTime ≤ record.1 := by
  induction records generalizing mapRelay with
  | nil => simp [expireRelay]
  | cons record records ih =>
    obtain ⟨hlow, hsorted'⟩ := List.pairwise_cons.mp hsorted
    rw [expireRelay]
    split_ifs with hexpired
    · rw [ih hsorted', Finmap.mem_erase, List.forall_mem_cons, ne_eq]
      constructor
      · rintro ⟨⟨hne, hmem⟩, hrest⟩
        exact ⟨hmem, fun heq => absurd heq.symm hne, hrest⟩
      · rintro ⟨hmem, hfirst, hrest⟩
        exact ⟨⟨fun heq => absurd (hfirst heq.symm) (not_le.mpr hexpired), hmem⟩, hrest⟩
    · have hnone : ∀ r ∈ record :: records, nTime ≤ r.1 := by
        refine List.forall_mem_cons.mpr ⟨not_lt.mp hexpired, fun r hr => ?_⟩
        exact (not_lt.mp hexpired).trans (hlow r hr)
      exact ⟨fun hmem => ⟨hmem, fun r hr _ => hnone r hr⟩, fun h => h.1⟩

/-- The records that are left of a sorted queue have not expired. -/
theorem mem_dropWhile_expired {nTime : ℤ} {records : List (ℤ × CInv)}
    (hsorted : records.Pairwise fun a b => a.1 ≤ b.1) {record : ℤ × CInv} :
    record ∈ records.dropWhile (fun r => decide (r.1 < nTime)) ↔
      record ∈ records ∧ nTime ≤ record.1 := by
  induction records with
  | nil => simp
  | cons r records ih =>
    obtain ⟨hlow, hsorted'⟩ := List.pairwise_cons.mp hsorted
    by_cases hexpired : r.1 < nTime
    · rw [List.dropWhile_cons_of_pos (by simpa using hexpired), ih hsorted', List.mem_cons]
      constructor
      · rintro ⟨hmem, hle⟩
        exact ⟨.inr hmem, hle⟩
      · rintro ⟨rfl | hmem, hle⟩
        · exact absurd hle (not_le.mpr hexpired)
        · exact ⟨hmem, hle⟩
    · rw [List.dropWhile_cons_of_neg (by simpa using hexpired)]
      refine ⟨fun hmem => ⟨hmem, ?_⟩, fun h => h.1⟩
      rcases List.mem_cons.mp hmem with rfl | hmem
      · exact not_lt.mp hexpired
      · exact (not_lt.mp hexpired).trans (hlow record hmem)

/-! ## Runs -/

/-- The relay memory of a node with the time of the last call, and for every item the time of the
latest call for it. -/
structure RelayNode where
  relay : RelayMemory
  nTime : ℤ
  latest : CInv → Option ℤ

/-- A call of `RelayMessage`. -/
structure RelayCall where
  nTime : ℤ
  inv : CInv
  ss : CDataStream

/-- The effect of a call. -/
def RelayNode.next (s : RelayNode) (call : RelayCall) : RelayNode where
  relay := s.relay.relayMessage call.nTime call.inv call.ss
  nTime := call.nTime
  latest := Function.update s.latest call.inv (some call.nTime)

/-- A node that starts with an empty memory, and whose clock does not go back. -/
def relayMemorySystem : System RelayNode RelayCall where
  start := fun s => s.relay = ⟨∅, []⟩ ∧ ∀ inv, s.latest inv = none
  legal := fun s call => s.nTime ≤ call.nTime
  next := RelayNode.next

/-- Every item is still there 15 minutes after the latest call for it, and is served to
`getdata`. -/
def RelayNode.Keeps (s : RelayNode) : Prop :=
  ∀ inv nTime, s.latest inv = some nTime → s.nTime ≤ nTime + relaySeconds →
    inv ∈ s.relay.mapRelay ∧
      (inv.type ≠ msgBlock → inv.isKnownType = true → (s.relay.getData inv).isSome = true)

/-- No record of an earlier call for the item is left that expires before the record of this
call. -/
def RelayCall.Fresh (s : RelayNode) (call : RelayCall) : Prop :=
  ∀ record ∈ s.relay.vRelayExpiration, record.2 = call.inv →
    record.1 < call.nTime ∨ record.1 = call.nTime + relaySeconds

/-- The queue is sorted and not ahead of the last call by more than 15 minutes, its records are
those of the latest calls, and an item is there until its record expires. -/
structure RelayNode.Timely (s : RelayNode) : Prop where
  sorted : s.relay.vRelayExpiration.Pairwise fun a b => a.1 ≤ b.1
  bounded : ∀ record ∈ s.relay.vRelayExpiration, record.1 ≤ s.nTime + relaySeconds
  records : ∀ record ∈ s.relay.vRelayExpiration, s.latest record.2 = some (record.1 - relaySeconds)
  kept : ∀ inv nTime, s.latest inv = some nTime → s.nTime ≤ nTime + relaySeconds →
    inv ∈ s.relay.mapRelay

/-- The records after a call. -/
theorem RelayNode.mem_records_next {s : RelayNode} {call : RelayCall} {record : ℤ × CInv}
    (hsorted : s.relay.vRelayExpiration.Pairwise fun a b => a.1 ≤ b.1) :
    record ∈ (s.next call).relay.vRelayExpiration ↔
      (record ∈ s.relay.vRelayExpiration ∧ call.nTime ≤ record.1) ∨
        record = (call.nTime + relaySeconds, call.inv) := by
  show record ∈ (expireRelay _ _ _).vRelayExpiration ++ [_] ↔ _
  rw [expireRelay_records, List.mem_append, mem_dropWhile_expired hsorted, List.mem_singleton]

/-- The items after a call. -/
theorem RelayNode.mem_mapRelay_next {s : RelayNode} {call : RelayCall} {inv : CInv}
    (hsorted : s.relay.vRelayExpiration.Pairwise fun a b => a.1 ≤ b.1) :
    inv ∈ (s.next call).relay.mapRelay ↔ inv = call.inv ∨ inv ∈ s.relay.mapRelay ∧
      ∀ record ∈ s.relay.vRelayExpiration, record.2 = inv → call.nTime ≤ record.1 := by
  rw [← mem_expireRelay hsorted]
  show inv ∈ (if call.inv ∈ (expireRelay _ _ _).mapRelay then (expireRelay _ _ _).mapRelay else _) ↔ _
  split_ifs with hmem
  · exact ⟨.inr, fun h => h.elim (fun heq => heq ▸ hmem) id⟩
  · exact Finmap.mem_insert

/-- A call keeps the queue sorted. -/
theorem RelayNode.Timely.sorted_next {s : RelayNode} {call : RelayCall} (h : s.Timely)
    (hlegal : s.nTime ≤ call.nTime) :
    (s.next call).relay.vRelayExpiration.Pairwise fun a b => a.1 ≤ b.1 := by
  show ((expireRelay _ _ _).vRelayExpiration ++ [_]).Pairwise _
  rw [expireRelay_records, List.pairwise_append]
  refine ⟨h.sorted.sublist (List.dropWhile_sublist _), List.pairwise_singleton _ _, ?_⟩
  intro record hrecord last hlast
  have hbound := h.bounded record ((List.dropWhile_sublist _).subset hrecord)
  rw [List.mem_singleton.mp hlast]
  exact hbound.trans (by simpa using hlegal)

/-- **One call** for an item without an older record keeps the memory timely. -/
theorem RelayNode.Timely.next {s : RelayNode} {call : RelayCall} (h : s.Timely)
    (hlegal : s.nTime ≤ call.nTime) (hfresh : call.Fresh s) : (s.next call).Timely := by
  refine ⟨h.sorted_next hlegal, fun record hrecord => ?_, fun record hrecord => ?_,
    fun inv nTime hlatest hle => ?_⟩
  · show record.1 ≤ call.nTime + relaySeconds
    rcases (mem_records_next h.sorted).mp hrecord with ⟨hold, -⟩ | rfl
    · exact (h.bounded record hold).trans (by simpa using hlegal)
    · exact le_rfl
  · show Function.update s.latest call.inv (some call.nTime) record.2 = _
    rcases (mem_records_next h.sorted).mp hrecord with ⟨hold, hlate⟩ | rfl
    · by_cases heq : record.2 = call.inv
      · have hlast := (hfresh record hold heq).resolve_left (not_lt.mpr hlate)
        rw [heq, Function.update_self, hlast, add_sub_cancel_right]
      · rw [Function.update_of_ne heq]
        exact h.records record hold
    · rw [Function.update_self, add_sub_cancel_right]
  · replace hlatest : Function.update s.latest call.inv (some call.nTime) inv = some nTime := hlatest
    replace hle : call.nTime ≤ nTime + relaySeconds := hle
    rw [mem_mapRelay_next h.sorted]
    by_cases heq : inv = call.inv
    · exact .inl heq
    · rw [Function.update_of_ne heq] at hlatest
      refine .inr ⟨h.kept inv nTime hlatest (hlegal.trans hle), fun record hrecord hinv => ?_⟩
      have hrec := h.records record hrecord
      rw [hinv, hlatest, Option.some.injEq] at hrec
      omega

/-- A timely memory keeps its items. -/
theorem RelayNode.Timely.keeps {s : RelayNode} (h : s.Timely) : s.Keeps := by
  intro inv nTime hlatest hle
  have hmem := h.kept inv nTime hlatest hle
  refine ⟨hmem, fun hblock hknown => ?_⟩
  rw [RelayMemory.getData, if_pos ⟨hblock, hknown⟩]
  exact Finmap.lookup_isSome.mpr hmem

/-- **A call that is not fresh loses the item**: the record of the earlier call takes the item away
within 15 minutes of this call. -/
theorem RelayNode.Timely.loses {s : RelayNode} {call : RelayCall} (h : s.Timely)
    (hlegal : s.nTime ≤ call.nTime) (hstale : ¬call.Fresh s) :
    ∃ call' : RelayCall, call.nTime ≤ call'.nTime ∧ ¬((s.next call).next call').Keeps := by
  obtain ⟨record, hrecord, hinv, hearly⟩ : ∃ record ∈ s.relay.vRelayExpiration,
      record.2 = call.inv ∧ ¬(record.1 < call.nTime ∨ record.1 = call.nTime + relaySeconds) := by
    simpa [RelayCall.Fresh] using hstale
  obtain ⟨hlate, hne⟩ := not_or.mp hearly
  have hbound := h.bounded record hrecord
  let other : CInv := ⟨call.inv.type, call.inv.hash + 1⟩
  have hother : call.inv ≠ other := fun heq => by
    have := congrArg CInv.hash heq
    exact absurd this (Nat.ne_of_lt (Nat.lt_succ_self _))
  -- the next call, for another item, comes when the earlier record has expired
  refine ⟨⟨record.1 + 1, other, ⟨[], 0⟩⟩, by simp only; omega, fun hkeeps => ?_⟩
  have hlatest : ((s.next call).next ⟨record.1 + 1, other, ⟨[], 0⟩⟩).latest call.inv =
      some call.nTime := by
    show Function.update (Function.update s.latest call.inv (some call.nTime)) other _ call.inv = _
    rw [Function.update_of_ne hother, Function.update_self]
  have hin := (hkeeps call.inv call.nTime hlatest (by
    show record.1 + 1 ≤ call.nTime + relaySeconds
    omega)).1
  rcases (mem_mapRelay_next (h.sorted_next hlegal)).mp hin with heq | ⟨-, hall⟩
  · exact hother heq
  · have hkept := (mem_records_next h.sorted).mpr (.inl ⟨hrecord, not_lt.mp hlate⟩)
    have hexpired : record.1 + 1 ≤ record.1 := hall record hkept hinv
    omega

/-- **Every item is kept for 15 minutes after the latest call for it**, in every run in which no
call comes for an item that still has an older record; and in a state of such a run, a call that
does come for such an item is followed by one that loses it. -/
theorem keeps_of_reaches {s : RelayNode} (h : Reaches relayMemorySystem (fun s call => call.Fresh s) s) :
    s.Keeps ∧ ∀ call : RelayCall, s.nTime ≤ call.nTime → ¬call.Fresh s →
      ∃ call' : RelayCall, call.nTime ≤ call'.nTime ∧ ¬((s.next call).next call').Keeps := by
  have htimely : s.Timely := by
    refine h.invariant (fun s hs => ?_) fun s call hs hlegal hfresh => hs.next hlegal hfresh
    obtain ⟨hrelay, hlatest⟩ := hs
    refine ⟨by rw [hrelay]; exact .nil, fun record hrecord => ?_, fun record hrecord => ?_,
      fun inv nTime heq => ?_⟩
    · rw [hrelay] at hrecord
      cases hrecord
    · rw [hrelay] at hrecord
      cases hrecord
    · rw [hlatest] at heq
      cases heq
  exact ⟨htimely.keeps, fun call hlegal hstale => htimely.loses hlegal hstale⟩

/-! ## Worked examples -/

/-- A node with an empty relay memory. -/
def emptyRelay : RelayNode := ⟨⟨∅, []⟩, 0, fun _ => none⟩

/-- An item of the example. -/
def exampleInv (hash : Uint256) : CInv := ⟨msgTx, hash⟩

/-- A transaction is relayed again when the record of the first call has expired. -/
theorem keeps_relayedAgain : ((emptyRelay.next ⟨100, exampleInv 7, ⟨[1], 0⟩⟩).next
    ⟨1001, exampleInv 7, ⟨[1], 0⟩⟩).Keeps := by
  have hstart : Reaches relayMemorySystem (fun s call => call.Fresh s) emptyRelay :=
    .start ⟨rfl, fun _ => rfl⟩
  have hfirst : Reaches relayMemorySystem (fun s call => call.Fresh s)
      (emptyRelay.next ⟨100, exampleInv 7, ⟨[1], 0⟩⟩) :=
    hstart.step (by decide : (0 : ℤ) ≤ 100) (fun _ hrecord => by cases hrecord)
  have hfresh : RelayCall.Fresh (emptyRelay.next ⟨100, exampleInv 7, ⟨[1], 0⟩⟩)
      ⟨1001, exampleInv 7, ⟨[1], 0⟩⟩ := by
    intro record hrecord _
    obtain rfl := List.mem_singleton.mp hrecord
    exact .inl (by decide)
  have hagain : Reaches relayMemorySystem (fun s call => call.Fresh s)
      ((emptyRelay.next ⟨100, exampleInv 7, ⟨[1], 0⟩⟩).next ⟨1001, exampleInv 7, ⟨[1], 0⟩⟩) :=
    hfirst.step (by decide : (100 : ℤ) ≤ 1001) hfresh
  exact (keeps_of_reaches hagain).1

/-- **An item that is lost early**: a transaction that is relayed again after ten minutes is gone
five minutes later. -/
theorem not_forall_keeps : ¬∀ s, Reachable relayMemorySystem s → s.Keeps := by
  intro hall
  have hstart : Reachable relayMemorySystem emptyRelay := .start ⟨rfl, fun _ => rfl⟩
  have hfirst : Reachable relayMemorySystem (emptyRelay.next ⟨0, exampleInv 7, ⟨[1], 0⟩⟩) :=
    hstart.step (by decide : (0 : ℤ) ≤ 0) trivial
  have hagain : Reachable relayMemorySystem
      ((emptyRelay.next ⟨0, exampleInv 7, ⟨[1], 0⟩⟩).next ⟨600, exampleInv 7, ⟨[1], 0⟩⟩) :=
    hfirst.step (by decide : (0 : ℤ) ≤ 600) trivial
  have hother : Reachable relayMemorySystem (((emptyRelay.next ⟨0, exampleInv 7, ⟨[1], 0⟩⟩).next
      ⟨600, exampleInv 7, ⟨[1], 0⟩⟩).next ⟨901, exampleInv 8, ⟨[2], 0⟩⟩) :=
    hagain.step (by decide : (600 : ℤ) ≤ 901) trivial
  have hin := (hall _ hother (exampleInv 7) 600 (by decide) (by decide)).1
  exact absurd hin (by decide +kernel)

end FoxCoin
