import FoxCoin.AddrFile
import FoxCoin.AddrRuns

/-! # Reading the file of the address manager back

The bytes that are written are read as the same entries under new ids: the entries of the new table
come first, those of the tried table follow, and each goes back to where it was filed. -/

namespace FoxCoin

open Wire Overlay Buckets

namespace CAddrMan

variable {am : CAddrMan} {nId : ℤ} {info : CAddrInfo}

/-! ## The entries in order -/

theorem mem_entries : (nId, info) ∈ am.entries ↔ am.mapInfo.lookup nId = some info := by
  rw [entries, List.mem_filterMap]
  constructor
  · rintro ⟨nId', -, heq⟩
    obtain ⟨info', hinfo, heq'⟩ := Option.map_eq_some_iff.mp heq
    rw [Prod.mk.injEq] at heq'
    rw [← heq'.1, ← heq'.2, hinfo]
  · intro hinfo
    refine ⟨nId, ?_, by rw [hinfo, Option.map_some]⟩
    rw [mem_idsInOrder, Finmap.mem_keys]
    exact Finmap.mem_of_lookup_eq_some hinfo

/-- No id is written twice. -/
theorem nodup_entries (am : CAddrMan) : (am.entries.map Prod.fst).Nodup := by
  have hids : am.entries.map Prod.fst = (idsInOrder am.mapInfo.keys).filterMap fun nId =>
      (am.mapInfo.lookup nId).map fun _ => nId := by
    rw [entries, List.map_filterMap]
    refine List.filterMap_congr fun nId _ => ?_
    rw [Option.map_map]
    rfl
  rw [hids]
  refine (nodup_idsInOrder _).filterMap fun a b c ha hb => ?_
  obtain ⟨-, -, rfl⟩ := Option.map_eq_some_iff.mp (Option.mem_def.mp ha)
  obtain ⟨-, -, heq⟩ := Option.map_eq_some_iff.mp (Option.mem_def.mp hb)
  exact heq.symm

/-- The entries of the new table, as they are written. -/
def newEntries (am : CAddrMan) : List (ℤ × CAddrInfo) :=
  am.entries.filter fun e => e.2.nRefCount ≠ 0

/-- The entries of the tried table, as they are written. -/
def triedEntries (am : CAddrMan) : List (ℤ × CAddrInfo) := am.entries.filter fun e => e.2.fInTried

/-- The number that an entry of the new table is written under. -/
def number (am : CAddrMan) (nId : ℤ) : ℕ := (am.newEntries.map Prod.fst).idxOf nId

/-! ## What is written -/

variable {fWritten : CAddrInfo → Bool} {nCount nIds : ℤ} {l : List (ℤ × CAddrInfo)}
  {mapUnkIds : StdMap ℤ ℤ}

/-- The loop writes all entries of the table when the count is right. -/
theorem writeEntries_fst (hcount : nCount - nIds = (l.filter fun e => fWritten e.2).length) :
    (writeEntries fWritten nCount l nIds mapUnkIds).1 =
      (l.filter fun e => fWritten e.2).flatMap fun e => e.2.serialize := by
  induction l generalizing nIds mapUnkIds with
  | nil => rfl
  | cons e l ih =>
    obtain ⟨nId, info⟩ := e
    rw [List.filter_cons] at hcount ⊢
    rw [writeEntries]
    by_cases hwritten : fWritten info = true
    · rw [if_pos hwritten, List.length_cons] at hcount
      rw [if_pos hwritten, if_neg (by omega), if_pos hwritten, List.flatMap_cons]
      exact congrArg (info.serialize ++ ·) (ih (by omega))
    · rw [if_neg hwritten] at hcount
      rw [if_neg hwritten, if_neg hwritten]
      split_ifs with hstop
      · have hnil := List.length_eq_zero_iff.mp
          (show (l.filter fun e => fWritten e.2).length = 0 by omega)
        rw [hnil, List.flatMap_nil]
      · exact ih hcount

/-- The loop numbers the ids it comes to only. -/
theorem lookup_writeEntries_of_notMem (hnot : nId ∉ l.map Prod.fst) :
    (writeEntries fWritten nCount l nIds mapUnkIds).2.lookup nId = mapUnkIds.lookup nId := by
  induction l generalizing nIds mapUnkIds with
  | nil => rfl
  | cons e l ih =>
    rw [List.map_cons, List.mem_cons, not_or] at hnot
    have hinsert : (mapUnkIds.insert e.1 nIds).lookup nId = mapUnkIds.lookup nId := by
      rw [lookup_insert_eq_ite, if_neg hnot.1]
    rw [writeEntries]
    split_ifs
    · rfl
    · rw [ih hnot.2, hinsert]
    · rw [ih hnot.2, hinsert]

/-- The numbers count the entries that are written. -/
theorem lookup_writeEntries (hnodup : (l.map Prod.fst).Nodup)
    (hcount : nCount - nIds = (l.filter fun e => fWritten e.2).length) {i : ℕ} {e : ℤ × CAddrInfo}
    (hget : (l.filter fun e => fWritten e.2)[i]? = some e) :
    (writeEntries fWritten nCount l nIds mapUnkIds).2.lookup e.1 = some (nIds + i) := by
  induction l generalizing nIds mapUnkIds i with
  | nil => simp at hget
  | cons e' l ih =>
    rw [List.map_cons, List.nodup_cons] at hnodup
    rw [List.filter_cons] at hcount hget
    rw [writeEntries]
    by_cases hwritten : fWritten e'.2 = true
    · rw [if_pos hwritten] at hcount hget
      rw [List.length_cons] at hcount
      rw [if_neg (by omega), if_pos hwritten]
      cases i with
      | zero =>
        obtain rfl : e' = e := by simpa using hget
        refine (lookup_writeEntries_of_notMem hnodup.1).trans ?_
        rw [lookup_insert_eq_ite, if_pos rfl]
        simp
      | succ i =>
        rw [List.getElem?_cons_succ] at hget
        refine (ih hnodup.2 (by omega) hget).trans ?_
        push_cast
        congr 1
        ring
    · rw [if_neg hwritten] at hcount hget
      have hlt := (List.getElem?_eq_some_iff.mp hget).1
      rw [if_neg (by omega), if_neg hwritten]
      exact ih hnodup.2 hcount hget

/-! ## What is read -/

/-- What the reader makes of the entries of the new table. -/
def readNewEntries (K : AddrParams) (am : CAddrMan) : CAddrMan :=
  am.newEntries.zipIdx.foldl (fun am p => restoreNew K 256 am p.2 p.1.2.saved)
    { empty am.nKey with nNew := am.nNew, nTried := am.nTried }

/-- What it makes of the entries of the tried table after that. -/
def readTriedEntries (K : AddrParams) (am : CAddrMan) : CAddrMan :=
  am.triedEntries.foldl (fun am e => restoreTried K am e.2.saved)
    { am.readNewEntries K with nIdCount := am.nNew }

/-- What the reader makes of the file. -/
def readBack (K : AddrParams) (am : CAddrMan) : CAddrMan :=
  (List.finRange 256).foldl (fun am' b => (idsInOrder (am.vvNew b)).foldl
    (fun am' nId => restoreRef 256 b am' (am.number nId)) am') (am.readTriedEntries K)

/-- The tables fit the file: the counts are right, and every id in a new bucket is written. -/
structure Writable (am : CAddrMan) : Prop where
  nKey : am.nKey.length ≤ maxSize
  nNew : am.nNew = am.newEntries.length
  nTried : am.nTried = am.triedEntries.length
  new_count : am.newEntries.length < 2 ^ 31
  tried_count : am.triedEntries.length < 2 ^ 31
  new_size : ∀ b, (am.vvNew b).card < 2 ^ 31
  known : ∀ b, ∀ nId ∈ am.vvNew b, nId ∈ am.newEntries.map Prod.fst

theorem reads_readInt_natCast {n : ℕ} (h : n < 2 ^ 31) : Reads (readInt 4) (intBytes 4 n) n :=
  reads_readInt (m := 2 ^ 31) (by norm_num) (by omega) (by omega)

/-- The ids of the new table are written under their numbers. -/
theorem Writable.lookup_number (h : am.Writable) {b : Fin 256} (hmem : nId ∈ am.vvNew b) :
    ((writeEntries (fun info => info.nRefCount ≠ 0) am.nNew am.entries 0 ∅).2.lookup nId).getD 0 =
        am.number nId ∧ am.number nId < am.newEntries.length := by
  have hlt := List.idxOf_lt_length_iff.mpr (h.known b nId hmem)
  rw [List.length_map] at hlt
  have hget : am.newEntries[am.number nId]? = some am.newEntries[am.number nId] :=
    List.getElem?_eq_getElem hlt
  have hid : am.newEntries[am.number nId].1 = nId := by
    have hidx := List.getElem_idxOf (List.idxOf_lt_length_iff.mpr (h.known b nId hmem))
    rwa [List.getElem_map] at hidx
  refine ⟨?_, hlt⟩
  have hlookup : (writeEntries (fun info => info.nRefCount ≠ 0) am.nNew am.entries 0 ∅).2.lookup
      am.newEntries[am.number nId].1 = some (0 + (am.number nId : ℤ)) :=
    lookup_writeEntries am.nodup_entries (by rw [h.nNew, sub_zero]; rfl) hget
  rw [hid] at hlookup
  rw [hlookup, Option.getD_some, zero_add]

/-- A new bucket is read as it was written. -/
theorem Writable.reads_bucket (h : am.Writable) (b : Fin 256) (am' : CAddrMan) :
    Reads (readBucket 256 am' b)
      (am.writeBucket (writeEntries (fun info => info.nRefCount ≠ 0) am.nNew am.entries 0 ∅).2 b)
      ((idsInOrder (am.vvNew b)).foldl (fun am' nId => restoreRef 256 b am' (am.number nId))
        am') := by
  refine (reads_readInt_natCast (h.new_size b)).bind ?_
  have hlen : ((am.vvNew b).card : ℤ).toNat = (idsInOrder (am.vvNew b)).length := by
    rw [length_idsInOrder, Int.toNat_natCast]
  have hb : newBucketOf b = b := Fin.ofNat_val_eq_self b
  rw [hlen, hb]
  refine Reads.foldlM_range (fun nId hnId am' => ?_) am'
  obtain ⟨hlookup, hlt⟩ := h.lookup_number (mem_idsInOrder.mp hnId)
  rw [hlookup]
  exact (reads_readInt_natCast (hlt.trans h.new_count)).map _

/-- **The file is read as it was written.** -/
theorem Writable.reads (K : AddrParams) (h : am.Writable) :
    Reads (CAddrMan.read K) am.serialize (am.readBack K) := by
  have hnew : (writeEntries (fun info => info.nRefCount ≠ 0) am.nNew am.entries 0 ∅).1 =
      am.newEntries.flatMap fun e => e.2.serialize :=
    writeEntries_fst (by rw [h.nNew, sub_zero]; rfl)
  have htried : (writeEntries (·.fInTried) am.nTried am.entries 0 ∅).1 =
      am.triedEntries.flatMap fun e => e.2.serialize :=
    writeEntries_fst (by rw [h.nTried, sub_zero]; rfl)
  unfold CAddrMan.serialize CAddrMan.read readBack readTriedEntries readNewEntries
  dsimp only
  rw [hnew, htried]
  refine (reads_readLe (k := 1) (by norm_num)).bind ?_
  refine (reads_readVch h.nKey).bind ?_
  refine (h.nNew ▸ reads_readInt_natCast h.new_count).bind ?_
  refine (h.nTried ▸ reads_readInt_natCast h.tried_count).bind ?_
  have hbuckets : Reads (readInt 4) (intBytes 4 256) 256 :=
    reads_readInt (m := 2 ^ 31) (by norm_num) (by norm_num) (by norm_num)
  refine hbuckets.bind ?_
  have hnewLen : am.nNew.toNat = am.newEntries.length := by rw [h.nNew, Int.toNat_natCast]
  have htriedLen : am.nTried.toNat = am.triedEntries.length := by rw [h.nTried, Int.toNat_natCast]
  rw [hnewLen, htriedLen]
  refine (Reads.foldlM_zipIdx (fun e _ n am => (CAddrInfo.reads_read e.2).map _) _).bind ?_
  refine (Reads.foldlM_range (fun e _ am => (CAddrInfo.reads_read e.2).map _) _).bind ?_
  have hrange : List.range (256 : ℤ).toNat = (List.finRange 256).map fun b => b.val :=
    List.map_coe_finRange_eq_range.symm
  rw [hrange, List.foldlM_map]
  exact Reads.foldlM (fun b _ am' => h.reads_bucket b am') _

end CAddrMan

end FoxCoin
