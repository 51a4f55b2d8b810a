import FoxCoin.BlockTree
import FoxCoin.SetBestChain

/-! # Loading the block index

`CTxDB::LoadBlockIndex` rebuilds the block tree from the records of the database, one record at a
time in the order of the cursor: hashes become pointers, and an index that is named before its own
record comes up is created empty. The work of the chains is summed up afterwards, by height. -/

namespace FoxCoin

open Checked Overlay

/-! ## Records -/

/-- The order that a cursor or a comparison of pointers gives to hashes. -/
def keyLe (order : ℕ → ℕ) (a b : ℕ) : Prop :=
  order a < order b ∨ order a = order b ∧ a ≤ b

instance (order : ℕ → ℕ) : DecidableRel (keyLe order) := fun _ _ =>
  inferInstanceAs (Decidable (_ ∨ _))

instance (order : ℕ → ℕ) : IsTrans ℕ (keyLe order) :=
  ⟨fun a b c hab hbc => by unfold keyLe at *; omega⟩

instance (order : ℕ → ℕ) : Std.Antisymm (keyLe order) :=
  ⟨fun a b hab hba => by unfold keyLe at *; omega⟩

instance (order : ℕ → ℕ) : Std.Total (keyLe order) :=
  ⟨fun a b => by unfold keyLe; omega⟩

/-- The keys of a map in an order. -/
def keysInOrder {V : Type} (order : Uint256 → ℕ) (m : StdMap Uint256 V) : List Uint256 :=
  Quotient.liftOn m.keys.val (List.insertionSort (keyLe order)) fun _ _ hperm =>
    ((List.perm_insertionSort _ _).trans (hperm.trans (List.perm_insertionSort _ _).symm)
      ).eq_of_pairwise' (List.pairwise_insertionSort _ _) (List.pairwise_insertionSort _ _)

/-- The records in the order in which the cursor of the database reads them. -/
def CTxDB.records (order : Uint256 → ℕ) (txdb : CTxDB) : List CDiskBlockIndex :=
  (keysInOrder order txdb.mapDiskBlockIndex).filterMap txdb.mapDiskBlockIndex.lookup

/-- The variables that `LoadBlockIndexGuts` fills. `pindexGenesisBlock` is a pointer: the hash of
the index it points to. -/
structure LoadState where
  mapBlockIndex : StdMap Uint256 CBlockIndex
  pnext : StdMap Uint256 Uint256
  pindexGenesisBlock : Option Uint256

/-- `CBlockIndex()`, filed under a hash. -/
def CBlockIndex.setNull (hash : Uint256) : CBlockIndex where
  phashBlock := hash
  pprev := none
  nFile := 0
  nBlockPos := 0
  nHeight := 0
  bnChainWork := 0
  nVersion := 0
  hashMerkleRoot := 0
  nTime := 0
  nBits := 0
  nNonce := 0

/-- `InsertBlockIndex`: the pointer to the index of a hash, which is created when it is not there.
The null hash has the null pointer. -/
def insertBlockIndex (mapBlockIndex : StdMap Uint256 CBlockIndex) (hash : Uint256) :
    Option Uint256 × StdMap Uint256 CBlockIndex :=
  if hash = 0 then (none, mapBlockIndex)
  else if hash ∈ mapBlockIndex then (some hash, mapBlockIndex)
  else (some hash, mapBlockIndex.insert hash (CBlockIndex.setNull hash))

/-- The fields of an index that its record has. -/
def CBlockIndex.assign (pindexNew : CBlockIndex) (pprev : Option Uint256)
    (diskindex : CDiskBlockIndex) : CBlockIndex :=
  { pindexNew with
    pprev
    nFile := diskindex.nFile
    nBlockPos := diskindex.nBlockPos
    nHeight := diskindex.nHeight
    nVersion := diskindex.nVersion
    hashMerkleRoot := diskindex.hashMerkleRoot
    nTime := diskindex.nTime
    nBits := diskindex.nBits
    nNonce := diskindex.nNonce }

/-- The assignment `pindex->pnext = pnext`. -/
def assignNext (m : StdMap Uint256 Uint256) (hash : Uint256) : Option Uint256 → StdMap Uint256 Uint256
  | none => m.erase hash
  | some pnext => m.insert hash pnext

/-- One round of the loop of `LoadBlockIndexGuts`. `CheckIndex` accepts every index. The source
writes through a null pointer for a record with the null hash; the model stops with an error
there. -/
def loadRecord (P : Params) (st : LoadState) (diskindex : CDiskBlockIndex) : Result LoadState :=
  let hash := diskindex.getBlockHash P
  let (pindexNew, mapBlockIndex) := insertBlockIndex st.mapBlockIndex hash
  let (pprev, mapBlockIndex) := insertBlockIndex mapBlockIndex diskindex.hashPrev
  let (pnext, mapBlockIndex) := insertBlockIndex mapBlockIndex diskindex.hashNext
  match pindexNew.bind mapBlockIndex.lookup with
  | none => .error ⟨0, "null pointer: pindexNew->pprev"⟩
  | some pindexNew =>
    .ok {
      mapBlockIndex := mapBlockIndex.insert hash (pindexNew.assign pprev diskindex)
      pnext := assignNext st.pnext hash pnext
      pindexGenesisBlock :=
        if st.pindexGenesisBlock.isNone ∧ hash = P.hashGenesisBlock then some hash
        else st.pindexGenesisBlock }

/-- `CTxDB::LoadBlockIndexGuts`, on the records in the order of the cursor. -/
def loadBlockIndexGuts (P : Params) (records : List CDiskBlockIndex) : Result LoadState :=
  records.foldlM (loadRecord P) ⟨∅, ∅, none⟩

/-! ## Chain work -/

/-- `vSortedByHeight`: the indexes by height, and by their addresses where the heights are the same
(the sort is stable). -/
def sortedByHeight (address : Uint256 → ℕ) (m : StdMap Uint256 CBlockIndex) :
    List (ℕ × Uint256) :=
  ((keysInOrder address m).map fun hash =>
    (((m.lookup hash).map CBlockIndex.nHeight).getD 0, hash)).insertionSort fun a b => a.1 ≤ b.1

/-- One round of the loop that sums up the work of the chains. -/
def sumChainWork (m : StdMap Uint256 CBlockIndex) (item : ℕ × Uint256) :
    StdMap Uint256 CBlockIndex :=
  match m.lookup item.2 with
  | none => m
  | some pindex =>
    let bnPrevWork := ((pindex.pprev.bind m.lookup).map CBlockIndex.bnChainWork).getD 0
    m.insert item.2 { pindex with bnChainWork := bnPrevWork + getBlockWork pindex.nBits }

/-! ## The best chain -/

/-- The part of `CTxDB::LoadBlockIndex` before the verification of the best chain, on a node that
has loaded nothing yet. -/
def NodeState.loadBlockIndex (P : Params) (keyOrder address : Uint256 → ℕ) (s : NodeState) :
    Outcome :=
  match loadBlockIndexGuts P (s.txdb.records keyOrder) with
  | .error r => (.error r, s)
  | .ok st =>
    let mapBlockIndex := (sortedByHeight address st.mapBlockIndex).foldl sumChainWork st.mapBlockIndex
    let s := { s with
      mapBlockIndex
      pnext := st.pnext
      pindexGenesisBlock := st.pindexGenesisBlock.bind mapBlockIndex.lookup }
    match s.txdb.hashBestChain with
    | none =>
      if s.pindexGenesisBlock.isNone then (.ok (), s)
      else (.error ⟨0, "CTxDB::LoadBlockIndex() : hashBestChain not loaded"⟩, s)
    | some hashBestChain =>
      let s := { s with hashBestChain }
      match mapBlockIndex.lookup hashBestChain with
      | none =>
        (.error ⟨0, "CTxDB::LoadBlockIndex() : hashBestChain not found in the block index"⟩, s)
      | some pindexBest =>
        (.ok (), { s with
          pindexBest := some pindexBest
          nBestHeight := pindexBest.nHeight
          bnBestChainWork := pindexBest.bnChainWork
          bnBestInvalidWork := s.txdb.bnBestInvalidWork })

/-- A node that starts again with the database and the block files of another one. -/
def NodeState.restarted (s : NodeState) (wallets : List CWallet) : NodeState :=
  { NodeState.empty wallets with txdb := s.txdb, files := s.files }

/-- Two nodes have the same block tree, with the same links, work and tip. -/
structure NodeState.SameIndex (s s' : NodeState) : Prop where
  mapBlockIndex : s'.mapBlockIndex = s.mapBlockIndex
  pnext : s'.pnext = s.pnext
  pindexGenesisBlock : s'.pindexGenesisBlock = s.pindexGenesisBlock
  pindexBest : s'.pindexBest = s.pindexBest
  hashBestChain : s'.hashBestChain = s.hashBestChain
  nBestHeight : s'.nBestHeight = s.nBestHeight
  bnBestChainWork : s'.bnBestChainWork = s.bnBestChainWork

/-! ## Orders -/

/-- The keys in order are the keys. -/
theorem coe_keysInOrder {V : Type} (order : Uint256 → ℕ) (m : StdMap Uint256 V) :
    (keysInOrder order m : Multiset Uint256) = m.keys.val := by
  rw [keysInOrder]
  induction m.keys.val using Quotient.inductionOn with
  | h l => exact Multiset.coe_eq_coe.mpr (List.perm_insertionSort _ l)

theorem mem_keysInOrder {V : Type} {order : Uint256 → ℕ} {m : StdMap Uint256 V} {hash : Uint256} :
    hash ∈ keysInOrder order m ↔ hash ∈ m := by
  rw [← Multiset.mem_coe, coe_keysInOrder]
  exact Finmap.mem_keys

theorem nodup_keysInOrder {V : Type} (order : Uint256 → ℕ) (m : StdMap Uint256 V) :
    (keysInOrder order m).Nodup := by
  rw [← Multiset.coe_nodup, coe_keysInOrder]
  exact m.keys.nodup

variable {P : Params} {m : StdMap Uint256 CBlockIndex} {pnext : StdMap Uint256 Uint256}
  {root p q : CBlockIndex}

/-- The items of `vSortedByHeight` are the indexes with their heights. -/
theorem mem_sortedByHeight {address : Uint256 → ℕ} {item : ℕ × Uint256} :
    item ∈ sortedByHeight address m ↔
      item.2 ∈ m ∧ ((m.lookup item.2).map CBlockIndex.nHeight).getD 0 = item.1 := by
  rw [sortedByHeight, List.mem_insertionSort, List.mem_map]
  constructor
  · rintro ⟨hash, hmem, rfl⟩
    exact ⟨mem_keysInOrder.mp hmem, rfl⟩
  · rintro ⟨hmem, hheight⟩
    exact ⟨item.2, mem_keysInOrder.mpr hmem, Prod.ext hheight rfl⟩

theorem nodup_sortedByHeight (address : Uint256 → ℕ) (m : StdMap Uint256 CBlockIndex) :
    ((sortedByHeight address m).map Prod.snd).Nodup := by
  have hperm := (List.perm_insertionSort (fun a b : ℕ × Uint256 => a.1 ≤ b.1)
    ((keysInOrder address m).map fun hash =>
      (((m.lookup hash).map CBlockIndex.nHeight).getD 0, hash))).map Prod.snd
  rw [List.map_map] at hperm
  exact hperm.nodup_iff.mpr ((List.map_id _).symm ▸ nodup_keysInOrder address m)

/-- Heights go up along `vSortedByHeight`. -/
theorem pairwise_sortedByHeight (address : Uint256 → ℕ) (m : StdMap Uint256 CBlockIndex) :
    (sortedByHeight address m).Pairwise fun a b => a.1 ≤ b.1 := by
  have : IsTrans (ℕ × Uint256) fun a b => a.1 ≤ b.1 := ⟨fun _ _ _ hab hbc => le_trans hab hbc⟩
  have : Std.Total fun a b : ℕ × Uint256 => a.1 ≤ b.1 := ⟨fun a b => le_total a.1 b.1⟩
  exact List.pairwise_insertionSort _ _

/-! ## The loop over the records -/

@[simp] theorem insertBlockIndex_fst (m : StdMap Uint256 CBlockIndex) (hash : Uint256) :
    (insertBlockIndex m hash).1 = if hash = 0 then none else some hash := by
  unfold insertBlockIndex
  split_ifs <;> rfl

/-- `InsertBlockIndex` adds at most an empty index. -/
theorem lookup_insertBlockIndex (m : StdMap Uint256 CBlockIndex) (hash k : Uint256) :
    (insertBlockIndex m hash).2.lookup k =
      if k = hash ∧ hash ≠ 0 ∧ hash ∉ m then some (CBlockIndex.setNull hash) else m.lookup k := by
  unfold insertBlockIndex
  by_cases hzero : hash = 0
  · rw [if_pos hzero, if_neg fun hnew => hnew.2.1 hzero]
  · by_cases hmem : hash ∈ m
    · rw [if_neg hzero, if_pos hmem, if_neg fun hnew => hnew.2.2 hmem]
    · rw [if_neg hzero, if_neg hmem, lookup_insert_eq_ite]
      exact if_congr (by tauto) rfl rfl

/-- An index before the work of its chain is summed up. -/
def CBlockIndex.withoutWork (pindex : CBlockIndex) : CBlockIndex := { pindex with bnChainWork := 0 }

/-- The indexes of the loop of `LoadBlockIndexGuts` on the way to the tree `m`: those of the hashes
in `done` are loaded, and others of the tree may have been created. -/
structure PartlyLoaded (m : StdMap Uint256 CBlockIndex) (done : List Uint256)
    (mapBlockIndex : StdMap Uint256 CBlockIndex) : Prop where
  loaded : ∀ hash ∈ done, mapBlockIndex.lookup hash = (m.lookup hash).map CBlockIndex.withoutWork
  created : ∀ hash, hash ∉ done → hash ∈ mapBlockIndex →
    hash ∈ m ∧ mapBlockIndex.lookup hash = some (CBlockIndex.setNull hash)

/-- Naming an index of the tree keeps what is loaded. -/
theorem PartlyLoaded.insertBlockIndex {done : List Uint256} {mapBlockIndex : StdMap Uint256 CBlockIndex}
    (h : PartlyLoaded m done mapBlockIndex) (hdone : ∀ hash ∈ done, hash ∈ m) {hash : Uint256}
    (hhash : hash = 0 ∨ hash ∈ m) : PartlyLoaded m done (insertBlockIndex mapBlockIndex hash).2 := by
  have hold : ∀ k ∈ done, k ∈ mapBlockIndex := by
    intro k hk
    obtain ⟨pindex, hpindex⟩ := Finmap.mem_iff.mp (hdone k hk)
    exact Finmap.mem_of_lookup_eq_some (by rw [h.loaded k hk, hpindex, Option.map_some])
  constructor
  · intro k hk
    rw [lookup_insertBlockIndex, if_neg (fun hnew => hnew.2.2 (hnew.1 ▸ hold k hk))]
    exact h.loaded k hk
  · intro k hk hmem
    rw [Finmap.mem_iff] at hmem
    rw [lookup_insertBlockIndex] at hmem ⊢
    by_cases hnew : k = hash ∧ hash ≠ 0 ∧ hash ∉ mapBlockIndex
    · rw [if_pos hnew, hnew.1]
      exact ⟨hhash.resolve_left hnew.2.1, rfl⟩
    · rw [if_neg hnew] at hmem ⊢
      exact h.created k hk (Finmap.mem_iff.mpr hmem)

/-- A named index is there afterwards. -/
theorem mem_insertBlockIndex {mapBlockIndex : StdMap Uint256 CBlockIndex} {hash k : Uint256}
    (h : k ∈ mapBlockIndex ∨ k = hash ∧ hash ≠ 0) : k ∈ (insertBlockIndex mapBlockIndex hash).2 := by
  rw [Finmap.mem_iff, lookup_insertBlockIndex]
  split_ifs with hnew
  · exact ⟨_, rfl⟩
  · rcases h with hmem | ⟨rfl, hzero⟩
    · exact Finmap.mem_iff.mp hmem
    · exact Finmap.mem_iff.mp (not_not.mp fun hmem => hnew ⟨rfl, hzero, hmem⟩)

/-! ## What the records say -/

/-- The records of the database describe the tree `m` with the links `pnext`: every index has its
record, filed under its hash, with the hash of its successor. -/
structure Recorded (P : Params) (m : StdMap Uint256 CBlockIndex) (pnext : StdMap Uint256 Uint256)
    (records : StdMap Uint256 CDiskBlockIndex) : Prop where
  lookup_eq : ∀ hash, records.lookup hash = (m.lookup hash).map fun pindex =>
    CDiskBlockIndex.ofIndex pindex ((pnext.lookup hash).getD 0)
  header : ∀ p : CBlockIndex, p.In m → (CDiskBlockIndex.ofIndex p 0).getBlockHash P = p.phashBlock
  notNull : (0 : Uint256) ∉ m

/-- The next block is no part of the header. -/
theorem CDiskBlockIndex.getBlockHash_ofIndex (P : Params) (pindex : CBlockIndex) (hashNext : Uint256) :
    (ofIndex pindex hashNext).getBlockHash P = (ofIndex pindex 0).getBlockHash P := rfl

@[simp] theorem CDiskBlockIndex.hashPrev_ofIndex (pindex : CBlockIndex) (hashNext : Uint256) :
    (ofIndex pindex hashNext).hashPrev = pindex.pprev.getD 0 := rfl

@[simp] theorem CDiskBlockIndex.hashNext_ofIndex (pindex : CBlockIndex) (hashNext : Uint256) :
    (ofIndex pindex hashNext).hashNext = hashNext := rfl

/-- The links `pnext` go from one index of the tree to another. -/
def LinksWithin (m : StdMap Uint256 CBlockIndex) (pnext : StdMap Uint256 Uint256) : Prop :=
  ∀ hash hashNext, pnext.lookup hash = some hashNext → hash ∈ m ∧ hashNext ∈ m

/-- The loop of `LoadBlockIndexGuts` has loaded the hashes in `done`. -/
structure LoadState.Partial (m : StdMap Uint256 CBlockIndex) (pnext : StdMap Uint256 Uint256)
    (root : CBlockIndex) (done : List Uint256) (st : LoadState) : Prop
    extends PartlyLoaded m done st.mapBlockIndex where
  links : ∀ hash, st.pnext.lookup hash = if hash ∈ done then pnext.lookup hash else none
  genesis : st.pindexGenesisBlock =
    if root.phashBlock ∈ done then some root.phashBlock else none

section Load

variable {records : StdMap Uint256 CDiskBlockIndex} (ht : IsTree m root)
  (hroot : root.phashBlock = P.hashGenesisBlock) (hlinks : LinksWithin m pnext)
  (hrec : Recorded P m pnext records)

/-- The assignment changes one link. -/
theorem lookup_assignNext (m : StdMap Uint256 Uint256) (hash k : Uint256) (next : Option Uint256) :
    (assignNext m hash next).lookup k = if k = hash then next else m.lookup k := by
  cases next with
  | none => exact lookup_erase_eq_ite _ _ _
  | some next => exact lookup_insert_eq_ite _ _ _ _

/-- A link of the tree as a hash, and back as a pointer. -/
theorem getD_zero_eq (hnull : (0 : Uint256) ∉ m) {o : Option Uint256} (ho : ∀ hash ∈ o, hash ∈ m) :
    (if o.getD 0 = 0 then none else some (o.getD 0)) = o ∧ (o.getD 0 = 0 ∨ o.getD 0 ∈ m) := by
  cases o with
  | none => exact ⟨rfl, .inl rfl⟩
  | some hash =>
    have hmem := ho hash rfl
    refine ⟨if_neg fun hzero => hnull ?_, .inr hmem⟩
    rw [Option.getD_some] at hzero
    exact hzero ▸ hmem

include ht hroot hlinks hrec

/-- **One round of the loop** loads the index of its record. -/
theorem LoadState.Partial.loadRecord {done : List Uint256} {st : LoadState}
    (hst : st.Partial m pnext root done) (hdone : ∀ hash ∈ done, hash ∈ m) (hp : p.In m)
    (hnew : p.phashBlock ∉ done) :
    ∃ st', FoxCoin.loadRecord P st
        (CDiskBlockIndex.ofIndex p ((pnext.lookup p.phashBlock).getD 0)) = .ok st' ∧
      st'.Partial m pnext root (p.phashBlock :: done) := by
  have hmem : p.phashBlock ∈ m := Finmap.mem_of_lookup_eq_some hp
  have hne : p.phashBlock ≠ 0 := fun hzero => hrec.notNull (hzero ▸ hmem)
  obtain ⟨hprev, hprevIn⟩ := getD_zero_eq hrec.notNull (o := p.pprev) fun hash hhash => by
    obtain ⟨q, hq, -⟩ := (ht.linked _ _ hp).prev hash hhash
    exact Finmap.mem_of_lookup_eq_some hq
  obtain ⟨hnext, hnextIn⟩ := getD_zero_eq hrec.notNull (o := pnext.lookup p.phashBlock)
    fun hash hhash => (hlinks _ _ hhash).2
  set m₁ := (insertBlockIndex st.mapBlockIndex p.phashBlock).2
  set m₂ := (insertBlockIndex m₁ (p.pprev.getD 0)).2
  set m₃ := (insertBlockIndex m₂ ((pnext.lookup p.phashBlock).getD 0)).2
  have hpart : PartlyLoaded m done m₃ :=
    ((hst.toPartlyLoaded.insertBlockIndex hdone (.inr hmem)).insertBlockIndex hdone hprevIn
      ).insertBlockIndex hdone hnextIn
  have hin : p.phashBlock ∈ m₃ := mem_insertBlockIndex (.inl (mem_insertBlockIndex (.inl
    (mem_insertBlockIndex (.inr ⟨rfl, hne⟩)))))
  have hlookup := (hpart.created _ hnew hin).2
  refine ⟨⟨m₃.insert p.phashBlock p.withoutWork,
    assignNext st.pnext p.phashBlock (pnext.lookup p.phashBlock),
    if st.pindexGenesisBlock.isNone ∧ p.phashBlock = P.hashGenesisBlock then some p.phashBlock
      else st.pindexGenesisBlock⟩, ?_, ⟨fun hash hhash => ?_, fun hash hhash hin => ?_⟩,
    fun hash => ?_, ?_⟩
  · unfold FoxCoin.loadRecord
    simp only [CDiskBlockIndex.getBlockHash_ofIndex, hrec.header p hp, insertBlockIndex_fst,
      if_neg hne, Option.bind_some, CDiskBlockIndex.hashPrev_ofIndex,
      CDiskBlockIndex.hashNext_ofIndex, hprev, hnext]
    rw [show (insertBlockIndex (insertBlockIndex (insertBlockIndex st.mapBlockIndex
      p.phashBlock).2 (p.pprev.getD 0)).2 ((pnext.lookup p.phashBlock).getD 0)).2 = m₃ from rfl,
      hlookup]
    -- the index that was created empty gets the fields of the record
    rfl
  · show (m₃.insert p.phashBlock p.withoutWork).lookup hash = _
    rw [lookup_insert_eq_ite]
    split_ifs with heq
    · rw [heq, hp, Option.map_some]
    · exact hpart.loaded hash ((List.mem_cons.mp hhash).resolve_left heq)
  · obtain ⟨heq, hold⟩ := not_or.mp (mt List.mem_cons.mpr hhash)
    replace hin : hash ∈ m₃.insert p.phashBlock p.withoutWork := hin
    show hash ∈ m ∧ (m₃.insert p.phashBlock p.withoutWork).lookup hash = _
    rw [lookup_insert_eq_ite, if_neg heq]
    exact hpart.created hash hold ((Finmap.mem_insert.mp hin).resolve_left heq)
  · show (assignNext st.pnext p.phashBlock (pnext.lookup p.phashBlock)).lookup hash = _
    rw [lookup_assignNext, hst.links]
    by_cases heq : hash = p.phashBlock
    · rw [if_pos heq, heq, if_pos List.mem_cons_self]
    · rw [if_neg heq]
      exact if_congr (by simp [heq]) rfl rfl
  · show (if st.pindexGenesisBlock.isNone = true ∧ p.phashBlock = P.hashGenesisBlock then _ else _) = _
    rw [← hroot, hst.genesis]
    by_cases heq : p.phashBlock = root.phashBlock
    · rw [heq] at hnew
      rw [if_pos ⟨by rw [if_neg hnew]; rfl, heq⟩, heq, if_pos List.mem_cons_self]
    · rw [if_neg fun h => heq h.2]
      exact if_congr (by simp [Ne.symm heq]) rfl rfl

/-- The loop on the records of some hashes of the tree. -/
theorem LoadState.Partial.foldlM_loadRecord {done keys : List Uint256} {st : LoadState}
    (hst : st.Partial m pnext root done) (hdone : ∀ hash ∈ done, hash ∈ m)
    (hkeys : ∀ hash ∈ keys, hash ∈ m ∧ hash ∉ done) (hnodup : keys.Nodup) :
    ∃ st', (keys.filterMap records.lookup).foldlM (FoxCoin.loadRecord P) st = .ok st' ∧
      st'.Partial m pnext root (keys.reverse ++ done) := by
  induction keys generalizing done st with
  | nil => exact ⟨st, rfl, hst⟩
  | cons hash keys ih =>
    obtain ⟨⟨hmem, hnew⟩, hrest⟩ := List.forall_mem_cons.mp hkeys
    obtain ⟨hnot, hnodup'⟩ := List.nodup_cons.mp hnodup
    obtain ⟨p, hp⟩ := Finmap.mem_iff.mp hmem
    obtain rfl := ht.hash_eq _ _ hp
    obtain ⟨st₁, hload, hst₁⟩ := hst.loadRecord ht hroot hlinks hrec hdone hp hnew
    obtain ⟨st', hloop, hst'⟩ := ih hst₁ (List.forall_mem_cons.mpr ⟨hmem, hdone⟩)
      (fun k hk => ⟨(hrest k hk).1, by
        rw [List.mem_cons, not_or]
        exact ⟨fun heq => hnot (heq ▸ hk), (hrest k hk).2⟩⟩) hnodup'
    refine ⟨st', ?_, by simpa using hst'⟩
    rw [List.filterMap_cons_some (by rw [hrec.lookup_eq, hp, Option.map_some]), List.foldlM_cons,
      hload]
    exact hloop

/-- **The records load as the tree without its work**, in whatever order the cursor reads them. -/
theorem loadBlockIndexGuts_eq (keyOrder : Uint256 → ℕ) :
    ∃ st, loadBlockIndexGuts P ((keysInOrder keyOrder records).filterMap records.lookup) = .ok st ∧
      (∀ hash, st.mapBlockIndex.lookup hash = (m.lookup hash).map CBlockIndex.withoutWork) ∧
      st.pnext = pnext ∧ st.pindexGenesisBlock = some root.phashBlock := by
  have hkeys : ∀ hash, hash ∈ keysInOrder keyOrder records ↔ hash ∈ m := by
    intro hash
    rw [mem_keysInOrder, Finmap.mem_iff, Finmap.mem_iff, hrec.lookup_eq]
    simp
  have hstart : LoadState.Partial m pnext root [] ⟨∅, ∅, none⟩ := by
    refine ⟨⟨by simp, fun hash _ hmem => absurd hmem Finmap.notMem_empty⟩, fun hash => ?_, rfl⟩
    rw [Finmap.lookup_empty, if_neg List.not_mem_nil]
  obtain ⟨st, hloop, hst⟩ := hstart.foldlM_loadRecord ht hroot hlinks hrec (by simp)
    (fun hash hmem => ⟨(hkeys hash).mp hmem, List.not_mem_nil⟩) (nodup_keysInOrder keyOrder records)
  rw [List.append_nil] at hst
  have hall : ∀ hash, hash ∈ (keysInOrder keyOrder records).reverse ↔ hash ∈ m := by
    intro hash
    rw [List.mem_reverse, hkeys]
  refine ⟨st, hloop, fun hash => ?_, Finmap.ext_lookup fun hash => ?_, ?_⟩
  · by_cases hmem : hash ∈ m
    · exact hst.loaded hash ((hall hash).mpr hmem)
    · have hnone : hash ∉ st.mapBlockIndex := fun hin =>
        hmem (hst.created hash (mt (hall hash).mp hmem) hin).1
      rw [Finmap.lookup_eq_none.mpr hnone, Finmap.lookup_eq_none.mpr hmem, Option.map_none]
  · rw [hst.links]
    split_ifs with hmem
    · rfl
    · refine (Option.eq_none_iff_forall_not_mem.mpr fun hashNext hnext => ?_).symm
      exact hmem ((hall hash).mpr (hlinks _ _ hnext).1)
  · rw [hst.genesis, if_pos ((hall _).mpr (Finmap.mem_of_lookup_eq_some ht.root_mem))]

omit hroot hlinks hrec

/-! ## The loop over the heights -/

/-- Summing up the work of an index, when the index below it is done. -/
theorem sumChainWork_eq_insert {m' : StdMap Uint256 CBlockIndex} {p : CBlockIndex} (hp : p.In m)
    (hlookup : m'.lookup p.phashBlock = some p.withoutWork)
    (hdone : ∀ q : CBlockIndex, q.In m → q.nHeight + 1 = p.nHeight →
      m'.lookup q.phashBlock = some q) :
    sumChainWork m' (p.nHeight, p.phashBlock) = m'.insert p.phashBlock p := by
  have hwork : ((p.pprev.bind m'.lookup).map CBlockIndex.bnChainWork).getD 0 +
      getBlockWork p.nBits = p.bnChainWork := by
    cases hprev : p.pprev with
    | none => simpa using ((ht.linked _ _ hp).root hprev).2.symm
    | some hash =>
      obtain ⟨q, hq, rfl, hheight, hsum⟩ := ht.prev hp hprev
      rw [Option.bind_some, hdone q hq hheight.symm, hsum]
      rfl
  unfold sumChainWork
  simp only [hlookup]
  rw [show p.withoutWork.pprev = p.pprev from rfl, show p.withoutWork.nBits = p.nBits from rfl,
    hwork]
  rfl

/-- **Summing up the work by height** gives every index the work of its chain: when the turn of an
index comes, the index below it is already done. -/
theorem foldl_sumChainWork {items : List (ℕ × Uint256)} {m' : StdMap Uint256 CBlockIndex}
    (hitems : ∀ item ∈ items, ∃ p : CBlockIndex, p.In m ∧ item = (p.nHeight, p.phashBlock))
    (hnodup : (items.map Prod.snd).Nodup) (hsorted : items.Pairwise fun a b => a.1 ≤ b.1)
    (hm' : ∀ hash, m'.lookup hash = (m.lookup hash).map fun pindex =>
      if hash ∈ items.map Prod.snd then pindex.withoutWork else pindex) :
    items.foldl sumChainWork m' = m := by
  induction items generalizing m' with
  | nil =>
    refine Finmap.ext_lookup fun hash => ?_
    rw [List.foldl_nil, hm']
    simp
  | cons item items ih =>
    obtain ⟨⟨p, hp, rfl⟩, hrest⟩ := List.forall_mem_cons.mp hitems
    obtain ⟨hnot, hnodup'⟩ := List.nodup_cons.mp hnodup
    obtain ⟨hlow, hsorted'⟩ := List.pairwise_cons.mp hsorted
    have hlookup : m'.lookup p.phashBlock = some p.withoutWork := by
      rw [hm', hp, Option.map_some, if_pos (by simp)]
    have hdone : ∀ q : CBlockIndex, q.In m → q.nHeight + 1 = p.nHeight →
        m'.lookup q.phashBlock = some q := by
      intro q hq hheight
      have hpast : q.phashBlock ∉ (((p.nHeight, p.phashBlock) :: items).map Prod.snd) := by
        -- the indexes that are left are not lower than this one
        intro hmem
        obtain ⟨item, hmem, heq⟩ := List.mem_map.mp hmem
        have hle : p.nHeight ≤ item.1 := by
          rcases List.mem_cons.mp hmem with rfl | hmem
          · exact le_rfl
          · exact hlow item hmem
        obtain ⟨q', hq', rfl⟩ := hitems item hmem
        rw [hq'.eq hq heq] at hle
        omega
      rw [hm', hq, Option.map_some, if_neg hpast]
    rw [List.foldl_cons, sumChainWork_eq_insert ht hp hlookup hdone]
    refine ih hrest hnodup' hsorted' fun hash => ?_
    rw [lookup_insert_eq_ite]
    by_cases heq : hash = p.phashBlock
    · rw [if_pos heq, heq, hp, Option.map_some]
      exact congrArg some (if_neg hnot).symm
    · rw [if_neg heq, hm']
      refine congrArg (fun f => Option.map f (m.lookup hash)) (funext fun r => if_congr ?_ rfl rfl)
      rw [List.map_cons, List.mem_cons]
      exact or_iff_right heq

/-- **The work is summed up right** from the indexes without it, wherever they are in memory. -/
theorem foldl_sumChainWork_sortedByHeight (address : Uint256 → ℕ) {m' : StdMap Uint256 CBlockIndex}
    (hm' : ∀ hash, m'.lookup hash = (m.lookup hash).map CBlockIndex.withoutWork) :
    (sortedByHeight address m').foldl sumChainWork m' = m := by
  have hitems : ∀ item, item ∈ sortedByHeight address m' ↔
      ∃ p : CBlockIndex, p.In m ∧ item = (p.nHeight, p.phashBlock) := by
    intro item
    rw [mem_sortedByHeight, Finmap.mem_iff, hm']
    constructor
    · rintro ⟨⟨p', hp'⟩, hheight⟩
      obtain ⟨p, hp, -⟩ := Option.map_eq_some_iff.mp hp'
      obtain hhash := ht.hash_eq _ _ hp
      refine ⟨p, by rw [CBlockIndex.In, hhash, hp], Prod.ext ?_ hhash.symm⟩
      rw [← hheight, hp]
      rfl
    · rintro ⟨p, hp, rfl⟩
      rw [hp]
      exact ⟨⟨_, rfl⟩, rfl⟩
  refine foldl_sumChainWork ht (fun item hitem => (hitems item).mp hitem)
    (nodup_sortedByHeight address m') (pairwise_sortedByHeight address m') fun hash => ?_
  rw [hm']
  cases hp : m.lookup hash with
  | none => rfl
  | some p =>
    have hhash := ht.hash_eq _ _ hp
    rw [Option.map_some, Option.map_some, if_pos]
    exact List.mem_map.mpr ⟨(p.nHeight, p.phashBlock), (hitems _).mpr ⟨p, by
      rw [CBlockIndex.In, hhash, hp], rfl⟩, hhash⟩

end Load

/-- **Loading rebuilds the tree**: a database whose records describe the tree of a node and whose
best chain is the node's tip is loaded as the same index. -/
theorem NodeState.sameIndex_loadBlockIndex {s : NodeState} (keyOrder address : Uint256 → ℕ)
    (wallets : List CWallet) (ht : IsTree s.mapBlockIndex root)
    (hroot : root.phashBlock = P.hashGenesisBlock) (hgenesis : s.pindexGenesisBlock = some root)
    (hlinks : LinksWithin s.mapBlockIndex s.pnext)
    (hrec : Recorded P s.mapBlockIndex s.pnext s.txdb.mapDiskBlockIndex) (hp : p.In s.mapBlockIndex)
    (hbest : s.pindexBest = some p) (hhash : s.hashBestChain = p.phashBlock)
    (hcommitted : s.txdb.hashBestChain = some p.phashBlock) (hheight : s.nBestHeight = p.nHeight)
    (hwork : s.bnBestChainWork = p.bnChainWork) :
    ∃ s', (s.restarted wallets).loadBlockIndex P keyOrder address = (.ok (), s') ∧
      s.SameIndex s' := by
  obtain ⟨st, hguts, hmap, hnext, hgen⟩ :=
    loadBlockIndexGuts_eq ht hroot hlinks hrec keyOrder
  have hsum := foldl_sumChainWork_sortedByHeight ht address hmap
  unfold loadBlockIndex
  rw [show (s.restarted wallets).txdb = s.txdb from rfl, CTxDB.records, hguts]
  simp only [hsum, hcommitted, hnext, hgen]
  rw [show s.mapBlockIndex.lookup p.phashBlock = some p from hp]
  refine ⟨_, rfl, rfl, rfl, ?_, hbest.symm, hhash.symm, hheight.symm, hwork.symm⟩
  rw [hgenesis]
  exact ht.root_mem

end FoxCoin
