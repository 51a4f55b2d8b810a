import FoxCoin.LoadIndex
import FoxCoin.MainChain

/-! # The block-index records of a run

The records are rewritten piecemeal: the record of the previous block when a block is connected or
disconnected, in the transaction of the switch, and the record of a new block when it is added, in a
transaction of its own. In a run they describe the tree in memory, except that adding a block does
not look at whether its record was written. -/

namespace FoxCoin

open Checked Overlay Runs

variable {P : Params} {env : Env} {io : Io} {files : BlockFiles} {s s' : NodeState}
  {block : CBlock} {root p q : CBlockIndex} {db db' : CTxDB} {m : StdMap Uint256 CBlockIndex}
  {pnext : StdMap Uint256 Uint256}

/-! ## One record -/

/-- The links with the successor of the previous block assigned. -/
def assignPrev (pnext : StdMap Uint256 Uint256) (pprev : Option CBlockIndex)
    (next : Option Uint256) : StdMap Uint256 Uint256 :=
  pprev.elim pnext fun pprev => assignNext pnext pprev.phashBlock next

/-- **Writing the record of the previous block** assigns its successor on disk. -/
theorem Recorded.writeNext (h : Recorded P m pnext db.mapDiskBlockIndex) {pprev : Option CBlockIndex}
    (hprev : ∀ q ∈ pprev, q.In m) (next : Option Uint256) :
    Recorded P m (assignPrev pnext pprev next)
      (db.writeNext P pprev (next.getD 0)).mapDiskBlockIndex := by
  cases pprev with
  | none => exact h
  | some q =>
    have hq : q.In m := hprev q rfl
    refine ⟨fun hash => ?_, h.header, h.notNull⟩
    have hkey : (CDiskBlockIndex.ofIndex q (next.getD 0)).getBlockHash P = q.phashBlock :=
      h.header q hq
    show (db.mapDiskBlockIndex.insert ((CDiskBlockIndex.ofIndex q (next.getD 0)).getBlockHash P)
      (CDiskBlockIndex.ofIndex q (next.getD 0))).lookup hash = (m.lookup hash).map fun pindex =>
        CDiskBlockIndex.ofIndex pindex (((assignNext pnext q.phashBlock next).lookup hash).getD 0)
    rw [hkey, lookup_insert_eq_ite, lookup_assignNext]
    by_cases heq : hash = q.phashBlock
    · rw [if_pos heq, if_pos heq, heq, hq, Option.map_some]
    · rw [if_neg heq, if_neg heq]
      exact h.lookup_eq hash

/-- Connecting a block writes it into the record of the previous one. -/
theorem Recorded.connectBlock {v : ChainView} {vPrev : List CBlockIndex}
    (h : Recorded P m pnext db.mapDiskBlockIndex) (hprev : ∀ q ∈ vPrev.head?, q.In m)
    (hconnect : block.connectBlock P v io db p vPrev = .ok db') :
    Recorded P m (assignPrev pnext vPrev.head? (some p.phashBlock)) db'.mapDiskBlockIndex := by
  obtain ⟨-, -, -, rfl⟩ := connectBlock_eq_ok.mp hconnect
  exact Recorded.writeNext (by exact h) hprev (some p.phashBlock)

/-- Disconnecting a block takes it out of the record of the previous one. -/
theorem Recorded.disconnectBlock {vPrev : List CBlockIndex}
    (h : Recorded P m pnext db.mapDiskBlockIndex) (hprev : ∀ q ∈ vPrev.head?, q.In m)
    (hdisconnect : block.disconnectBlock P io db p vPrev = .ok db') :
    Recorded P m (assignPrev pnext vPrev.head? none) db'.mapDiskBlockIndex := by
  obtain ⟨mapTxIndex, -, -, rfl⟩ := disconnectBlock_eq_ok.mp hdisconnect
  exact Recorded.writeNext (by exact h) hprev none

/-! ## A switch -/

/-- The disconnect loop takes the successors away that `Reorganize` takes away in memory. -/
theorem Recorded.foldlM_disconnectStep {ws : List IndexWalk} {st st' : CTxDB × List CTransaction}
    (h : Recorded P m pnext st.1.mapDiskBlockIndex) (hws : ∀ w ∈ ws, ∀ q ∈ w.2.head?, q.In m)
    (hdisconnects : ws.foldlM (disconnectStep P io files) st = .ok st') :
    Recorded P m (ws.foldl (fun pnext w => assignPrev pnext w.2.head? none) pnext)
      st'.1.mapDiskBlockIndex := by
  induction ws generalizing st pnext with
  | nil =>
    cases hdisconnects
    exact h
  | cons w ws ih =>
    obtain ⟨hw, hrest⟩ := List.forall_mem_cons.mp hws
    obtain ⟨st₁, hstep, hloop⟩ := foldlM_cons_eq_ok.mp hdisconnects
    obtain ⟨block, txdb, -, hdisconnect, rfl⟩ := disconnectStep_eq_ok.mp hstep
    exact ih (h.disconnectBlock hw hdisconnect) hrest hloop

/-- The connect loop writes the successors that `Reorganize` links in memory. -/
theorem Recorded.connectLoop {v : ChainView} {ws : List IndexWalk}
    {vConnected vConnected' : List CBlock} {wallets wallets' : List CWallet}
    (h : Recorded P m pnext db.mapDiskBlockIndex) (hws : ∀ w ∈ ws, ∀ q ∈ w.2.head?, q.In m)
    (hconnects : connectLoop P v io db vConnected wallets ws = (.ok (db', vConnected'), wallets')) :
    Recorded P m (ws.foldl (fun pnext w => assignPrev pnext w.2.head? (some w.1.phashBlock)) pnext)
      db'.mapDiskBlockIndex := by
  induction ws generalizing db vConnected wallets pnext with
  | nil =>
    cases hconnects
    exact h
  | cons w ws ih =>
    obtain ⟨hw, hrest⟩ := List.forall_mem_cons.mp hws
    rw [FoxCoin.connectLoop] at hconnects
    cases hstep : connectStep P v io db w with
    | error r =>
      rw [hstep] at hconnects
      cases hconnects
    | ok result =>
      obtain ⟨block, db₁⟩ := result
      rw [hstep] at hconnects
      exact ih (h.connectBlock hw (connectStep_eq_ok.mp hstep).2) hrest hconnects

/-- The blocks below the indexes of a branch are on its walk. -/
theorem head?_indexWalks {a c : List CBlockIndex} {w : IndexWalk} (hw : w ∈ indexWalks a c) :
    ∀ q ∈ w.2.head?, q ∈ a ++ c := by
  induction a with
  | nil => cases hw
  | cons p a ih =>
    intro q hq
    rcases List.mem_cons.mp hw with rfl | hw
    · exact List.mem_cons_of_mem _ (List.mem_of_mem_head? hq)
    · exact List.mem_cons_of_mem _ (ih hw q hq)

/-- The records describe the tree in memory. -/
def NodeState.IndexRecorded (P : Params) (s : NodeState) : Prop :=
  Recorded P s.mapBlockIndex s.pnext s.txdb.mapDiskBlockIndex

/-- What leaves the tree, the links and the records alone keeps them in step. -/
theorem NodeState.IndexRecorded.of_unchanged (h : s.IndexRecorded P) (hsame : s.Unchanged s') :
    s'.IndexRecorded P := by
  rw [IndexRecorded, hsame.mapBlockIndex, hsame.pnext, hsame.mapDiskBlockIndex]
  exact h

/-- **A reorganisation** rewrites the records as it links the blocks in memory. -/
theorem Reorganization.indexRecorded (ht : IsTree s.mapBlockIndex root) (hp : p.In s.mapBlockIndex)
    (hbest : s.pindexBest = some p) (hq : q.In s.mapBlockIndex) (h : s.IndexRecorded P)
    (R : Reorganization P env s q) : R.result.IndexRecorded P := by
  obtain ⟨pfork, a, b, c, hbranches, ha, hb, -⟩ := ht.branches hp hbest hq
  have hR := R.branches_eq
  rw [hbranches, Except.ok.injEq, Prod.mk.injEq] at hR
  have hdown : ∀ w ∈ R.vDisconnect, ∀ r ∈ w.2.head?, r.In s.mapBlockIndex := by
    intro w hw r hr
    rw [← hR.1] at hw
    exact ht.in_of_mem_walkOf hp r (by
      rw [← NodeState.walkFrom_eq, ha]
      exact head?_indexWalks hw r hr)
  have hup : ∀ w ∈ R.vConnect, ∀ r ∈ w.2.head?, r.In s.mapBlockIndex := by
    intro w hw r hr
    rw [← hR.2, List.mem_reverse] at hw
    exact ht.in_of_mem_walkOf hq r (by
      rw [← NodeState.walkFrom_eq, hb]
      exact head?_indexWalks hw r hr)
  have hmiddle := Recorded.foldlM_disconnectStep (by exact h) hdown R.disconnects
  have htop := Recorded.connectLoop hmiddle hup R.connects
  exact htop

/-- **Attaching a block** writes it into the record of the previous one. -/
theorem Attachment.indexRecorded (ht : IsTree s.mapBlockIndex root) (hp : p.In s.mapBlockIndex)
    (h : s.IndexRecorded P) (A : Attachment P env s block p) : A.result.IndexRecorded P := by
  have hprev : A.pprev.In s.mapBlockIndex := by
    refine ht.in_of_mem_walkOf hp _ (List.mem_cons_of_mem p ?_)
    rw [show walkBelow s.mapBlockIndex p.nHeight p = s.vPrev p from rfl, A.vPrev_eq]
    exact List.mem_cons_self
  have hrec := Recorded.connectBlock (by exact h) (fun r hr => by
    rw [A.vPrev_eq, List.head?_cons, Option.mem_some_iff] at hr
    exact hr ▸ hprev) A.connects
  rw [A.vPrev_eq] at hrec
  exact hrec

/-- The postponed blocks are attached one after the other. -/
theorem NodeState.IndexRecorded.connectSecondary {l : List CBlockIndex}
    (ht : IsTree s.mapBlockIndex root) (hl : ∀ r ∈ l, r.In s.mapBlockIndex)
    (h : s.IndexRecorded P) : (s.connectSecondary P env l).2.IndexRecorded P := by
  induction l generalizing s with
  | nil => exact h
  | cons pindex l ih =>
    obtain ⟨hpindex, hrest⟩ := List.forall_mem_cons.mp hl
    rw [NodeState.connectSecondary]
    cases s.files.readFromDisk P env.io pindex with
    | none => exact h
    | some block =>
      simp only
      by_cases hbegin : env.io (.txnBegin2 pindex.phashBlock) = true
      · simp only [hbegin, Bool.not_true, Bool.false_eq_true, if_false]
        rcases s.setBestChainInner_cases P env block pindex with ⟨A, hA⟩ | ⟨r, s', hfail, hsame⟩
        · rw [hA]
          exact ih (s := A.result) ht hrest (A.indexRecorded ht hpindex h)
        · rw [hfail]
          exact h.of_unchanged hsame
      · simp only [hbegin, Bool.not_false, if_true]
        exact h

/-- **A switch keeps the records in step**, whether it succeeds or not. -/
theorem NodeState.IndexRecorded.setBestChain (h : s.Sound P root) (htip : s.TipConsistent q)
    (hp : p.In s.mapBlockIndex) (hrec : s.IndexRecorded P) :
    (s.setBestChain P env block p).2.IndexRecorded P := by
  rcases s.setBestChain_cases P env block p with ⟨s', hok, hswitch⟩ | ⟨r, s', hfail, hsame⟩
  · rw [hok]
    show s'.IndexRecorded P
    cases hswitch with
    | genesis hfirst => simp [IsFirst, h.genesis] at hfirst
    | attach _ _ A => exact A.indexRecorded h.tree hp hrec
    | reorganize _ _ pindexBest hbest R =>
      obtain rfl : q = pindexBest := Option.some.inj (htip.pindexBest.symm.trans hbest)
      obtain ⟨c, hc⟩ := postpone_eq (n := q.bnChainWork) (p := p) (l := s.vPrev p)
      have hwalk : walkOf s.mapBlockIndex p =
          (s.postponed q p).1 ++ (s.postponed q p).2 :: c := hc
      have hin : ∀ r ∈ (s.postponed q p).1 ++ (s.postponed q p).2 :: c, r.In s.mapBlockIndex :=
        fun r hr => h.tree.in_of_mem_walkOf hp r (hwalk ▸ hr)
      have hreorganized : R.result.IndexRecorded P :=
        R.indexRecorded h.tree htip.indexed hbest (hin _ (by simp)) hrec
      exact hreorganized.connectSecondary h.tree fun r hr => hin r (by
        rw [List.mem_append, ← List.mem_reverse]
        exact .inl hr)
  · rw [hfail]
    exact hrec.of_unchanged hsame

/-! ## A new block -/

/-- Links of a path are between its blocks. -/
theorem mem_of_lookup_links {l : List CBlockIndex} {hash hashNext : Uint256}
    (h : (links l).lookup hash = some hashNext) :
    (∃ q ∈ l, q.phashBlock = hash) ∧ ∃ q ∈ l, q.phashBlock = hashNext := by
  fun_induction links l with
  | case1 => cases h
  | case2 p => cases h
  | case3 p q l ih =>
    rw [lookup_insert_eq_ite] at h
    by_cases heq : hash = q.phashBlock
    · rw [if_pos heq, Option.some.injEq] at h
      exact ⟨⟨q, by simp, heq.symm⟩, p, by simp, h⟩
    · rw [if_neg heq] at h
      obtain ⟨⟨r, hr, hrhash⟩, t, ht, hthash⟩ := ih h
      exact ⟨⟨r, List.mem_cons_of_mem p hr, hrhash⟩, t, List.mem_cons_of_mem p ht, hthash⟩

/-- The links of a node in order are within its tree. -/
theorem NodeState.TipConsistent.linksWithin (h : s.Sound P root) (htip : s.TipConsistent q) :
    LinksWithin s.mapBlockIndex s.pnext := by
  have hin : ∀ r ∈ s.walkFrom q, r.phashBlock ∈ s.mapBlockIndex := fun r hr =>
    Finmap.mem_of_lookup_eq_some (h.tree.in_of_mem_walkOf htip.indexed r hr)
  intro hash hashNext hlink
  rw [htip.pnext] at hlink
  obtain ⟨⟨r, hr, rfl⟩, t, ht, rfl⟩ := mem_of_lookup_links hlink
  exact ⟨hin r hr, hin t ht⟩

/-- A new index with its record. -/
theorem Recorded.insert (h : Recorded P m pnext db.mapDiskBlockIndex) (hlinks : LinksWithin m pnext)
    (hnew : p.phashBlock ∉ m) (hzero : p.phashBlock ≠ 0)
    (hheader : (CDiskBlockIndex.ofIndex p 0).getBlockHash P = p.phashBlock) :
    Recorded P (m.insert p.phashBlock p) pnext
      (db.writeBlockIndex P (CDiskBlockIndex.ofIndex p 0)).mapDiskBlockIndex := by
  refine ⟨fun hash => ?_, fun r hr => ?_, fun hmem => ?_⟩
  · show (db.mapDiskBlockIndex.insert ((CDiskBlockIndex.ofIndex p 0).getBlockHash P)
      (CDiskBlockIndex.ofIndex p 0)).lookup hash = _
    rw [hheader, lookup_insert_eq_ite, lookup_insert_eq_ite]
    by_cases heq : hash = p.phashBlock
    · have hnone : pnext.lookup hash = none := Option.eq_none_iff_forall_not_mem.mpr
        fun hashNext hnext => hnew (heq ▸ (hlinks _ _ hnext).1)
      rw [if_pos heq, if_pos heq, hnone]
      rfl
    · rw [if_neg heq, if_neg heq]
      exact h.lookup_eq hash
  · rw [CBlockIndex.In, lookup_insert_eq_ite] at hr
    by_cases heq : r.phashBlock = p.phashBlock
    · rw [if_pos heq, Option.some.injEq] at hr
      exact hr ▸ hheader
    · rw [if_neg heq] at hr
      exact h.header r hr
  · exact (Finmap.mem_insert.mp hmem).elim (fun heq => hzero heq.symm) h.notNull

/-- The block gets as far as `AddToBlockIndex`. -/
def NodeState.addsBlock (P : Params) (env : Env) (s : NodeState) (block : CBlock) : Bool :=
  (s.checkBranch P env block).isOk && env.io (.checkDiskSpace (block.getHash P)) &&
    (s.writeToDisk P env block).isSome

/-- A block that does not get that far is not stored. -/
theorem NodeState.storeBlock_of_not_addsBlock (h : s.addsBlock P env block = false) :
    s.storeBlock P env block = s := by
  unfold addsBlock at h
  unfold storeBlock
  cases hcheck : s.checkBranch P env block with
  | error r => rfl
  | ok u =>
    rw [hcheck] at h
    cases hspace : env.io (.checkDiskSpace (block.getHash P)) with
    | false => rfl
    | true =>
      rw [hspace] at h
      cases hwrite : s.writeToDisk P env block with
      | none => rfl
      | some w =>
        rw [hwrite] at h
        cases h

/-- The record of a new index is written: the transaction begins, takes the record and commits. -/
def Io.WritesNewIndex (io : Io) (hash : Uint256) : Prop :=
  io (.txnBeginIndex hash) = true ∧ io (.writeNewIndex hash) = true ∧
    io (.txnCommitIndex hash) = true

instance (io : Io) (hash : Uint256) : Decidable (io.WritesNewIndex hash) :=
  inferInstanceAs (Decidable (_ ∧ _ ∧ _))

/-- **Storing a block whose record is written** keeps the records in step. -/
theorem Storing.indexRecorded (h : s.Sound P root) (htip : s.TipConsistent q)
    (hrec : s.IndexRecorded P) (S : Storing P env s block) (hzero : block.getHash P ≠ 0)
    (hwrites : env.io.WritesNewIndex (block.getHash P)) : S.result.IndexRecorded P := by
  obtain ⟨hbegin, hwrite, hcommit⟩ := hwrites
  have hresult : S.result = NodeState.insertIndex P env { s with files := S.files } S.pindex := by
    rw [Storing.result, NodeState.withIndex, if_pos]
    rw [Bool.and_eq_true]
    exact ⟨hbegin, hcommit⟩
  have hheader : (CDiskBlockIndex.ofIndex S.pindex 0).getBlockHash P = S.pindex.phashBlock := by
    show P.getBlockHash ⟨block.nVersion, S.pindexPrev.phashBlock, block.hashMerkleRoot, block.nTime,
      block.nBits, block.nNonce⟩ = block.getHash P
    rw [(S.pindexPrev_in h.tree).2]
    rfl
  have hinsert := Recorded.insert hrec (htip.linksWithin h) (p := S.pindex) S.new hzero hheader
  have htxdb : (NodeState.insertIndex P env { s with files := S.files } S.pindex).txdb =
      s.txdb.writeBlockIndex P (CDiskBlockIndex.ofIndex S.pindex 0) := if_pos hwrite
  rw [hresult, NodeState.IndexRecorded, htxdb]
  exact hinsert

/-! ## Every run -/

/-- Adding the block writes the record of its index, and the block has not the null hash.
`AddToBlockIndex` does not look at the result of the write, and keeps the index in memory when the
transaction fails. -/
def NodeEvent.RecordsIndex (P : Params) (s : NodeState) : NodeEvent → Prop
  | .store env block => s.addsBlock P env block = true →
      block.getHash P ≠ 0 ∧ env.io.WritesNewIndex (block.getHash P)
  | _ => True

/-- The record of the genesis block is filed under its hash. -/
def NodeState.GenesisRecorded (s : NodeState) : Prop :=
  ∃ p, s.pindexGenesisBlock = some p ∧
    s.txdb.mapDiskBlockIndex.lookup p.phashBlock = some (CDiskBlockIndex.ofIndex p 0)

/-- The node as a system that starts with the record of the genesis block. -/
def recordedSystem (P : Params) : System NodeState NodeEvent :=
  { nodeSystem P with start := fun s => s.Loaded P ∧ s.GenesisRecorded }

theorem Params.hashGenesisBlock_ne_zero (P : Params) : P.hashGenesisBlock ≠ 0 := by
  unfold hashGenesisBlock
  split_ifs <;> decide

/-- A node that has loaded the genesis block has its record. -/
theorem NodeState.Loaded.indexRecorded (h : s.Loaded P) (hrecord : s.GenesisRecorded) :
    s.IndexRecorded P := by
  obtain ⟨L, rfl⟩ := h.exists_loading
  obtain ⟨p, hp, hlookup⟩ := hrecord
  obtain rfl : L.pindexGenesis = p := Option.some.inj hp
  replace hlookup : L.indexed.txdb.mapDiskBlockIndex.lookup L.pindexGenesis.phashBlock =
    some (CDiskBlockIndex.ofIndex L.pindexGenesis 0) := hlookup
  have hnull : L.pindexGenesis.phashBlock ≠ 0 := by
    rw [show L.pindexGenesis.phashBlock = P.hashGenesisBlock from L.hash_eq]
    exact P.hashGenesisBlock_ne_zero
  have hempty : Recorded P ∅ ∅ (NodeState.empty L.wallets).txdb.mapDiskBlockIndex :=
    ⟨fun _ => rfl, fun q hq => (by cases hq), Finmap.notMem_empty⟩
  rw [Loading.indexed, NodeState.insertIndex] at hlookup
  by_cases hwrite : L.env.io (.writeNewIndex L.pindexGenesis.phashBlock) = true
  · rw [if_pos hwrite] at hlookup
    have hheader : (CDiskBlockIndex.ofIndex L.pindexGenesis 0).getBlockHash P =
        L.pindexGenesis.phashBlock := by
      by_contra hne
      replace hlookup : ((∅ : StdMap Uint256 CDiskBlockIndex).insert
        ((CDiskBlockIndex.ofIndex L.pindexGenesis 0).getBlockHash P)
        (CDiskBlockIndex.ofIndex L.pindexGenesis 0)).lookup L.pindexGenesis.phashBlock = _ := hlookup
      rw [lookup_insert_eq_ite, if_neg (Ne.symm hne)] at hlookup
      cases hlookup
    have hinsert := hempty.insert (fun _ _ hlink => by cases hlink) Finmap.notMem_empty hnull hheader
    have htxdb : L.indexed.txdb = (NodeState.empty L.wallets).txdb.writeBlockIndex P
        (CDiskBlockIndex.ofIndex L.pindexGenesis 0) := if_pos hwrite
    show Recorded P _ _ L.indexed.txdb.mapDiskBlockIndex
    rw [htxdb]
    exact hinsert
  · rw [if_neg hwrite] at hlookup
    cases hlookup

/-- The records of a node in order describe its tree. -/
def NodeState.InStep (P : Params) (s : NodeState) : Prop :=
  s.InOrder P ∧ s.IndexRecorded P

/-- An event that does not stop early and writes the records keeps them in step. -/
theorem NodeState.InStep.next {e : NodeEvent} (h : s.InStep P) (hlegal : s.Legal P e)
    (hstops : ¬e.StopsEarly P s) (hrecords : e.RecordsIndex P s) : (s.next P e).InStep P := by
  refine ⟨h.1.next hlegal hstops, ?_⟩
  obtain ⟨⟨root, q, hsound, htip⟩, hrec⟩ := h
  cases e with
  | store env block =>
    rw [NodeState.next]
    cases hadds : s.addsBlock P env block with
    | false =>
      rw [storeBlock_of_not_addsBlock hadds]
      exact hrec
    | true =>
      obtain ⟨hzero, hwrites⟩ := hrecords hadds
      rcases s.acceptBlock_cases P env block with ⟨hstore, -⟩ | ⟨S, hstore, -⟩
      · rw [hstore]
        exact hrec
      · rw [hstore]
        exact S.indexRecorded hsound htip hrec hzero hwrites
  | switch env block p => exact hrec.setBestChain hsound htip hlegal.1
  | relay mempool wallets mapOrphanBlocks mapOrphanBlocksByPrev => exact hrec

/-- The condition of a run: it never stops early and writes the records. -/
def NodeEvent.KeepsRecords (P : Params) (s : NodeState) (e : NodeEvent) : Prop :=
  ¬e.StopsEarly P s ∧ e.RecordsIndex P s

/-- **A node that starts again has the same block index**, after every run that never stops early
and writes the record of every index it adds: the same blocks with the same links, places, headers
and work, and the same tip. It does not depend on the order of the cursor or on addresses. -/
theorem sameIndex_of_reaches (h : Reaches (recordedSystem P) (fun s e => e.KeepsRecords P s) s)
    (keyOrder address : Uint256 → ℕ) (wallets : List CWallet) :
    ∃ s', (s.restarted wallets).loadBlockIndex P keyOrder address = (.ok (), s') ∧
      s.SameIndex s' := by
  have hstep : s.InStep P := by
    refine h.invariant (fun s hs => ?_) fun s e hs hlegal hok => hs.next hlegal hok.1 hok.2
    obtain ⟨hloaded, hrecord⟩ := hs
    obtain ⟨root, hsound, htip⟩ := NodeState.Loaded.sound hloaded
    exact ⟨⟨root, root, hsound, htip⟩, NodeState.Loaded.indexRecorded hloaded hrecord⟩
  obtain ⟨⟨root, q, hsound, htip⟩, hrec⟩ := hstep
  exact NodeState.sameIndex_loadBlockIndex keyOrder address wallets hsound.tree hsound.root_hash
    hsound.genesis (htip.linksWithin hsound) hrec htip.indexed htip.pindexBest htip.hashBestChain
    htip.committed htip.nBestHeight htip.bnBestChainWork

/-! ## Worked examples -/

/-- The example starts with the record of the genesis block. -/
theorem genesisRecorded_genesisNode : (genesisNode []).GenesisRecorded :=
  ⟨(genesisNode []).indexOf exampleParams.hashGenesisBlock, by decide +kernel, by decide +kernel⟩

/-- Storing a checked block continues a run of the example. -/
theorem reaches_keepsRecords_store (h : Reaches (recordedSystem exampleParams)
      (fun s e => e.KeepsRecords exampleParams s) s)
    (hcheck : (block.checkBlock exampleParams 1400009000).isOk = true)
    (hzero : block.getHash exampleParams ≠ 0) :
    Reaches (recordedSystem exampleParams) (fun s e => e.KeepsRecords exampleParams s)
      (s.storeBlock exampleParams exampleEnv block) := by
  obtain ⟨u, hu⟩ := exists_of_isOk hcheck
  exact h.next (.store exampleEnv block) ⟨_, u, hu⟩
    ⟨not_false, fun _ => ⟨hzero, rfl, rfl, rfl⟩⟩

/-- Switching to a branch continues a run of the example. -/
theorem reaches_keepsRecords_switch (h : Reaches (recordedSystem exampleParams)
      (fun s e => e.KeepsRecords exampleParams s) s) (block : CBlock)
    (hlegal : p.In s.mapBlockIndex ∧
      s.files.readBlock exampleParams p.nFile p.nBlockPos = some block)
    (hstops : s.stopsEarly exampleParams exampleEnv block p = false) :
    Reaches (recordedSystem exampleParams) (fun s e => e.KeepsRecords exampleParams s)
      (s.next exampleParams (.switch exampleEnv block p)) :=
  h.next (.switch exampleEnv block p) hlegal
    ⟨Bool.eq_false_iff.mp hstops, trivial⟩

theorem reaches_keepsRecords_switchedB3 : Reaches (recordedSystem exampleParams)
    (fun s e => e.KeepsRecords exampleParams s) switchedB3 := by
  have hgenesis : (genesisNode []).Loaded exampleParams := loaded_genesisNode (by decide +kernel)
  have hstored : Reaches (recordedSystem exampleParams) (fun s e => e.KeepsRecords exampleParams s)
      storedA1 := reaches_keepsRecords_store (.start ⟨hgenesis, genesisRecorded_genesisNode⟩)
    (by decide +kernel) (by decide +kernel)
  have htip : Reaches (recordedSystem exampleParams) (fun s e => e.KeepsRecords exampleParams s)
      switchedA1 := reaches_keepsRecords_switch hstored blockA1
    ⟨by decide +kernel, by decide +kernel⟩ (by decide +kernel)
  have hbranch : Reaches (recordedSystem exampleParams) (fun s e => e.KeepsRecords exampleParams s)
      storedNode :=
    reaches_keepsRecords_store (reaches_keepsRecords_store (reaches_keepsRecords_store htip
      (by decide +kernel) (by decide +kernel)) (by decide +kernel) (by decide +kernel))
      (by decide +kernel) (by decide +kernel)
  exact reaches_keepsRecords_switch hbranch (blockB3 50)
    ⟨by decide +kernel, by decide +kernel⟩ (by decide +kernel)

/-- A node starts again after a reorganisation. -/
theorem sameIndex_switchedB3 :
    ∃ s', (switchedB3.restarted []).loadBlockIndex exampleParams id id = (.ok (), s') ∧
      switchedB3.SameIndex s' :=
  sameIndex_of_reaches reaches_keepsRecords_switchedB3 id id []

/-- An environment in which the record of the first block of a branch is not written, although its
transaction commits. -/
def lossyEnv : Env := ⟨fun op => decide (op ≠ .writeNewIndex 11), 1400009000⟩

/-- The node that has stored the block without its record. -/
def lossyStored : NodeState := (genesisNode []).storeBlock exampleParams lossyEnv blockA1

/-- The node that has accepted the block. -/
def lossyNode : NodeState :=
  lossyStored.next exampleParams (.switch lossyEnv blockA1 (lossyStored.indexOf 11))

/-- **A node that does not start again as it was.** The write of the record fails and nothing
notices it: the block is the tip at height one, and after a restart the tip has height zero. -/
theorem not_forall_sameIndex : ¬∀ s, Reaches (recordedSystem exampleParams)
    (fun s e => ¬e.StopsEarly exampleParams s) s → ∀ (keyOrder address : Uint256 → ℕ) wallets,
      ∃ s', (s.restarted wallets).loadBlockIndex exampleParams keyOrder address = (.ok (), s') ∧
        s.SameIndex s' := by
  intro hall
  have hgenesis : (genesisNode []).Loaded exampleParams := loaded_genesisNode (by decide +kernel)
  obtain ⟨u, hcheck⟩ := exists_of_isOk
    (show (blockA1.checkBlock exampleParams 1400009000).isOk = true by decide +kernel)
  have hstart : Reaches (recordedSystem exampleParams) (fun s e => ¬e.StopsEarly exampleParams s)
      (genesisNode []) := .start ⟨hgenesis, genesisRecorded_genesisNode⟩
  have hstored : Reaches (recordedSystem exampleParams) (fun s e => ¬e.StopsEarly exampleParams s)
      lossyStored := hstart.next (.store lossyEnv blockA1) ⟨_, u, hcheck⟩ not_false
  have htip : Reaches (recordedSystem exampleParams) (fun s e => ¬e.StopsEarly exampleParams s)
      lossyNode := hstored.next
    (.switch lossyEnv blockA1 (lossyStored.indexOf 11))
    ⟨by decide +kernel, by decide +kernel⟩ (Bool.eq_false_iff.mp (by decide +kernel))
  obtain ⟨s', hload, hsame⟩ := hall lossyNode htip id id []
  have hheight : ((lossyNode.restarted []).loadBlockIndex exampleParams id id).2.nBestHeight = 0 := by
    decide +kernel
  rw [hload] at hheight
  have hbefore : lossyNode.nBestHeight = 1 := by decide +kernel
  rw [hsame.nBestHeight, hbefore] at hheight
  cases hheight

end FoxCoin
