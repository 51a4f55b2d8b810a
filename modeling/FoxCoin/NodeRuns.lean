import FoxCoin.TipInvariant
import FoxCoin.ProcessBlock
import FoxCoin.Disconnect
import FoxCoin.Lib.Runs

/-! # Runs of the node

The node starts with the genesis block. Then blocks are stored, the best chain is switched to some
block of the tree, and other parts of the node change the memory pool, the wallets and the orphans.
Accepting a block is storing it and, when it has more work than the tip, switching to it. -/

namespace FoxCoin

open Checked Overlay Runs

variable {P : Params} {env : Env} {s s' : NodeState} {block : CBlock} {root p q : CBlockIndex}

/-! ## Storing a block -/

/-- The rules of `AcceptBlock` for a block on top of `pindexPrev`. -/
structure NodeState.BranchRules (P : Params) (env : Env) (s : NodeState) (pindexPrev : CBlockIndex)
    (block : CBlock) : Prop where
  nBits_eq : block.nBits = getNextWorkRequired P (s.walkFrom pindexPrev) block
  median_lt : getMedianTimePast (s.walkFrom pindexPrev) < block.getBlockTime
  not_future : block.getBlockTime ≤ env.nAdjustedTime + 30 * 60
  not_past : pindexPrev.getBlockTime - 30 * 60 < block.getBlockTime
  final : ∀ tx ∈ block.vtx, tx.isFinal s.nBestHeight env.nAdjustedTime ((pindexPrev.nHeight + 1 : ℕ))
    block.getBlockTime = true
  checkpoint : Checkpoints.checkBlock P (pindexPrev.nHeight + 1) (block.getHash P) = true

/-- The checks of `AcceptBlock` pass exactly on a new block whose previous block is known and whose
branch allows it. -/
theorem NodeState.checkBranch_eq_ok {u : Unit} : s.checkBranch P env block = .ok u ↔
    block.getHash P ∉ s.mapBlockIndex ∧ ∃ pindexPrev,
      s.mapBlockIndex.lookup block.hashPrevBlock = some pindexPrev ∧
        s.BranchRules P env pindexPrev block := by
  unfold checkBranch
  simp only [ensure_bind_eq_ok, decide_eq_true_eq]
  refine and_congr_right fun _ => ?_
  cases s.mapBlockIndex.lookup block.hashPrevBlock with
  | none => simp
  | some pindexPrev =>
    simp only [ensure_bind_eq_ok, decide_eq_true_eq, ensure_eq_ok, List.all_eq_true,
      Option.some.injEq, exists_eq_left']
    constructor
    · rintro ⟨h1, h2, h3, h4, h5, h6⟩
      exact ⟨h1, h2, h3, h4, h5, h6⟩
    · rintro ⟨h1, h2, h3, h4, h5, h6⟩
      exact ⟨h1, h2, h3, h4, h5, h6⟩

/-- The state with a new index in memory, and in the database unless its transaction fails. -/
def NodeState.withIndex (P : Params) (env : Env) (s : NodeState) (pindexNew : CBlockIndex) :
    NodeState :=
  if env.io (.txnBeginIndex pindexNew.phashBlock) && env.io (.txnCommitIndex pindexNew.phashBlock) then
    s.insertIndex P env pindexNew
  else { s with mapBlockIndex := s.mapBlockIndex.insert pindexNew.phashBlock pindexNew }

/-- The state that `AcceptBlock` has brought about before it calls `SetBestChain`, or when it does
not call it. -/
def NodeState.storeBlock (P : Params) (env : Env) (s : NodeState) (block : CBlock) : NodeState :=
  match s.checkBranch P env block with
  | .error _ => s
  | .ok _ =>
    if !env.io (.checkDiskSpace (block.getHash P)) then s
    else
      match s.writeToDisk P env block with
      | none => s
      | some (nFile, nBlockPos, s) => s.withIndex P env
          (CBlockIndex.linked s.mapBlockIndex (block.getHash P) nFile nBlockPos block)

@[simp] theorem CBlockIndex.linked_phashBlock (m : StdMap Uint256 CBlockIndex) (hash : Uint256)
    (nFile nBlockPos : ℕ) (block : CBlock) :
    (CBlockIndex.linked m hash nFile nBlockPos block).phashBlock = hash := by
  unfold CBlockIndex.linked
  split <;> rfl

/-- The index of a new block on top of a known one. -/
theorem CBlockIndex.linked_of_lookup {m : StdMap Uint256 CBlockIndex} {hash : Uint256}
    {nFile nBlockPos : ℕ} (h : m.lookup block.hashPrevBlock = some q) :
    CBlockIndex.linked m hash nFile nBlockPos block =
      { CBlockIndex.ofBlock hash nFile nBlockPos block with
        pprev := some q.phashBlock
        nHeight := q.nHeight + 1
        bnChainWork := q.bnChainWork + getBlockWork block.nBits } := by
  rw [CBlockIndex.linked, h]
  rfl

/-- What storing a block does when it gets as far as writing the block. -/
structure Storing (P : Params) (env : Env) (s : NodeState) (block : CBlock) where
  pindexPrev : CBlockIndex
  nFile : ℕ
  nBlockPos : ℕ
  files : BlockFiles
  new : block.getHash P ∉ s.mapBlockIndex
  prev : s.mapBlockIndex.lookup block.hashPrevBlock = some pindexPrev
  rules : s.BranchRules P env pindexPrev block
  writes : s.files.writeToDisk block = some (nFile, nBlockPos, files)

/-- The index of the stored block. -/
def Storing.pindex (S : Storing P env s block) : CBlockIndex :=
  { CBlockIndex.ofBlock (block.getHash P) S.nFile S.nBlockPos block with
    pprev := some S.pindexPrev.phashBlock
    nHeight := S.pindexPrev.nHeight + 1
    bnChainWork := S.pindexPrev.bnChainWork + getBlockWork block.nBits }

/-- The state with the stored block. -/
def Storing.result (S : Storing P env s block) : NodeState :=
  NodeState.withIndex P env { s with files := S.files } S.pindex

/-- **Accepting a block is storing it and then perhaps switching to it.** -/
theorem NodeState.acceptBlock_cases (P : Params) (env : Env) (s : NodeState) (block : CBlock) :
    (s.storeBlock P env block = s ∧ ∃ r, s.acceptBlock P env block = (.error r, s)) ∨
      ∃ S : Storing P env s block, s.storeBlock P env block = S.result ∧
        ((∃ r, s.acceptBlock P env block = (r, S.result)) ∨
          ((S.result.setBestChain P env block S.pindex).1 = .ok () ∧ s.acceptBlock P env block =
            (.ok (), (S.result.setBestChain P env block S.pindex).2)) ∨
          ∃ r, s.acceptBlock P env block =
            (.error r, (S.result.setBestChain P env block S.pindex).2)) := by
  unfold storeBlock acceptBlock
  cases hcheck : s.checkBranch P env block with
  | error r => exact .inl ⟨rfl, _, rfl⟩
  | ok u =>
    obtain ⟨hnew, pindexPrev, hprev, hrules⟩ := checkBranch_eq_ok.mp hcheck
    simp only
    by_cases hspace : env.io (.checkDiskSpace (block.getHash P)) = true
    · simp only [hspace, Bool.not_true, Bool.false_eq_true, if_false]
      cases hwrite : s.writeToDisk P env block with
      | none => exact .inl ⟨rfl, _, rfl⟩
      | some w =>
        unfold writeToDisk at hwrite
        rw [Option.ite_none_right_eq_some, Option.map_eq_some_iff] at hwrite
        obtain ⟨-, ⟨nFile, nBlockPos, files⟩, hfiles, rfl⟩ := hwrite
        refine .inr ⟨⟨pindexPrev, nFile, nBlockPos, files, hnew, hprev, hrules, hfiles⟩, ?_, ?_⟩
        · simp only [CBlockIndex.linked_of_lookup hprev]
          rfl
        · simp only [addToBlockIndex, if_neg hnew, CBlockIndex.linked_of_lookup hprev,
            Storing.result, Storing.pindex, withIndex, CBlockIndex.ofBlock]
          by_cases htxn : (env.io (.txnBeginIndex (block.getHash P)) &&
              env.io (.txnCommitIndex (block.getHash P))) = true
          · simp only [htxn, Bool.not_true, Bool.false_eq_true, if_false, if_true]
            split_ifs with hwork
            · refine .inr ?_
              generalize NodeState.setBestChain P env _ block _ = out
              obtain ⟨result, s'⟩ := out
              cases result with
              | error r => exact .inr ⟨_, rfl⟩
              | ok u => exact .inl ⟨rfl, rfl⟩
            · exact .inl ⟨_, rfl⟩
          · simp only [htxn, Bool.not_false, Bool.false_eq_true, if_false, if_true]
            exact .inl ⟨_, rfl⟩
    · simp only [hspace, Bool.not_false, if_true]
      exact .inl ⟨trivial, _, rfl⟩

/-! ## The system -/

/-- What happens to a node: a block is stored, the best chain is switched to a stored block, or
other parts of the node have changed the pool, the wallets and the orphans. -/
inductive NodeEvent
  | store (env : Env) (block : CBlock)
  | switch (env : Env) (block : CBlock) (pindexNew : CBlockIndex)
  | relay (mempool : CTxMemPool) (wallets : List CWallet) (mapOrphanBlocks : StdMap Uint256 CBlock)
      (mapOrphanBlocksByPrev : List (Uint256 × CBlock))

/-- The node with another pool, other wallets and other orphans. -/
def NodeState.relay (s : NodeState) (mempool : CTxMemPool) (wallets : List CWallet)
    (mapOrphanBlocks : StdMap Uint256 CBlock)
    (mapOrphanBlocksByPrev : List (Uint256 × CBlock)) : NodeState :=
  { s with mempool, setpwalletRegistered := wallets, mapOrphanBlocks, mapOrphanBlocksByPrev }

/-- The effect of an event. -/
def NodeState.next (P : Params) (s : NodeState) : NodeEvent → NodeState
  | .store env block => s.storeBlock P env block
  | .switch env block pindexNew => (s.setBestChain P env block pindexNew).2
  | .relay mempool wallets mapOrphanBlocks mapOrphanBlocksByPrev =>
    s.relay mempool wallets mapOrphanBlocks mapOrphanBlocksByPrev

/-- A block is stored after it has passed `CheckBlock`, and the best chain is switched to a block of
the tree, read from its place or written there just before. -/
def NodeState.Legal (P : Params) (s : NodeState) : NodeEvent → Prop
  | .store _ block => ∃ t u, block.checkBlock P t = .ok u
  | .switch _ block pindexNew => pindexNew.In s.mapBlockIndex ∧
      s.files.readBlock P pindexNew.nFile pindexNew.nBlockPos = some block
  | .relay .. => True

/-- The node has written the genesis block to disk and added it to its index, as `LoadBlockIndex`
does for an empty data directory. The write that `SetBestChain` does not check has succeeded. -/
structure NodeState.Loaded (P : Params) (s : NodeState) : Prop where
  intro ::
  loads : ∃ (wallets : List CWallet) (env : Env) (block : CBlock) (nFile nBlockPos : ℕ)
    (s₁ : NodeState), block.getHash P = P.hashGenesisBlock ∧
      checkProofOfWork (block.getPoWHash P) block.nBits = .ok () ∧
      env.io (.writeHashBestChain (block.getHash P)) = true ∧
      (NodeState.empty wallets).writeToDisk P env block = some (nFile, nBlockPos, s₁) ∧
      s₁.addToBlockIndex P env block nFile nBlockPos = (.ok (), s)

/-- The node as a system. -/
def nodeSystem (P : Params) : System NodeState NodeEvent where
  start := NodeState.Loaded P
  legal := NodeState.Legal P
  next := NodeState.next P

/-! ## The block tree of a run -/

/-- The state of a node that is sound: its indexes are a tree on the genesis block, and every block
of the tree is stored where its index says. -/
structure NodeState.Sound (P : Params) (s : NodeState) (root : CBlockIndex) : Prop where
  tree : IsTree s.mapBlockIndex root
  genesis : s.pindexGenesisBlock = some root
  root_hash : root.phashBlock = P.hashGenesisBlock
  stored : ∀ p : CBlockIndex, p.In s.mapBlockIndex → ∃ block, s.Stores P p block

/-- What leaves the tree and the files alone keeps the node sound. -/
theorem NodeState.Sound.of_eq (h : s.Sound P root) (hmap : s'.mapBlockIndex = s.mapBlockIndex)
    (hfiles : s'.files = s.files) (hgenesis : s'.pindexGenesisBlock = s.pindexGenesisBlock) :
    s'.Sound P root := by
  refine ⟨hmap ▸ h.tree, hgenesis.trans h.genesis, h.root_hash, fun p hp => ?_⟩
  rw [hmap] at hp
  obtain ⟨block, hblock⟩ := h.stored p hp
  exact ⟨block, by rw [hfiles]; exact hblock.read, hblock.hash_eq, hblock.hashPrev_eq,
    hblock.nTime_eq, hblock.nBits_eq⟩

/-- A state with one more index: the tip, the committed chain and what other parts of the node own
are the same. -/
structure NodeState.AddsIndex (s s' : NodeState) (p : CBlockIndex) : Prop where
  mapBlockIndex : s'.mapBlockIndex = s.mapBlockIndex.insert p.phashBlock p
  pnext : s'.pnext = s.pnext
  pindexGenesisBlock : s'.pindexGenesisBlock = s.pindexGenesisBlock
  pindexBest : s'.pindexBest = s.pindexBest
  hashBestChain : s'.hashBestChain = s.hashBestChain
  nBestHeight : s'.nBestHeight = s.nBestHeight
  bnBestChainWork : s'.bnBestChainWork = s.bnBestChainWork
  txdb_hashBestChain : s'.txdb.hashBestChain = s.txdb.hashBestChain
  mapTxIndex : s'.txdb.mapTxIndex = s.txdb.mapTxIndex
  mempool : s'.mempool = s.mempool
  setpwalletRegistered : s'.setpwalletRegistered = s.setpwalletRegistered
  mapOrphanBlocks : s'.mapOrphanBlocks = s.mapOrphanBlocks
  mapOrphanBlocksByPrev : s'.mapOrphanBlocksByPrev = s.mapOrphanBlocksByPrev

/-- Adding an index only writes a record of it to the database. -/
theorem NodeState.addsIndex_withIndex (s : NodeState) (files : BlockFiles) (p : CBlockIndex) :
    s.AddsIndex (NodeState.withIndex P env { s with files := files } p) p ∧
      (NodeState.withIndex P env { s with files := files } p).files = files := by
  unfold withIndex insertIndex
  by_cases h : (env.io (.txnBeginIndex p.phashBlock) &&
      env.io (.txnCommitIndex p.phashBlock)) = true
  · simp only [h, if_true]
    by_cases hwrite : env.io (.writeNewIndex p.phashBlock) = true
    · simp only [hwrite, if_true]
      exact ⟨⟨rfl, rfl, rfl, rfl, rfl, rfl, rfl, rfl, rfl, rfl, rfl, rfl, rfl⟩, trivial⟩
    · simp only [hwrite, Bool.false_eq_true, if_false]
      exact ⟨⟨rfl, rfl, rfl, rfl, rfl, rfl, rfl, rfl, rfl, rfl, rfl, rfl, rfl⟩, trivial⟩
  · simp only [h, Bool.false_eq_true, if_false]
    exact ⟨⟨rfl, rfl, rfl, rfl, rfl, rfl, rfl, rfl, rfl, rfl, rfl, rfl, rfl⟩, trivial⟩

theorem Storing.addsIndex (S : Storing P env s block) : s.AddsIndex S.result S.pindex :=
  (s.addsIndex_withIndex S.files S.pindex).1

theorem Storing.files_eq (S : Storing P env s block) : S.result.files = S.files :=
  (s.addsIndex_withIndex S.files S.pindex).2

/-- The index of a stored block is in the tree. -/
theorem Storing.pindex_in (S : Storing P env s block) : S.pindex.In S.result.mapBlockIndex := by
  rw [CBlockIndex.In, S.addsIndex.mapBlockIndex, lookup_insert_eq_ite, if_pos rfl]

/-- An index of the tree is still there after a block is stored. -/
theorem Storing.in_result (S : Storing P env s block) (hp : p.In s.mapBlockIndex) :
    p.In S.result.mapBlockIndex := by
  rw [CBlockIndex.In, S.addsIndex.mapBlockIndex, lookup_insert_eq_ite, if_neg]
  · exact hp
  · intro heq
    have hmem : p.phashBlock ∈ s.mapBlockIndex := Finmap.mem_of_lookup_eq_some hp
    rw [heq] at hmem
    exact S.new hmem

/-- An index of the tree after a block is stored is the new one or was there before. -/
theorem Storing.of_in_result (S : Storing P env s block) (hp : p.In S.result.mapBlockIndex) :
    p = S.pindex ∨ p.In s.mapBlockIndex := by
  rw [CBlockIndex.In, S.addsIndex.mapBlockIndex, lookup_insert_eq_ite] at hp
  by_cases h : p.phashBlock = S.pindex.phashBlock
  · rw [if_pos h, Option.some.injEq] at hp
    exact .inl hp.symm
  · rw [if_neg h] at hp
    exact .inr hp

/-- The index of the previous block is in the tree, under the hash that the block names. -/
theorem Storing.pindexPrev_in (ht : IsTree s.mapBlockIndex root) (S : Storing P env s block) :
    S.pindexPrev.In s.mapBlockIndex ∧ S.pindexPrev.phashBlock = block.hashPrevBlock := by
  have hhash := ht.hash_eq _ _ S.prev
  exact ⟨by rw [CBlockIndex.In, hhash, S.prev], hhash⟩

/-- The tree with the stored block. -/
theorem Storing.isTree (ht : IsTree s.mapBlockIndex root) (S : Storing P env s block) :
    IsTree S.result.mapBlockIndex root := by
  rw [S.addsIndex.mapBlockIndex]
  exact ht.insert (p := S.pindex) S.new (S.pindexPrev_in ht).1 rfl rfl rfl

/-- The walk of an index that was there before does not see the stored block. -/
theorem Storing.walkFrom_eq (ht : IsTree s.mapBlockIndex root) (S : Storing P env s block)
    (hp : p.In s.mapBlockIndex) : S.result.walkFrom p = s.walkFrom p := by
  rw [NodeState.walkFrom_eq, S.addsIndex.mapBlockIndex]
  exact ht.walkOf_insert hp S.new S.pindex

/-- **Storing a block keeps the node sound.** -/
theorem Storing.sound (h : s.Sound P root) (S : Storing P env s block)
    (hpow : checkProofOfWork (block.getPoWHash P) block.nBits = .ok ()) :
    S.result.Sound P root := by
  obtain ⟨hread, hkeep⟩ := BlockFiles.readBlock_of_writeToDisk (P := P) S.writes
  refine ⟨S.isTree h.tree, S.addsIndex.pindexGenesisBlock.trans h.genesis, h.root_hash,
    fun p hp => ?_⟩
  rcases S.of_in_result hp with rfl | hold
  · refine ⟨block, ?_, rfl, fun hash hhash => ?_, rfl, rfl⟩
    · rw [S.files_eq]
      exact hread (by rw [hpow]; rfl)
    · rw [← (S.pindexPrev_in h.tree).2]
      exact Option.some.inj hhash
  · obtain ⟨b, hb⟩ := h.stored p hold
    refine ⟨b, ?_, hb.hash_eq, hb.hashPrev_eq, hb.nTime_eq, hb.nBits_eq⟩
    rw [S.files_eq]
    exact hkeep _ _ _ hb.read

/-- Storing a block keeps the tip of the database. -/
theorem Storing.dbTip (ht : IsTree s.mapBlockIndex root) (S : Storing P env s block)
    (hp : p.In s.mapBlockIndex) (hdb : s.DbTip p) : S.result.DbTip p :=
  ⟨S.addsIndex.txdb_hashBestChain.trans hdb.committed,
    by rw [S.addsIndex.pnext, hdb.pnext, S.walkFrom_eq ht hp]⟩

/-- Storing a block keeps the tip in memory. -/
theorem Storing.memoryTip (S : Storing P env s block) (hmem : s.MemoryTip p) :
    S.result.MemoryTip p :=
  ⟨S.addsIndex.pindexBest.trans hmem.pindexBest, S.addsIndex.hashBestChain.trans hmem.hashBestChain,
    S.addsIndex.nBestHeight.trans hmem.nBestHeight,
    S.addsIndex.bnBestChainWork.trans hmem.bnBestChainWork⟩

/-- **Storing a block keeps the tip consistent.** -/
theorem Storing.tipConsistent (h : s.Sound P root) (S : Storing P env s block)
    (htip : s.TipConsistent p) : S.result.TipConsistent p :=
  (S.dbTip h.tree htip.indexed htip.toDbTip).tipConsistent (S.isTree h.tree)
    (S.addsIndex.pindexGenesisBlock.trans h.genesis) (S.in_result htip.indexed)
    (S.memoryTip htip.toMemoryTip)

/-! ## Switching in a run -/

/-- In a node that has a genesis block, a switch leaves the tree, the files and the genesis block
alone. -/
theorem NodeState.Switches.frame (hgenesis : s.pindexGenesisBlock = some root)
    (h : s.Switches P env block p s') : s.Frame s' := by
  cases h with
  | genesis hfirst => simp [IsFirst, hgenesis] at hfirst
  | attach _ _ A => exact A.frame
  | reorganize _ _ pindexBest hbest R => exact R.frame.trans (NodeState.frame_connectSecondary _)

/-- A switch keeps the node sound, whether it succeeds or not. -/
theorem NodeState.Sound.setBestChain (env : Env) (block : CBlock) (p : CBlockIndex)
    (h : s.Sound P root) :
    (s.setBestChain P env block p).2.Sound P root := by
  rcases s.setBestChain_cases P env block p with ⟨s', hok, hswitch⟩ | ⟨r, s', herr, hsame⟩
  · have hframe := hswitch.frame h.genesis
    rw [hok]
    exact h.of_eq hframe.mapBlockIndex hframe.files hframe.pindexGenesisBlock
  · rw [herr]
    exact h.of_eq hsame.mapBlockIndex hsame.files hsame.pindexGenesisBlock

/-- What is postponed lies on the walk above the block to reorganise to. -/
theorem postpone_eq {n : ℕ} {l : List CBlockIndex} :
    ∃ c, p :: l = (postpone n p l).1 ++ (postpone n p l).2 :: c := by
  induction l generalizing p with
  | nil => exact ⟨[], rfl⟩
  | cons q l ih =>
    rw [postpone]
    split_ifs
    · obtain ⟨c, hc⟩ := ih (p := q)
      exact ⟨c, by simp only [List.cons_append, ← hc]⟩
    · exact ⟨q :: l, rfl⟩

/-- The block that is attached is on top of the tip. -/
theorem Attachment.pprev_eq_some (h : s.Sound P root) (htip : s.MemoryTip q)
    (hp : p.In s.mapBlockIndex) (hstores : s.Stores P p block)
    (hprev : block.hashPrevBlock = s.hashBestChain) (A : Attachment P env s block p) :
    p.pprev = some q.phashBlock := by
  cases hnone : p.pprev with
  | none =>
    have hvPrev := A.vPrev_eq
    have hwalk := h.tree.walkOf_root hp hnone
    rw [← NodeState.walkFrom_eq, NodeState.walkFrom, hvPrev] at hwalk
    simp at hwalk
  | some hash => rw [← hstores.hashPrev_eq hash hnone, hprev, htip.hashBestChain]

/-- **A switch to a block of the tree makes it the tip of the database exactly when it does not stop
early.** -/
theorem NodeState.Switches.dbTip (h : s.Sound P root) (htip : s.TipConsistent q)
    (hp : p.In s.mapBlockIndex) (hstores : s.Stores P p block)
    (hswitch : s.Switches P env block p s') :
    ∃ r : CBlockIndex, r.In s.mapBlockIndex ∧ s'.DbTip r ∧
      (s.stopsEarly P env block p = false ↔ r = p) := by
  cases hswitch with
  | genesis hfirst => simp [IsFirst, h.genesis] at hfirst
  | attach hfirst hprev A =>
    have hpprev := A.pprev_eq_some h htip.toMemoryTip hp hstores hprev
    refine ⟨p, hp, A.dbTip h.tree hp htip.indexed hpprev htip.toDbTip hstores.hash_eq, ?_⟩
    simp [stopsEarly, hprev]
  | reorganize hfirst hprev pindexBest hbest R =>
    obtain rfl : q = pindexBest := Option.some.inj (htip.pindexBest.symm.trans hbest)
    obtain ⟨c, hc⟩ := postpone_eq (n := q.bnChainWork) (p := p) (l := s.vPrev p)
    have hwalk : walkOf s.mapBlockIndex p =
        (s.postponed q p).1.reverse.reverse ++ (s.postponed q p).2 :: c := by
      rw [List.reverse_reverse]
      exact hc
    have hmem : (s.postponed q p).2.In s.mapBlockIndex :=
      h.tree.in_of_mem_walkOf hp _ (by rw [hwalk]; simp)
    have hdb := R.dbTip h.tree htip.indexed hbest htip.toDbTip hmem
    obtain ⟨r, hr, hrtip, hiff⟩ := hdb.connectSecondary P env h.tree hp
      R.frame.mapBlockIndex hwalk
    refine ⟨r, hr, hrtip, ?_⟩
    have hstops : s.stopsEarly P env block p =
        !(R.result.connectSecondary P env (s.postponed q p).1.reverse).1 := by
      rw [stopsEarly, if_neg (not_or.mpr ⟨hfirst, hprev⟩), hbest]
      simp only [R.reorganize_eq]
    rw [hstops, Bool.not_eq_false', hiff]

/-- The tip of the database after the tip in memory is moved. -/
theorem NodeState.DbTip.withTip (h : s.DbTip p) : (s.withTip P block q).DbTip p :=
  ⟨h.committed, h.pnext⟩

/-- **The tip is consistent after a successful switch exactly when it has not stopped early.** -/
theorem NodeState.TipConsistent.setBestChain_iff (h : s.Sound P root) (htip : s.TipConsistent q)
    (hp : p.In s.mapBlockIndex) (hstores : s.Stores P p block) {u : Unit}
    (hok : s.setBestChain P env block p = (.ok u, s')) :
    (∃ r : CBlockIndex, s'.TipConsistent r) ↔ s.stopsEarly P env block p = false := by
  rcases s.setBestChain_cases P env block p with ⟨s₁, hok', hswitch⟩ | ⟨r, s₁, herr, -⟩
  · rw [hok'] at hok
    obtain ⟨-, rfl⟩ := Prod.mk.inj hok
    have hframe := hswitch.frame h.genesis
    obtain ⟨r, hr, hdb, hiff⟩ := hswitch.dbTip h htip hp hstores
    have hmem : (s₁.withTip P block p).MemoryTip p := ⟨rfl, hstores.hash_eq, rfl, rfl⟩
    rw [hiff]
    constructor
    · rintro ⟨r', hr'⟩
      obtain rfl : p = r' := Option.some.inj (hmem.pindexBest.symm.trans hr'.pindexBest)
      have heq : r.phashBlock = p.phashBlock :=
        Option.some.inj (hdb.withTip.committed.symm.trans hr'.committed)
      exact hr.eq hp heq
    · rintro rfl
      refine ⟨r, hdb.withTip.tipConsistent (show IsTree _ root from ?_) ?_ ?_ hmem⟩
      · exact hframe.mapBlockIndex ▸ h.tree
      · exact hframe.pindexGenesisBlock.trans h.genesis
      · exact hframe.mapBlockIndex ▸ hr
  · rw [herr] at hok
    cases hok

/-! ## The genesis block -/

/-- What loading the genesis block has worked out. -/
structure Loading (P : Params) where
  wallets : List CWallet
  env : Env
  block : CBlock
  nFile : ℕ
  nBlockPos : ℕ
  files : BlockFiles
  hash_eq : block.getHash P = P.hashGenesisBlock
  pow : checkProofOfWork (block.getPoWHash P) block.nBits = .ok ()
  writesHash : env.io (.writeHashBestChain (block.getHash P)) = true
  writes : (NodeState.empty wallets).files.writeToDisk block = some (nFile, nBlockPos, files)

/-- The index of the genesis block, with nothing below it. -/
def Loading.pindexGenesis (L : Loading P) : CBlockIndex :=
  { CBlockIndex.ofBlock (L.block.getHash P) L.nFile L.nBlockPos L.block with
    bnChainWork := getBlockWork L.block.nBits }

/-- The state in which the index of the genesis block is the only one. -/
def Loading.indexed (L : Loading P) : NodeState :=
  NodeState.insertIndex P L.env { NodeState.empty L.wallets with files := L.files } L.pindexGenesis

/-- The state in which the genesis block is the tip. -/
def Loading.result (L : Loading P) : NodeState :=
  (L.indexed.withGenesis P L.env L.block L.pindexGenesis).withTip P L.block L.pindexGenesis

/-- **A node that has loaded the genesis block** has made it the tip. -/
theorem NodeState.Loaded.exists_loading (h : s.Loaded P) : ∃ L : Loading P, s = L.result := by
  obtain ⟨wallets, env, block, nFile, nBlockPos, s₁, hhash, hpow, hwritten, hwrite, hadd⟩ := h.loads
  unfold writeToDisk at hwrite
  rw [Option.ite_none_right_eq_some, Option.map_eq_some_iff] at hwrite
  obtain ⟨-, ⟨nFile', nBlockPos', files⟩, hfiles, hw⟩ := hwrite
  simp only [Prod.mk.injEq] at hw
  obtain ⟨rfl, rfl, rfl⟩ := hw
  let L : Loading P :=
    ⟨wallets, env, block, nFile', nBlockPos', files, hhash, hpow, hwritten, hfiles⟩
  have hroot : CBlockIndex.linked ∅ (block.getHash P) nFile' nBlockPos' block = L.pindexGenesis := by
    rw [CBlockIndex.linked, Finmap.lookup_empty]
    rfl
  have hwork : 0 < L.pindexGenesis.bnChainWork := by
    obtain ⟨⟨hpos, hlim⟩, -⟩ := checkProofOfWork_eq_ok.mp hpow
    exact getBlockWork_pos hpos hlim
  -- the result of the call is the result of `SetBestChain`
  have hset : L.indexed.setBestChain P env block L.pindexGenesis = (.ok (), s) := by
    unfold addToBlockIndex at hadd
    simp only [NodeState.empty, Finmap.notMem_empty, if_false, hroot] at hadd
    by_cases htxn : (env.io (.txnBeginIndex (block.getHash P)) &&
        env.io (.txnCommitIndex (block.getHash P))) = true
    · simp only [htxn, Bool.not_true, Bool.false_eq_true, if_false] at hadd
      rw [if_pos (show (NodeState.insertIndex P env _ L.pindexGenesis).bnBestChainWork < _ from hwork)]
        at hadd
      cases hout : L.indexed.setBestChain P env block L.pindexGenesis with
      | mk result s₂ =>
      rw [Loading.indexed] at hout
      simp only [NodeState.empty, L] at hout
      simp only [L] at hadd
      rw [hout] at hadd
      cases result with
      | error r => cases hadd
      | ok u => exact congrArg _ (Prod.mk.inj hadd).2
    · simp [htxn] at hadd
  have hfirst : L.indexed.IsFirst P block := ⟨rfl, hhash⟩
  rcases L.indexed.setBestChain_cases P env block L.pindexGenesis with
    ⟨s₂, hok, hswitch⟩ | ⟨r, s₂, herr, -⟩
  · rw [hset] at hok
    obtain ⟨-, rfl⟩ := Prod.mk.inj hok
    cases hswitch with
    | genesis _ hcommit => exact ⟨L, rfl⟩
    | attach hnot => exact absurd hfirst hnot
    | reorganize hnot => exact absurd hfirst hnot
  · rw [hset] at herr
    cases herr

theorem Loading.isTree (L : Loading P) : IsTree L.result.mapBlockIndex L.pindexGenesis :=
  isTree_singleton rfl rfl rfl

/-- The genesis block is stored where its index says. -/
theorem Loading.sound (L : Loading P) : L.result.Sound P L.pindexGenesis := by
  refine ⟨L.isTree, rfl, L.hash_eq, fun p hp => ⟨L.block, ?_⟩⟩
  replace hp : ((∅ : StdMap Uint256 CBlockIndex).insert L.pindexGenesis.phashBlock L.pindexGenesis).lookup
    p.phashBlock = some p := hp
  rw [lookup_insert_eq_ite, Finmap.lookup_empty, Option.ite_none_right_eq_some,
    Option.some.injEq] at hp
  obtain ⟨-, rfl⟩ := hp
  refine ⟨?_, rfl, fun hash hash_eq => ?_, rfl, rfl⟩
  · exact (BlockFiles.readBlock_of_writeToDisk L.writes).1 (by rw [L.pow]; rfl)
  · rw [L.isTree.root_pprev] at hash_eq
    cases hash_eq

theorem Loading.tipConsistent (L : Loading P) : L.result.TipConsistent L.pindexGenesis := by
  have hdb : L.result.DbTip L.pindexGenesis := by
    constructor
    · show (if L.env.io (.writeHashBestChain (L.block.getHash P)) = true then
        some (L.block.getHash P) else _) = _
      rw [if_pos L.writesHash]
      rfl
    · show (∅ : StdMap Uint256 Uint256) = links (walkOf L.result.mapBlockIndex L.pindexGenesis)
      rw [L.isTree.walkOf_root L.isTree.root_mem L.isTree.root_pprev]
      rfl
  exact hdb.tipConsistent L.isTree rfl L.isTree.root_mem ⟨rfl, rfl, rfl, rfl⟩

/-- **A node that has loaded the genesis block is sound, and its tip is consistent.** -/
theorem NodeState.Loaded.sound (h : s.Loaded P) : ∃ root, s.Sound P root ∧ s.TipConsistent root := by
  obtain ⟨L, hL⟩ := h.exists_loading
  rw [hL]
  exact ⟨L.pindexGenesis, L.sound, L.tipConsistent⟩

/-- The pool of a node that has loaded the genesis block is empty. -/
theorem NodeState.Loaded.mempool_eq (h : s.Loaded P) : s.mempool = .empty := by
  obtain ⟨L, hL⟩ := h.exists_loading
  rw [hL]
  rfl

/-! ## Every run -/

/-- The switch of an event stops early. -/
def NodeEvent.StopsEarly (P : Params) (s : NodeState) : NodeEvent → Prop
  | .switch env block pindexNew => s.stopsEarly P env block pindexNew = true
  | _ => False

/-- A node is in order: it is sound, and its tip is consistent. -/
def NodeState.InOrder (P : Params) (s : NodeState) : Prop :=
  ∃ root p, s.Sound P root ∧ s.TipConsistent p

/-- The block of a legal switch is stored where its index says. -/
theorem NodeState.Sound.stores (h : s.Sound P root) (hp : p.In s.mapBlockIndex)
    (hread : s.files.readBlock P p.nFile p.nBlockPos = some block) : s.Stores P p block := by
  obtain ⟨b, hb⟩ := h.stored p hp
  rw [hb.read, Option.some.injEq] at hread
  exact hread ▸ hb

/-- An event that does not stop early keeps the node in order. -/
theorem NodeState.InOrder.next {e : NodeEvent} (h : s.InOrder P) (hlegal : s.Legal P e)
    (hstops : ¬e.StopsEarly P s) : (s.next P e).InOrder P := by
  obtain ⟨root, q, hsound, htip⟩ := h
  cases e with
  | store env block =>
    obtain ⟨t, u, hcheck⟩ := hlegal
    rcases s.acceptBlock_cases P env block with ⟨hstore, -⟩ | ⟨S, hstore, -⟩
    · exact ⟨root, q, by rw [NodeState.next, hstore]; exact hsound,
        by rw [NodeState.next, hstore]; exact htip⟩
    · have hpow := CBlock.checkProofOfWork_of_checkBlock hcheck
      exact ⟨root, q, by rw [NodeState.next, hstore]; exact S.sound hsound hpow,
        by rw [NodeState.next, hstore]; exact S.tipConsistent hsound htip⟩
  | switch env block p =>
    obtain ⟨hp, hread⟩ := hlegal
    have hsound' := hsound.setBestChain env block p
    cases hout : s.setBestChain P env block p with
    | mk result s' =>
    rw [hout] at hsound'
    rw [NodeState.next, hout]
    cases result with
    | error r => exact ⟨root, q, hsound', htip.of_unchanged (s.unchanged_of_setBestChain_error hout)⟩
    | ok u =>
      have hno : s.stopsEarly P env block p = false := by simpa [NodeEvent.StopsEarly] using hstops
      obtain ⟨r, hr⟩ := (htip.setBestChain_iff hsound hp (hsound.stores hp hread) hout).mpr hno
      exact ⟨root, r, hsound', hr⟩
  | relay mempool wallets mapOrphanBlocks mapOrphanBlocksByPrev =>
    exact ⟨root, q, hsound.of_eq rfl rfl rfl, ⟨⟨htip.pindexBest, htip.hashBestChain,
      htip.nBestHeight, htip.bnBestChainWork⟩, ⟨htip.committed, htip.pnext⟩, htip.indexed,
      htip.genesis, htip.isInMainChain⟩⟩

/-- A run that never stops early leaves the node in order. -/
theorem inOrder_of_reaches (h : Reaches (nodeSystem P) (fun s e => ¬e.StopsEarly P s) s) :
    s.InOrder P :=
  h.invariant (fun s hs => by obtain ⟨root, h⟩ := NodeState.Loaded.sound hs; exact ⟨root, root, h⟩)
    fun s e hs hlegal hok => hs.next hlegal hok

/-- Every orphan has passed `CheckBlock` when it arrived. -/
def NodeState.OrphansChecked (P : Params) (s : NodeState) : Prop :=
  ∀ o ∈ s.mapOrphanBlocksByPrev, ∃ t u, o.2.checkBlock P t = .ok u

/-- A switch leaves the orphans alone. -/
theorem NodeState.orphans_setBestChain (P : Params) (env : Env) (s : NodeState) (block : CBlock)
    (p : CBlockIndex) :
    (s.setBestChain P env block p).2.mapOrphanBlocksByPrev = s.mapOrphanBlocksByPrev := by
  rcases s.setBestChain_cases P env block p with ⟨s', hok, hswitch⟩ | ⟨r, s', herr, hsame⟩
  · rw [hok]
    cases hswitch with
    | genesis => rfl
    | attach => rfl
    | reorganize _ _ pindexBest _ R =>
      exact (R.frame.trans (NodeState.frame_connectSecondary _)).mapOrphanBlocksByPrev
  · rw [herr]
    exact hsame.mapOrphanBlocksByPrev

/-- A legal event leads from a state the node can reach to another one. -/
theorem reachable_next (h : Reachable (nodeSystem P) s) (e : NodeEvent) (hlegal : s.Legal P e) :
    Reachable (nodeSystem P) (s.next P e) := Reaches.next h e hlegal trivial

/-- The pool changes with the event only if it switches the best chain. -/
def NodeEvent.LeavesPool (s : NodeState) : NodeEvent → Prop
  | .relay mempool _ _ _ => mempool = s.mempool
  | _ => True

/-- A property of states that every legal event keeps which leaves the pool alone. -/
def KeptByEvents (P : Params) (R : NodeState → Prop) : Prop :=
  ∀ s e, R s → s.Legal P e → e.LeavesPool s → R (s.next P e)

section Run

variable {R : NodeState → Prop} (hR : KeptByEvents P R)

include hR

/-- Accepting a checked block keeps what the events keep. -/
theorem KeptByEvents.acceptBlock (env : Env) (h : R s) {t : ℤ} {u : Unit}
    (hcheck : block.checkBlock P t = .ok u) :
    R (s.acceptBlock P env block).2 ∧
      (s.acceptBlock P env block).2.mapOrphanBlocksByPrev = s.mapOrphanBlocksByPrev := by
  have hstored : R (s.storeBlock P env block) :=
    hR s (.store env block) h ⟨t, u, hcheck⟩ trivial
  rcases s.acceptBlock_cases P env block with ⟨-, r, haccept⟩ | ⟨S, hstore, haccept⟩
  · rw [haccept]
    exact ⟨h, rfl⟩
  · have hpow := CBlock.checkProofOfWork_of_checkBlock hcheck
    have hread : S.result.files.readBlock P S.pindex.nFile S.pindex.nBlockPos = some block := by
      rw [S.files_eq]
      exact (BlockFiles.readBlock_of_writeToDisk S.writes).1 (by rw [hpow]; rfl)
    have hswitched : R (S.result.setBestChain P env block S.pindex).2 :=
      hR S.result (.switch env block S.pindex) (hstore ▸ hstored) ⟨S.pindex_in, hread⟩ trivial
    have horphans := (S.result.orphans_setBestChain P env block S.pindex).trans
      S.addsIndex.mapOrphanBlocksByPrev
    rcases haccept with ⟨r, haccept⟩ | ⟨-, haccept⟩ | ⟨r, haccept⟩
    · rw [haccept]
      exact ⟨hstore ▸ hstored, S.addsIndex.mapOrphanBlocksByPrev⟩
    · rw [haccept]
      exact ⟨hswitched, horphans⟩
    · rw [haccept]
      exact ⟨hswitched, horphans⟩

/-- The inner loop of `ProcessBlock` keeps what the events keep. -/
theorem KeptByEvents.foldl_acceptOrphan (env : Env) {vOrphans : List CBlock}
    (hashes : List Uint256) (h : R s) (hcheck : ∀ b ∈ vOrphans, ∃ t u, b.checkBlock P t = .ok u) :
    R (vOrphans.foldl (acceptOrphan P env) (s, hashes)).1 ∧
      (vOrphans.foldl (acceptOrphan P env) (s, hashes)).1.mapOrphanBlocksByPrev =
        s.mapOrphanBlocksByPrev := by
  induction vOrphans generalizing s hashes with
  | nil => exact ⟨h, rfl⟩
  | cons b vOrphans ih =>
    obtain ⟨⟨t, u, hb⟩, hrest⟩ := List.forall_mem_cons.mp hcheck
    obtain ⟨haccept, horphans⟩ := hR.acceptBlock env h hb
    have hrelay := hR _ (.relay (s.acceptBlock P env b).2.mempool
      (s.acceptBlock P env b).2.setpwalletRegistered
      ((s.acceptBlock P env b).2.mapOrphanBlocks.erase (b.getHash P))
      (s.acceptBlock P env b).2.mapOrphanBlocksByPrev) haccept trivial rfl
    obtain ⟨hreach, hsame⟩ := ih _ hrelay hrest
    exact ⟨hreach, hsame.trans horphans⟩

/-- The outer loop of `ProcessBlock` keeps what the events keep. -/
theorem KeptByEvents.acceptOrphans {nFuel : ℕ} {vWorkQueue : List Uint256} (h : R s)
    (hcheck : s.OrphansChecked P) :
    R (NodeState.acceptOrphans P env nFuel s vWorkQueue) ∧
      (NodeState.acceptOrphans P env nFuel s vWorkQueue).OrphansChecked P := by
  induction nFuel generalizing s vWorkQueue with
  | zero => exact ⟨h, hcheck⟩
  | succ nFuel ih =>
    cases vWorkQueue with
    | nil => exact ⟨h, hcheck⟩
    | cons hashPrev vWorkQueue =>
      have hmem : ∀ b ∈ s.orphansOf hashPrev, ∃ t u, b.checkBlock P t = .ok u := by
        intro b hb
        obtain ⟨o, ho, rfl⟩ := List.mem_map.mp hb
        exact hcheck o (List.mem_of_mem_filter ho)
      obtain ⟨hreach, hsame⟩ := hR.foldl_acceptOrphan env [] h hmem
      set s' := ((s.orphansOf hashPrev).foldl (acceptOrphan P env) (s, [])).1
      have hrelay := hR s' (.relay s'.mempool s'.setpwalletRegistered
        s'.mapOrphanBlocks (s'.mapOrphanBlocksByPrev.filter fun p => p.1 != hashPrev)) hreach
        trivial rfl
      refine ih hrelay fun o ho => hcheck o ?_
      rw [← hsame]
      exact List.mem_of_mem_filter ho

/-- **`ProcessBlock` keeps what the events keep.** -/
theorem KeptByEvents.processBlock (env : Env) (block : CBlock) (h : R s)
    (hcheck : s.OrphansChecked P) :
    R (s.processBlock P env block).2 ∧ (s.processBlock P env block).2.OrphansChecked P := by
  unfold NodeState.processBlock
  cases hpre : s.preliminaryChecks P env block with
  | error r => exact ⟨h, hcheck⟩
  | ok u =>
    have hblock : ∃ t u, block.checkBlock P t = .ok u := by
      simp only [NodeState.preliminaryChecks, bind_eq_ok, mapError_eq_ok] at hpre
      obtain ⟨-, -, -, -, u, hu, -⟩ := hpre
      exact ⟨_, u, hu⟩
    by_cases hprev : block.hashPrevBlock ∉ s.mapBlockIndex
    · simp only [if_pos hprev]
      refine ⟨hR s (.relay s.mempool s.setpwalletRegistered
        (s.mapOrphanBlocks.insert (block.getHash P) block)
        (s.mapOrphanBlocksByPrev ++ [(block.hashPrevBlock, block)])) h trivial rfl,
        fun o ho => ?_⟩
      rcases List.mem_append.mp ho with hold | hnew
      · exact hcheck o hold
      · rw [List.mem_singleton.mp hnew]
        exact hblock
    · simp only [if_neg hprev]
      obtain ⟨t, v, hblock⟩ := hblock
      obtain ⟨haccept, horphans⟩ := hR.acceptBlock env h hblock
      cases hout : s.acceptBlock P env block with
      | mk result s' =>
      rw [hout] at haccept horphans
      have hcheck' : s'.OrphansChecked P := by
        intro o ho
        rw [horphans] at ho
        exact hcheck o ho
      cases result with
      | error r => exact ⟨haccept, hcheck'⟩
      | ok u => exact hR.acceptOrphans haccept hcheck'

end Run

theorem keptByEvents_reachable : KeptByEvents P (Reachable (nodeSystem P)) :=
  fun _ e h hlegal _ => reachable_next h e hlegal

/-- **`ProcessBlock` is a run of the node.** -/
theorem reachable_processBlock (env : Env) (block : CBlock) (h : Reachable (nodeSystem P) s)
    (hcheck : s.OrphansChecked P) :
    Reachable (nodeSystem P) (s.processBlock P env block).2 ∧
      (s.processBlock P env block).2.OrphansChecked P :=
  keptByEvents_reachable.processBlock env block h hcheck

/-! ## A worked example -/

/-- Load a genesis block into an empty node. -/
def loadGenesis (P : Params) (env : Env) (wallets : List CWallet) (block : CBlock) :
    Option NodeState :=
  ((NodeState.empty wallets).writeToDisk P env block).bind fun w =>
    match w.2.2.addToBlockIndex P env block w.1 w.2.1 with
    | (.error _, _) => none
    | (.ok _, s) => some s

/-- A genesis block. -/
def exampleGenesis : CBlock :=
  exampleBlock exampleParams.hashGenesisBlock 0 1400000000 [exampleCoinbase 1 [50]]

/-- An environment in which everything succeeds. -/
def exampleEnv : Env := ⟨Io.reliable, 1400009000⟩

/-- The node that has loaded the genesis block. -/
def genesisNode (wallets : List CWallet) : NodeState :=
  (loadGenesis exampleParams exampleEnv wallets exampleGenesis).getD (.empty [])

/-- A genesis block that can be loaded starts the node. -/
theorem loaded_genesisNode {wallets : List CWallet}
    (h : (loadGenesis exampleParams exampleEnv wallets exampleGenesis).isSome = true) :
    (genesisNode wallets).Loaded exampleParams := by
  obtain ⟨s, hs⟩ := Option.isSome_iff_exists.mp h
  rw [genesisNode, hs, Option.getD_some]
  obtain ⟨⟨nFile, nBlockPos, s₁⟩, hwrite, hadd⟩ := Option.bind_eq_some_iff.mp hs
  refine ⟨wallets, exampleEnv, exampleGenesis, nFile, nBlockPos, s₁, by decide +kernel, ?_, rfl,
    hwrite, ?_⟩
  · exact checkProofOfWork_eq_ok.mpr (by decide +kernel)
  · simp only at hadd
    cases hout : s₁.addToBlockIndex exampleParams exampleEnv exampleGenesis nFile nBlockPos with
    | mk result s₂ =>
    rw [hout] at hadd
    cases result with
    | error r => cases hadd
    | ok u => rw [Option.some.inj hadd]

/-- The node after it has processed a list of blocks. -/
def NodeState.processBlocks (s : NodeState) (blocks : List (Env × CBlock)) : NodeState :=
  blocks.foldl (fun s b => (s.processBlock exampleParams b.1 b.2).2) s

/-- Processing blocks keeps what the events keep. -/
theorem KeptByEvents.processBlocks {R : NodeState → Prop} (hR : KeptByEvents exampleParams R)
    {blocks : List (Env × CBlock)} (h : R s) (hcheck : s.OrphansChecked exampleParams) :
    R (s.processBlocks blocks) ∧ (s.processBlocks blocks).OrphansChecked exampleParams := by
  induction blocks generalizing s with
  | nil => exact ⟨h, hcheck⟩
  | cons b blocks ih =>
    obtain ⟨hreach, hcheck'⟩ := hR.processBlock b.1 b.2 h hcheck
    exact ih hreach hcheck'

/-- Processing blocks is a run of the node. -/
theorem reachable_processBlocks {blocks : List (Env × CBlock)}
    (h : Reachable (nodeSystem exampleParams) s) (hcheck : s.OrphansChecked exampleParams) :
    Reachable (nodeSystem exampleParams) (s.processBlocks blocks) :=
  (keptByEvents_reachable.processBlocks h hcheck).1

/-- The node of the example has no orphans. -/
theorem orphansChecked_genesisNode : (genesisNode []).OrphansChecked exampleParams := by
  rw [NodeState.OrphansChecked, show (genesisNode []).mapOrphanBlocksByPrev = [] by decide +kernel]
  simp

/-- The first block of a branch. -/
def blockA1 : CBlock :=
  exampleBlock 11 exampleParams.hashGenesisBlock 1400000300 [exampleCoinbase 2 [50]]

/-- The first block of another branch. -/
def blockB1 : CBlock :=
  exampleBlock 21 exampleParams.hashGenesisBlock 1400000310 [exampleCoinbase 3 [50]]

/-- The second block of the other branch. -/
def blockB2 : CBlock := exampleBlock 22 21 1400000600 [exampleCoinbase 4 [50]]

/-- A third block of the other branch, whose coinbase pays the given amount. -/
def blockB3 (nValue : ℤ) : CBlock := exampleBlock 23 22 1400000900 [exampleCoinbase 5 [nValue]]

/-- An environment in which the transaction for the second block of the other branch cannot be
begun. -/
def faultyEnv : Env := ⟨fun op => decide (op ≠ .txnBegin 22), 1400009000⟩

/-- A node with its tip on the first branch that knows two blocks of the other one. -/
def branchNode : NodeState :=
  (genesisNode []).processBlocks
    [(exampleEnv, blockA1), (exampleEnv, blockB1), (faultyEnv, blockB2)]

/-- The node with a third block stored. -/
def forkNode (nValue : ℤ) : NodeState :=
  branchNode.storeBlock exampleParams exampleEnv (blockB3 nValue)

/-- The index of the third block. -/
def indexB3 (nValue : ℤ) : CBlockIndex :=
  ((forkNode nValue).mapBlockIndex.lookup 23).getD (CBlockIndex.ofBlock 23 0 0 (blockB3 nValue))

/-- The node of the example is reached. -/
theorem reachable_forkNode {nValue : ℤ}
    (hcheck : ((blockB3 nValue).checkBlock exampleParams 1400009000).isOk = true) :
    Reachable (nodeSystem exampleParams) (forkNode nValue) := by
  have hgenesis : (genesisNode []).Loaded exampleParams := loaded_genesisNode (by decide +kernel)
  obtain ⟨u, hu⟩ := exists_of_isOk hcheck
  exact reachable_next (reachable_processBlocks (.start hgenesis) orphansChecked_genesisNode)
    (.store exampleEnv (blockB3 nValue)) ⟨_, u, hu⟩

/-- Storing a checked block meets the condition of a run that never stops early. -/
theorem reaches_store (h : Reaches (nodeSystem exampleParams)
      (fun s e => ¬e.StopsEarly exampleParams s) s)
    (hcheck : (block.checkBlock exampleParams 1400009000).isOk = true) :
    Reaches (nodeSystem exampleParams) (fun s e => ¬e.StopsEarly exampleParams s)
      (s.storeBlock exampleParams exampleEnv block) := by
  obtain ⟨u, hu⟩ := exists_of_isOk hcheck
  exact h.next (.store exampleEnv block) ⟨_, u, hu⟩ not_false

/-- The index under a hash. -/
def NodeState.indexOf (s : NodeState) (hash : Uint256) : CBlockIndex :=
  (s.mapBlockIndex.lookup hash).getD (CBlockIndex.ofBlock hash 0 0 exampleGenesis)

/-- The node that has stored the first block of a branch. -/
def storedA1 : NodeState := (genesisNode []).storeBlock exampleParams exampleEnv blockA1

/-- The node that has switched to it. -/
def switchedA1 : NodeState :=
  storedA1.next exampleParams (.switch exampleEnv blockA1 (storedA1.indexOf 11))

/-- The node on the first branch that has stored three blocks of the other branch. -/
def storedNode : NodeState :=
  ((switchedA1.storeBlock exampleParams exampleEnv blockB1).storeBlock exampleParams exampleEnv
    blockB2).storeBlock exampleParams exampleEnv (blockB3 50)

/-- The node with the stored branch is reached without stopping early. -/
theorem reaches_storedNode : Reaches (nodeSystem exampleParams)
    (fun s e => ¬e.StopsEarly exampleParams s) storedNode := by
  have hgenesis : (genesisNode []).Loaded exampleParams := loaded_genesisNode (by decide +kernel)
  have hA1 : Reaches (nodeSystem exampleParams) (fun s e => ¬e.StopsEarly exampleParams s)
      storedA1 := reaches_store (.start hgenesis) (by decide +kernel)
  have htip : Reaches (nodeSystem exampleParams) (fun s e => ¬e.StopsEarly exampleParams s)
      switchedA1 :=
    hA1.next (.switch exampleEnv blockA1 (storedA1.indexOf 11))
      ⟨by decide +kernel, by decide +kernel⟩ (Bool.eq_false_iff.mp (by decide +kernel))
  exact reaches_store (reaches_store (reaches_store htip (by decide +kernel)) (by decide +kernel))
    (by decide +kernel)

/-- A reorganisation that cannot read a block of the new branch changes nothing. -/
theorem unchanged_storedNode : ∃ r s', storedNode.setBestChain exampleParams
    ⟨fun op => decide (op ≠ .readFromDisk 22), 1400009000⟩ (blockB3 50) (storedNode.indexOf 23) =
      (.error r, s') ∧ storedNode.Unchanged s' := by
  have herr : (storedNode.setBestChain exampleParams
      ⟨fun op => decide (op ≠ .readFromDisk 22), 1400009000⟩ (blockB3 50)
      (storedNode.indexOf 23)).1.isOk = false := by decide +kernel
  cases hout : storedNode.setBestChain exampleParams
    ⟨fun op => decide (op ≠ .readFromDisk 22), 1400009000⟩ (blockB3 50)
    (storedNode.indexOf 23) with
  | mk result s' =>
  rw [hout] at herr
  cases result with
  | ok u => cases herr
  | error r => exact ⟨r, s', rfl, storedNode.unchanged_of_setBestChain_error hout⟩

end FoxCoin
