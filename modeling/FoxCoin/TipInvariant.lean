import FoxCoin.SwitchSpec
import FoxCoin.BlockTree

/-! # The tip in memory and the tip of the database

`SetBestChain` moves the tip in memory to the block it was called for. The committed database
follows it unless a postponed block fails to connect after a reorganisation: then the loop stops
early, and the two part. -/

namespace FoxCoin

open Checked Overlay

variable {P : Params} {env : Env} {s s' : NodeState} {block : CBlock} {pindexNew root p q : CBlockIndex}

/-! ## Definitions -/

/-- The committed database has `pindex` as its best chain, and the links `pnext` describe the path
to it. -/
structure NodeState.DbTip (s : NodeState) (pindex : CBlockIndex) : Prop where
  committed : s.txdb.hashBestChain = some pindex.phashBlock
  pnext : s.pnext = links (s.walkFrom pindex)

/-- The tip in memory is `pindex`. -/
structure NodeState.MemoryTip (s : NodeState) (pindex : CBlockIndex) : Prop where
  pindexBest : s.pindexBest = some pindex
  hashBestChain : s.hashBestChain = pindex.phashBlock
  nBestHeight : s.nBestHeight = pindex.nHeight
  bnBestChainWork : s.bnBestChainWork = pindex.bnChainWork

/-- **The tip is consistent**: the tip in memory is the tip of the committed database, and `pnext`
and `IsInMainChain` describe exactly the path from the genesis block to it. -/
structure NodeState.TipConsistent (s : NodeState) (pindex : CBlockIndex) : Prop
    extends s.MemoryTip pindex, s.DbTip pindex where
  indexed : pindex.In s.mapBlockIndex
  genesis : s.bestWalk.getLast? = s.pindexGenesisBlock
  isInMainChain : ∀ q : CBlockIndex, q.In s.mapBlockIndex →
    (s.isInMainChain q = true ↔ q ∈ s.bestWalk)

/-- The postponed loop of `SetBestChain` stops early: the reorganisation succeeds and a later block
cannot be read, or its transaction cannot be begun, or `SetBestChainInner` fails on it. -/
def NodeState.stopsEarly (P : Params) (env : Env) (s : NodeState) (block : CBlock)
    (pindexNew : CBlockIndex) : Bool :=
  if s.IsFirst P block ∨ block.hashPrevBlock = s.hashBestChain then false
  else
    match s.pindexBest with
    | none => false
    | some pindexBest =>
      match s.reorganize P env (s.postponed pindexBest pindexNew).2 with
      | (.error _, _) => false
      | (.ok _, s') =>
        !(s'.connectSecondary P env (s.postponed pindexBest pindexNew).1.reverse).1

/-- A block is stored where its index says, and the index was made from it. -/
structure NodeState.Stores (P : Params) (s : NodeState) (pindex : CBlockIndex) (block : CBlock) :
    Prop where
  read : s.files.readBlock P pindex.nFile pindex.nBlockPos = some block
  hash_eq : block.getHash P = pindex.phashBlock
  hashPrev_eq : ∀ hash, pindex.pprev = some hash → block.hashPrevBlock = hash
  nTime_eq : pindex.nTime = block.nTime
  nBits_eq : pindex.nBits = block.nBits

/-! ## The path to the tip -/

/-- On a tree, the blocks that `IsInMainChain` accepts are those of the path. -/
theorem IsTree.isInMainChain_iff (ht : IsTree s.mapBlockIndex root) (hp : p.In s.mapBlockIndex)
    (hbest : s.pindexBest = some p) (hpnext : s.pnext = links (s.walkFrom p))
    (hq : q.In s.mapBlockIndex) : s.isInMainChain q = true ↔ q ∈ s.bestWalk := by
  have hwalk : s.bestWalk = p :: s.vPrev p := by rw [NodeState.bestWalk, hbest]; rfl
  have hmem : q.phashBlock ∈ s.pnext ↔ q ∈ s.vPrev p := by
    rw [hpnext, NodeState.walkFrom, mem_links]
    constructor
    · rintro ⟨r, hr, heq⟩
      have hrIn := ht.in_of_mem_walkOf hp r (List.mem_cons_of_mem _ hr)
      rwa [← hrIn.eq hq heq]
    · exact fun h => ⟨q, h, rfl⟩
  rw [NodeState.isInMainChain, Bool.or_eq_true, decide_eq_true_iff, decide_eq_true_iff, hmem, hbest,
    hwalk, List.mem_cons, Option.some.injEq, eq_comm, or_comm]

/-- A tip in memory that is the tip of the database is consistent. -/
theorem NodeState.DbTip.tipConsistent (ht : IsTree s.mapBlockIndex root)
    (hgenesis : s.pindexGenesisBlock = some root) (hp : p.In s.mapBlockIndex) (hdb : s.DbTip p)
    (hmem : s.MemoryTip p) : s.TipConsistent p := by
  refine ⟨hmem, hdb, hp, ?_, fun _ hq => ht.isInMainChain_iff hp hmem.pindexBest hdb.pnext hq⟩
  rw [bestWalk, hmem.pindexBest, hgenesis]
  exact ht.getLast?_walkOf hp

/-- What leaves the chain alone keeps the tip consistent. -/
theorem NodeState.TipConsistent.of_unchanged (h : s.TipConsistent p) (hsame : s.Unchanged s') :
    s'.TipConsistent p := by
  have hwalk : ∀ r, s'.walkFrom r = s.walkFrom r := by
    intro r
    rw [walkFrom_eq, walkFrom_eq, hsame.mapBlockIndex]
  have hbest : s'.bestWalk = s.bestWalk := by
    rw [bestWalk, bestWalk, hsame.pindexBest]
    exact congrArg _ (funext hwalk)
  constructor
  · exact ⟨hsame.pindexBest.trans h.pindexBest, hsame.hashBestChain.trans h.hashBestChain,
      hsame.nBestHeight.trans h.nBestHeight, hsame.bnBestChainWork.trans h.bnBestChainWork⟩
  · exact ⟨hsame.txdb_hashBestChain.trans h.committed, by rw [hsame.pnext, h.pnext, hwalk]⟩
  · rw [hsame.mapBlockIndex]
    exact h.indexed
  · rw [hbest, hsame.pindexGenesisBlock]
    exact h.genesis
  · intro r hr
    rw [hsame.mapBlockIndex] at hr
    rw [NodeState.isInMainChain, hsame.pnext, hsame.pindexBest, hbest]
    exact h.isInMainChain r hr

/-- The tip of the database after a failed step is the tip before it. -/
theorem NodeState.DbTip.of_unchanged (h : s.DbTip p) (hsame : s.Unchanged s') : s'.DbTip p :=
  ⟨hsame.txdb_hashBestChain.trans h.committed,
    by rw [hsame.pnext, h.pnext, walkFrom_eq, walkFrom_eq, hsame.mapBlockIndex]⟩

/-! ## Moving the tip of the database -/

/-- Attaching a block on top of the tip of the database makes it the tip. -/
theorem Attachment.dbTip (ht : IsTree s.mapBlockIndex root) (hp : p.In s.mapBlockIndex)
    (hq : q.In s.mapBlockIndex) (hprev : p.pprev = some q.phashBlock) (hdb : s.DbTip q)
    (hhash : block.getHash P = p.phashBlock) (A : Attachment P env s block p) :
    A.result.DbTip p := by
  have hwalk : s.walkFrom p = p :: s.walkFrom q := ht.walkOf_prev hp hq hprev
  obtain ⟨rfl, -⟩ : A.pprev = q ∧ A.vPrev = s.vPrev q := by
    have h := A.vPrev_eq
    rw [NodeState.walkFrom, NodeState.walkFrom, List.cons.injEq] at hwalk
    rw [hwalk.2] at h
    exact ⟨(List.cons.inj h).1.symm, (List.cons.inj h).2.symm⟩
  constructor
  · exact congrArg some hhash
  · show s.pnext.insert A.pprev.phashBlock p.phashBlock = links (s.walkFrom p)
    rw [hwalk, hdb.pnext]
    rfl

/-- The branches of a reorganisation on a tree: the blocks above the fork on both sides. -/
theorem IsTree.branches (ht : IsTree s.mapBlockIndex root) (hp : p.In s.mapBlockIndex)
    (hbest : s.pindexBest = some p) (hq : q.In s.mapBlockIndex) :
    ∃ pfork a b c,
      s.branches q = .ok (indexWalks a (pfork :: c), (indexWalks b (pfork :: c)).reverse) ∧
      s.walkFrom p = a ++ pfork :: c ∧ s.walkFrom q = b ++ pfork :: c ∧
      ∀ r ∈ a, r ∉ s.walkFrom q := by
  obtain ⟨pfork, a, b, c, hfind, ha, hb, hoff⟩ := ht.findFork hp hq
  have hbestWalk : s.bestWalk = walkOf s.mapBlockIndex p := by
    rw [NodeState.bestWalk, hbest]
    rfl
  have hnot : ∀ {l : List CBlockIndex} {r : CBlockIndex}, r.In s.mapBlockIndex →
      walkOf s.mapBlockIndex r = l ++ pfork :: c → pfork ∉ l := by
    intro l r hr hl hmem
    have hdist := ht.hashes hr
    rw [hl, List.pairwise_append] at hdist
    exact hdist.2.2 pfork hmem pfork List.mem_cons_self rfl
  refine ⟨pfork, a, b, c, ?_, ha, hb, hoff⟩
  rw [NodeState.branches, hbestWalk, NodeState.walkFrom_eq, hfind, ha, hb]
  show Except.ok _ = _
  rw [aboveFork_append (hnot hp ha), aboveFork_append (hnot hq hb)]

/-- A reorganisation makes its block the tip of the database. -/
theorem Reorganization.dbTip (ht : IsTree s.mapBlockIndex root) (hp : p.In s.mapBlockIndex)
    (hbest : s.pindexBest = some p) (hdb : s.DbTip p) (hq : q.In s.mapBlockIndex)
    (R : Reorganization P env s q) : R.result.DbTip q := by
  obtain ⟨pfork, a, b, c, hbranches, ha, hb, -⟩ := ht.branches hp hbest hq
  have hR := R.branches_eq
  rw [hbranches, Except.ok.injEq, Prod.mk.injEq] at hR
  constructor
  · rfl
  · show relink s.pnext R.vDisconnect R.vConnect = links (s.walkFrom q)
    have hdist := ht.hashes hp
    rw [← NodeState.walkFrom_eq, ha] at hdist
    rw [← hR.1, ← hR.2, hdb.pnext, relink, ha, foldl_erase_links hdist, foldl_insert_links, hb]

/-- Neighbours in a walk are linked. -/
theorem IsTree.pprev_of_split {m : StdMap Uint256 CBlockIndex} (ht : IsTree m root) (hp : p.In m)
    {r : CBlockIndex} {a c : List CBlockIndex} (hsplit : walkOf m p = a ++ r :: q :: c) :
    r.pprev = some q.phashBlock := by
  have hr : r.In m := ht.in_of_mem_walkOf hp r (by rw [hsplit]; simp)
  have hwalk := ht.walkOf_of_split hp hsplit
  cases hprev : r.pprev with
  | none =>
    rw [ht.walkOf_root hr hprev] at hwalk
    simp at hwalk
  | some hash =>
    obtain ⟨q', hq', rfl, -, -⟩ := ht.prev hr hprev
    rw [ht.walkOf_prev hr hq' hprev, List.cons.injEq, walkOf, List.cons.injEq] at hwalk
    rw [hwalk.2.1]

/-- Only the first block of a walk is where it starts. -/
theorem IsTree.ne_of_split {m : StdMap Uint256 CBlockIndex} (ht : IsTree m root) (hp : p.In m)
    {r : CBlockIndex} {a c : List CBlockIndex} (hsplit : walkOf m p = a ++ r :: q :: c) :
    q ≠ p := by
  rintro rfl
  have hsplit' : walkOf m q = (a ++ [r]) ++ q :: c := by rw [hsplit, List.append_assoc]; rfl
  have hlen := congrArg List.length (ht.walkOf_of_split hp hsplit')
  rw [hsplit] at hlen
  simp at hlen
  omega

/-- **Connecting postponed blocks.** The tip of the database is then the last of them, or an earlier
one when the loop stops early. -/
theorem NodeState.DbTip.connectSecondary (P : Params) (env : Env) {m : StdMap Uint256 CBlockIndex} (ht : IsTree m root)
    (hp : p.In m) {l c : List CBlockIndex} {s : NodeState} (hmap : s.mapBlockIndex = m)
    (hwalk : walkOf m p = l.reverse ++ q :: c) (hdb : s.DbTip q) :
    ∃ r : CBlockIndex, r.In m ∧ (s.connectSecondary P env l).2.DbTip r ∧
      ((s.connectSecondary P env l).1 = true ↔ r = p) := by
  induction l generalizing s q c with
  | nil =>
    obtain rfl : p = q := (List.cons.inj hwalk).1
    exact ⟨p, hp, hdb, by simp [NodeState.connectSecondary]⟩
  | cons pindex l ih =>
    have hsplit : walkOf m p = l.reverse ++ pindex :: q :: c := by
      rw [hwalk, List.reverse_cons, List.append_assoc]
      rfl
    have hq : q.In m := ht.in_of_mem_walkOf hp q (by rw [hsplit]; simp)
    have hpindex : pindex.In m := ht.in_of_mem_walkOf hp pindex (by rw [hsplit]; simp)
    have hne : q ≠ p := ht.ne_of_split hp hsplit
    have hprev : pindex.pprev = some q.phashBlock := ht.pprev_of_split hp hsplit
    have hstop : ∃ r : CBlockIndex, r.In m ∧ s.DbTip r ∧ (false = true ↔ r = p) :=
      ⟨q, hq, hdb, by simpa using hne⟩
    rw [NodeState.connectSecondary]
    cases hread : s.files.readFromDisk P env.io pindex with
    | none => exact hstop
    | some block =>
      simp only
      by_cases hbegin : env.io (.txnBegin2 pindex.phashBlock) = true
      · simp only [hbegin, Bool.not_true, Bool.false_eq_true, if_false]
        rcases s.setBestChainInner_cases P env block pindex with ⟨A, h⟩ | ⟨r, s', h, hsame⟩
        · rw [h]
          have hhash : block.getHash P = pindex.phashBlock := by
            unfold BlockFiles.readFromDisk at hread
            rw [Option.ite_none_right_eq_some, Option.filter_eq_some_iff] at hread
            exact of_decide_eq_true hread.2.2
          subst hmap
          exact ih (s := A.result) A.frame.mapBlockIndex hsplit
            (A.dbTip ht hpindex hq hprev hdb hhash)
        · rw [h]
          exact ⟨q, hq, hdb.of_unchanged hsame, by simpa using hne⟩
      · simp only [hbegin, Bool.not_false, if_true]
        exact hstop

end FoxCoin
