import FoxCoin.SpentMarks
import FoxCoin.NodeRuns

/-! # The marks of the main chain

In a run the transaction index has the marks of the main chain, as long as the tips do not part and
nothing on a branch is created again after it was spent. So the main chain can always be
disconnected, down to any of its blocks. -/

namespace FoxCoin

open Checked Overlay Runs

variable {P : Params} {env : Env} {io : Io} {files : BlockFiles} {s s' : NodeState}
  {block : CBlock} {root p q pfork : CBlockIndex} {db db' : CTxDB}

/-! ## The transactions of a walk -/

/-- The transactions of the block at an index. -/
def BlockFiles.vtx (P : Params) (files : BlockFiles) (pindex : CBlockIndex) : List CTransaction :=
  ((files.readBlock P pindex.nFile pindex.nBlockPos).map CBlock.vtx).getD []

/-- The transactions of the blocks of a walk after its last one, the genesis block, in chain
order. -/
def BlockFiles.walkTxs (P : Params) (files : BlockFiles) : List CBlockIndex → List CTransaction
  | [] => []
  | [_] => []
  | pindex :: pprev :: vPrev => files.walkTxs P (pprev :: vPrev) ++ files.vtx P pindex

/-- The transactions of the branch of an index. -/
def NodeState.branchTxs (P : Params) (s : NodeState) (pindex : CBlockIndex) : List CTransaction :=
  s.files.walkTxs P (s.walkFrom pindex)

/-- The index has the marks of the branch of an index. -/
def NodeState.BranchMarked (P : Params) (s : NodeState) (pindex : CBlockIndex) : Prop :=
  SpentIn P s.txdb.mapTxIndex (s.branchTxs P pindex)

theorem BlockFiles.vtx_of_readBlock (h : files.readBlock P p.nFile p.nBlockPos = some block) :
    files.vtx P p = block.vtx := by
  rw [vtx, h]
  rfl

theorem BlockFiles.readBlock_of_readFromDisk (h : files.readFromDisk P io p = some block) :
    files.readBlock P p.nFile p.nBlockPos = some block := by
  rw [readFromDisk, Option.ite_none_right_eq_some, Option.filter_eq_some_iff] at h
  exact h.2.1

theorem BlockFiles.nFile_ne_of_readBlock
    (h : files.readBlock P p.nFile p.nBlockPos = some block) : p.nFile ≠ uintMax :=
  BlockFiles.file_ne_null (BlockFiles.block?_of_readBlock h)

/-- A block more on a walk. -/
theorem BlockFiles.walkTxs_cons {walk : List CBlockIndex} (hne : walk ≠ []) :
    files.walkTxs P (p :: walk) = files.walkTxs P walk ++ files.vtx P p := by
  obtain ⟨q, walk, rfl⟩ := List.exists_cons_of_ne_nil hne
  rfl

/-- The transactions of a walk above a block of it. -/
theorem BlockFiles.walkTxs_append (a c : List CBlockIndex) :
    files.walkTxs P (a ++ pfork :: c) =
      files.walkTxs P (pfork :: c) ++ a.reverse.flatMap (files.vtx P) := by
  induction a with
  | nil => simp
  | cons p a ih =>
    rw [List.cons_append, walkTxs_cons (by simp), ih, List.reverse_cons, List.flatMap_append,
      List.flatMap_singleton, List.append_assoc]

/-! ## Disconnecting -/

/-- The disk and the database do what is asked for the blocks to disconnect. -/
def Io.Serves (io : Io) (vDisconnect : List IndexWalk) : Prop :=
  ∀ w ∈ vDisconnect, io (.readFromDisk w.1.phashBlock) = true ∧ io.WritesIndex w.1 w.2

/-- What a round of the disconnect loop does when it succeeds. -/
theorem disconnectStep_eq_ok {st st' : CTxDB × List CTransaction} {w : IndexWalk} :
    disconnectStep P io files st w = .ok st' ↔
      ∃ block txdb, files.readFromDisk P io w.1 = some block ∧
        block.disconnectBlock P io st.1 w.1 w.2 = .ok txdb ∧
          st' = (txdb, st.2 ++ block.vtx.filter fun tx => !tx.isCoinBase) := by
  rw [disconnectStep]
  cases files.readFromDisk P io w.1 with
  | none => simp
  | some block =>
    simp only [bind_eq_ok, mapError_eq_ok, pure_eq_ok, Option.some.injEq, exists_and_left,
      exists_eq_left']
    constructor
    · rintro ⟨txdb, h, rfl⟩
      exact ⟨txdb, h, rfl⟩
    · rintro ⟨txdb, h, rfl⟩
      exact ⟨txdb, h, rfl⟩

/-- **The disconnect loop** leaves the marks of the chain below, and resurrects what it takes away
except for the coinbases. -/
theorem SpentIn.foldlM_disconnectStep {a c : List CBlockIndex} {st st' : CTxDB × List CTransaction}
    (h : SpentIn P st.1.mapTxIndex (files.walkTxs P (a ++ pfork :: c)))
    (hdisconnects : (indexWalks a (pfork :: c)).foldlM (disconnectStep P io files) st = .ok st') :
    SpentIn P st'.1.mapTxIndex (files.walkTxs P (pfork :: c)) ∧
      st'.2 = st.2 ++ a.flatMap fun p => (files.vtx P p).filter fun tx => !tx.isCoinBase := by
  induction a generalizing st with
  | nil =>
    cases hdisconnects
    exact ⟨h, by simp⟩
  | cons p a ih =>
    obtain ⟨st₁, hstep, hrest⟩ := foldlM_cons_eq_ok.mp hdisconnects
    obtain ⟨block, txdb, hread, hdisconnect, rfl⟩ := disconnectStep_eq_ok.mp hstep
    have hvtx := BlockFiles.vtx_of_readBlock (BlockFiles.readBlock_of_readFromDisk hread)
    rw [List.cons_append, BlockFiles.walkTxs_cons (by simp), hvtx] at h
    obtain ⟨hmarks, hresurrect⟩ := ih (h.of_disconnectBlock hdisconnect) hrest
    refine ⟨hmarks, ?_⟩
    rw [hresurrect, List.flatMap_cons, hvtx, List.append_assoc]

/-- **The disconnect loop succeeds** where the marks are. -/
theorem SpentIn.exists_disconnectStep {a c : List CBlockIndex} {st : CTxDB × List CTransaction}
    (h : SpentIn P st.1.mapTxIndex (files.walkTxs P (a ++ pfork :: c)))
    (hio : io.Serves (indexWalks a (pfork :: c)))
    (hstored : ∀ p ∈ a, ∃ block, files.readBlock P p.nFile p.nBlockPos = some block ∧
      block.getHash P = p.phashBlock) :
    ∃ st', (indexWalks a (pfork :: c)).foldlM (disconnectStep P io files) st = .ok st' := by
  induction a generalizing st with
  | nil => exact ⟨st, rfl⟩
  | cons p a ih =>
    obtain ⟨block, hblock, hhash⟩ := hstored p List.mem_cons_self
    obtain ⟨hreads, hwrites⟩ := hio (p, a ++ pfork :: c) List.mem_cons_self
    have hread : files.readFromDisk P io p = some block := by
      rw [BlockFiles.readFromDisk, if_pos hreads, hblock, Option.filter_some,
        if_pos (decide_eq_true hhash)]
    have hvtx := BlockFiles.vtx_of_readBlock hblock
    rw [List.cons_append, BlockFiles.walkTxs_cons (by simp), hvtx] at h
    obtain ⟨txdb, hdisconnect, hmarks⟩ := h.disconnectBlock hwrites
    have hstep := disconnectStep_eq_ok.mpr ⟨block, txdb, hread, hdisconnect, rfl⟩
    obtain ⟨st', hst'⟩ := @ih (txdb, _) hmarks (fun w hw => hio w (List.mem_cons_of_mem _ hw))
      fun p' hp' => hstored p' (List.mem_cons_of_mem p hp')
    exact ⟨st', foldlM_cons_eq_ok.mpr ⟨_, hstep, hst'⟩⟩

/-! ## Connecting -/

/-- A list of indexes with walks that starts on top of a walk, goes up block by block, and leads to
another walk. -/
def Climbs : List CBlockIndex → List IndexWalk → List CBlockIndex → Prop
  | walk, [], top => top = walk
  | walk, w :: ws, top => w.2 = walk ∧ Climbs (w.1 :: walk) ws top

theorem climbs_append {walk middle top : List CBlockIndex} {ws ws' : List IndexWalk}
    (h : Climbs walk ws middle) (h' : Climbs middle ws' top) : Climbs walk (ws ++ ws') top := by
  induction ws generalizing walk with
  | nil =>
    cases h
    exact h'
  | cons w ws ih => exact ⟨h.1, ih h.2⟩

/-- The blocks to connect climb from the fork. -/
theorem climbs_indexWalks (b : List CBlockIndex) (walk : List CBlockIndex) :
    Climbs walk (indexWalks b walk).reverse (b ++ walk) := by
  induction b with
  | nil => rfl
  | cons p b ih =>
    rw [indexWalks, List.reverse_cons]
    exact climbs_append ih ⟨rfl, rfl⟩

/-- The walk that a climb leads to goes on with the one it starts on. -/
theorem Climbs.suffix {walk top : List CBlockIndex} {ws : List IndexWalk} (h : Climbs walk ws top) :
    walk <:+ top := by
  induction ws generalizing walk with
  | nil =>
    cases h
    exact List.suffix_rfl
  | cons w ws ih => exact (List.suffix_cons w.1 walk).trans (ih h.2)

/-- What a walk does not create again, a walk below it does not either. -/
theorem NotRecreated.of_suffix {walk top : List CBlockIndex} (hne : walk ≠ [])
    (h : NotRecreated P (files.walkTxs P top)) (hsuffix : walk <:+ top) :
    NotRecreated P (files.walkTxs P walk) := by
  obtain ⟨a, rfl⟩ := hsuffix
  obtain ⟨q, c, rfl⟩ := List.exists_cons_of_ne_nil hne
  rw [BlockFiles.walkTxs_append] at h
  exact (notRecreated_append.mp h).1

/-- What a round of the connect loop does when it succeeds. -/
theorem connectStep_eq_ok {v : ChainView} {w : IndexWalk} :
    connectStep P v io db w = .ok (block, db') ↔
      v.files.readFromDisk P io w.1 = some block ∧
        block.connectBlock P v io db w.1 w.2 = .ok db' := by
  rw [connectStep]
  cases v.files.readFromDisk P io w.1 with
  | none => simp
  | some b =>
    simp only [bind_eq_ok, mapError_eq_ok, pure_eq_ok, Prod.mk.injEq, Option.some.injEq]
    constructor
    · rintro ⟨txdb, h, rfl, rfl⟩
      exact ⟨rfl, h⟩
    · rintro ⟨rfl, h⟩
      exact ⟨db', h, rfl, rfl⟩

/-- **A block read from the disk is connected** on top of a marked chain. -/
theorem SpentIn.connect {v : ChainView} {walk vPrev : List CBlockIndex} (hne : walk ≠ [])
    (h : SpentIn P db.mapTxIndex (v.files.walkTxs P walk))
    (hnot : NotRecreated P (v.files.walkTxs P (p :: walk)))
    (hread : v.files.readBlock P p.nFile p.nBlockPos = some block)
    (hconnect : block.connectBlock P v io db p vPrev = .ok db') :
    SpentIn P db'.mapTxIndex (v.files.walkTxs P (p :: walk)) := by
  rw [BlockFiles.walkTxs_cons hne, BlockFiles.vtx_of_readBlock hread] at hnot ⊢
  exact h.connectBlock (BlockFiles.nFile_ne_of_readBlock hread) hnot hconnect

/-- **The connect loop** leaves the marks of the branch, and has connected its blocks. -/
theorem SpentIn.connectLoop {v : ChainView} {walk top : List CBlockIndex} {ws : List IndexWalk}
    {vConnected vConnected' : List CBlock} {wallets wallets' : List CWallet} (hne : walk ≠ [])
    (h : SpentIn P db.mapTxIndex (v.files.walkTxs P walk)) (hclimbs : Climbs walk ws top)
    (hnot : NotRecreated P (v.files.walkTxs P top))
    (hconnects : connectLoop P v io db vConnected wallets ws = (.ok (db', vConnected'), wallets')) :
    SpentIn P db'.mapTxIndex (v.files.walkTxs P top) ∧
      vConnected'.flatMap CBlock.vtx =
        vConnected.flatMap CBlock.vtx ++ ws.flatMap fun w => v.files.vtx P w.1 := by
  induction ws generalizing db vConnected wallets walk with
  | nil =>
    cases hclimbs
    cases hconnects
    exact ⟨h, by simp⟩
  | cons w ws ih =>
    rw [FoxCoin.connectLoop] at hconnects
    cases hstep : connectStep P v io db w with
    | error r =>
      rw [hstep] at hconnects
      cases hconnects
    | ok result =>
      obtain ⟨block, db₁⟩ := result
      rw [hstep] at hconnects
      obtain ⟨hread, hconnect⟩ := connectStep_eq_ok.mp hstep
      have hblock := BlockFiles.readBlock_of_readFromDisk hread
      have hmarks := h.connect hne (hnot.of_suffix (by simp) hclimbs.2.suffix) hblock hconnect
      obtain ⟨htop, hvtx⟩ := ih (by simp) hmarks hclimbs.2 hconnects
      refine ⟨htop, ?_⟩
      rw [hvtx, List.flatMap_append, List.flatMap_singleton, List.flatMap_cons, List.append_assoc,
        BlockFiles.vtx_of_readBlock hblock]

theorem CTxMemPool.removeAll_append (mempool : CTxMemPool) (vtx vtx' : List CTransaction) :
    mempool.removeAll P (vtx ++ vtx') = (mempool.removeAll P vtx).removeAll P vtx' :=
  List.foldl_append

/-- **The postponed blocks** add their marks when the loop does not stop early, and their
transactions leave the pool. -/
theorem SpentIn.connectSecondary {l c : List CBlockIndex}
    (h : SpentIn P s.txdb.mapTxIndex (s.files.walkTxs P (q :: c)))
    (hnot : NotRecreated P (s.files.walkTxs P (l.reverse ++ q :: c)))
    (hok : (s.connectSecondary P env l).1 = true) :
    SpentIn P (s.connectSecondary P env l).2.txdb.mapTxIndex
        (s.files.walkTxs P (l.reverse ++ q :: c)) ∧
      (s.connectSecondary P env l).2.mempool =
        s.mempool.removeAll P (l.flatMap (s.files.vtx P)) := by
  induction l generalizing s q c with
  | nil => exact ⟨h, rfl⟩
  | cons pindex l ih =>
    have hsplit : (pindex :: l).reverse ++ q :: c = l.reverse ++ pindex :: q :: c := by
      rw [List.reverse_cons, List.append_assoc]
      rfl
    rw [hsplit] at hnot ⊢
    rw [NodeState.connectSecondary] at hok ⊢
    cases hread : s.files.readFromDisk P env.io pindex with
    | none => simp [hread] at hok
    | some block =>
      simp only [hread] at hok ⊢
      by_cases hbegin : env.io (.txnBegin2 pindex.phashBlock) = true
      · simp only [hbegin, Bool.not_true, Bool.false_eq_true, if_false] at hok ⊢
        rcases s.setBestChainInner_cases P env block pindex with ⟨A, hA⟩ | ⟨r, s', herror, -⟩
        · rw [hA] at hok ⊢
          have hblock := BlockFiles.readBlock_of_readFromDisk hread
          have hmarks : SpentIn P A.txdb.mapTxIndex (s.files.walkTxs P (pindex :: q :: c)) :=
            SpentIn.connect (v := s.view env) (by simp) h
              (hnot.of_suffix (by simp) (List.suffix_append _ _)) hblock A.connects
          obtain ⟨htop, hpool⟩ := ih (s := A.result) hmarks hnot hok
          refine ⟨htop, hpool.trans ?_⟩
          rw [List.flatMap_cons, CTxMemPool.removeAll_append, BlockFiles.vtx_of_readBlock hblock]
          rfl
        · rw [herror] at hok
          cases hok
      · simp [hbegin] at hok

/-! ## Switching -/

theorem indexWalks_map_fst (a c : List CBlockIndex) : (indexWalks a c).map Prod.fst = a := by
  induction a with
  | nil => rfl
  | cons p a ih => rw [indexWalks, List.map_cons, ih]

/-- The blocks of a walk that are not on another one. -/
def offWalk (walk walk' : List CBlockIndex) : List CBlockIndex :=
  walk.filter fun pindex => decide (pindex ∉ walk')

theorem mem_offWalk {walk walk' : List CBlockIndex} :
    p ∈ offWalk walk walk' ↔ p ∈ walk ∧ p ∉ walk' := by
  rw [offWalk, List.mem_filter, decide_eq_true_eq]

/-- Of two walks that share what is below a fork, what is above it on the first one is off the
second one. -/
theorem mem_offWalk_append {a b c : List CBlockIndex} (hoff : ∀ t ∈ a, t ∉ b ++ c)
    (t : CBlockIndex) : t ∈ offWalk (a ++ c) (b ++ c) ↔ t ∈ a := by
  rw [mem_offWalk, List.mem_append]
  constructor
  · rintro ⟨habove | hbelow, hnot⟩
    · exact habove
    · exact absurd (List.mem_append_right _ hbelow) hnot
  · exact fun hta => ⟨.inl hta, hoff t hta⟩

/-- The blocks that are postponed lie above a block with more work than the best chain. -/
theorem lt_bnChainWork_of_postpone {n : ℕ} {l : List CBlockIndex} (h : (postpone n p l).1 ≠ []) :
    n < (postpone n p l).2.bnChainWork := by
  induction l generalizing p with
  | nil => exact absurd rfl h
  | cons pprev l ih =>
    rw [postpone] at h ⊢
    by_cases hwork : n < pprev.bnChainWork
    · simp only [if_pos hwork]
      by_cases hnil : (postpone n pprev l).1 = []
      · cases l with
        | nil => exact hwork
        | cons r l =>
          rw [postpone] at hnil ⊢
          by_cases hr : n < r.bnChainWork
          · simp [if_pos hr] at hnil
          · rwa [if_neg hr]
      · exact ih hnil
    · rw [if_neg hwork] at h
      exact absurd rfl h

/-- What a switch that does not stop early leaves: the marks of the new branch, and the pool with
what it took back from the old branch and without the transactions of the new blocks. -/
structure NodeState.Moved (P : Params) (s : NodeState) (p : CBlockIndex) (s' : NodeState) : Prop where
  intro ::
  marked : SpentIn P s'.txdb.mapTxIndex (s.branchTxs P p)
  pool : ∃ vResurrect vDelete : List CTransaction,
    (∀ tx ∈ vResurrect, tx.isCoinBase = false ∧
      ∃ r ∈ offWalk s.bestWalk (s.walkFrom p), tx ∈ s.files.vtx P r) ∧
    (∀ tx, tx ∈ vDelete ↔ ∃ r ∈ offWalk (s.walkFrom p) s.bestWalk, tx ∈ s.files.vtx P r) ∧
    s'.mempool = (vResurrect.foldl (CTxMemPool.tryAccept P) s.mempool).removeAll P vDelete

/-- The blocks above the fork, and the postponed ones, are those that are on one of the two branches
only. -/
theorem IsTree.offWalk_iff (ht : IsTree s.mapBlockIndex root) (hp : p.In s.mapBlockIndex)
    (hq : q.In s.mapBlockIndex) {a b c x y : List CBlockIndex} {r : CBlockIndex}
    (ha : s.walkFrom q = a ++ pfork :: c) (hb : s.walkFrom r = b ++ pfork :: c)
    (hx : s.walkFrom p = x ++ r :: y) (hwork : x ≠ [] → q.bnChainWork < r.bnChainWork)
    (hoff : ∀ t ∈ a, t ∉ s.walkFrom r) :
    (∀ t, t ∈ offWalk (s.walkFrom q) (s.walkFrom p) ↔ t ∈ a) ∧
      ∀ t, t ∈ offWalk (s.walkFrom p) (s.walkFrom q) ↔ t ∈ x ++ b := by
  have hr : s.walkFrom r = r :: y := ht.walkOf_of_split hp hx
  have hx' : s.walkFrom p = (x ++ b) ++ pfork :: c := by rw [hx, ← hr, hb, List.append_assoc]
  have hxoff : ∀ t ∈ x, t ∉ s.walkFrom q := by
    intro t ht' hmem
    have hrt : r ∈ walkOf s.mapBlockIndex t := by
      obtain ⟨x₁, x₂, rfl⟩ := List.append_of_mem ht'
      have hsplit : s.walkFrom p = x₁ ++ t :: (x₂ ++ r :: y) := by
        rw [hx, List.append_assoc, List.cons_append]
      rw [ht.walkOf_of_split hp hsplit]
      simp
    have hle := ht.bnChainWork_le_of_mem hq (ht.mem_walkOf_trans hq hmem hrt)
    have hlt := hwork (List.ne_nil_of_mem ht')
    omega
  have hboff : ∀ t ∈ b, t ∉ s.walkFrom q := by
    intro t ht' hmem
    rw [ha, List.mem_append] at hmem
    rcases hmem with habove | hbelow
    · exact hoff t habove (by rw [hb]; exact List.mem_append_left _ ht')
    · have hrIn : r.In s.mapBlockIndex :=
        ht.in_of_mem_walkOf hp r (by rw [← NodeState.walkFrom_eq, hx]; simp)
      have hdist := ht.hashes hrIn
      rw [← NodeState.walkFrom_eq, hb, List.pairwise_append] at hdist
      exact hdist.2.2 t ht' t hbelow rfl
  constructor
  · rw [ha, hx']
    refine mem_offWalk_append fun t hta => ?_
    rw [List.append_assoc, ← hb, List.mem_append, not_or]
    refine ⟨fun htx => hxoff t htx ?_, hoff t hta⟩
    rw [ha]
    exact List.mem_append_left _ hta
  · rw [hx', ha]
    refine mem_offWalk_append fun t hmem => ?_
    rw [← ha]
    rcases List.mem_append.mp hmem with htx | htb
    · exact hxoff t htx
    · exact hboff t htb

/-- **An attached block** is the one block that is on the new branch only. -/
theorem Attachment.moved (h : s.Sound P root) (htip : s.TipConsistent q)
    (hp : p.In s.mapBlockIndex) (hstores : s.Stores P p block)
    (hprev : block.hashPrevBlock = s.hashBestChain) (hmarked : s.BranchMarked P q)
    (hnot : NotRecreated P (s.branchTxs P p)) (A : Attachment P env s block p) :
    s.Moved P p A.result := by
  have hbest : s.bestWalk = s.walkFrom q := by rw [NodeState.bestWalk, htip.pindexBest]; rfl
  have hwalk : s.walkFrom p = p :: s.walkFrom q :=
    h.tree.walkOf_prev hp htip.indexed (A.pprev_eq_some h htip.toMemoryTip hp hstores hprev)
  have hnew : ∀ t, t ∈ offWalk (s.walkFrom p) s.bestWalk ↔ t = p := by
    have hoff := (h.tree.offWalk_iff hp htip.indexed (a := []) (b := [p]) (x := []) rfl hwalk rfl
      (fun hne => absurd rfl hne) (fun t ht => absurd ht List.not_mem_nil)).2
    intro t
    rw [hbest, hoff, List.nil_append, List.mem_singleton]
  constructor
  · rw [NodeState.branchTxs, hwalk] at hnot ⊢
    have hmarks := SpentIn.connect (v := s.view env) (by simp [NodeState.walkFrom]) hmarked hnot
      hstores.read A.connects
    exact hmarks
  · refine ⟨[], block.vtx, fun tx htx => absurd htx List.not_mem_nil, fun tx => ?_, rfl⟩
    simp only [hnew, exists_eq_left, BlockFiles.vtx_of_readBlock hstores.read]

/-- **A reorganisation**, with the blocks that were postponed, disconnects the blocks that are on
the old branch only, and connects those that are on the new one only. -/
theorem Reorganization.moved (h : s.Sound P root) (htip : s.TipConsistent q)
    (hp : p.In s.mapBlockIndex) (hmarked : s.BranchMarked P q)
    (hnot : NotRecreated P (s.branchTxs P p))
    (R : Reorganization P env s (s.postponed q p).2)
    (hok : (R.result.connectSecondary P env (s.postponed q p).1.reverse).1 = true) :
    s.Moved P p (R.result.connectSecondary P env (s.postponed q p).1.reverse).2 := by
  have hbest : s.bestWalk = s.walkFrom q := by rw [NodeState.bestWalk, htip.pindexBest]; rfl
  obtain ⟨y, hx⟩ := postpone_eq (n := q.bnChainWork) (p := p) (l := s.vPrev p)
  replace hx : s.walkFrom p = (s.postponed q p).1 ++ (s.postponed q p).2 :: y := hx
  have hr : (s.postponed q p).2.In s.mapBlockIndex :=
    h.tree.in_of_mem_walkOf hp _ (by rw [← NodeState.walkFrom_eq, hx]; simp)
  have hwalk : s.walkFrom (s.postponed q p).2 = (s.postponed q p).2 :: y :=
    h.tree.walkOf_of_split hp hx
  obtain ⟨pfork, a, b, c, hbranches, ha, hb, hoff⟩ := h.tree.branches htip.indexed htip.pindexBest hr
  obtain ⟨hdown, hup⟩ := h.tree.offWalk_iff hp htip.indexed ha hb hx lt_bnChainWork_of_postpone hoff
  have hR := R.branches_eq
  rw [hbranches, Except.ok.injEq, Prod.mk.injEq] at hR
  -- the index goes down to the fork, up to the block to reorganise to, and on to the new tip
  have hdisconnects := R.disconnects
  rw [← hR.1] at hdisconnects
  rw [NodeState.BranchMarked, NodeState.branchTxs, ha] at hmarked
  obtain ⟨hfork, hresurrect⟩ := SpentIn.foldlM_disconnectStep (by exact hmarked) hdisconnects
  have hconnects := R.connects
  rw [← hR.2] at hconnects
  have hsuffix : b ++ pfork :: c <:+ s.walkFrom p := by
    rw [← hb, hwalk, hx]
    exact List.suffix_append _ _
  obtain ⟨hmiddle, hconnected⟩ := SpentIn.connectLoop (v := s.view env) (by simp) hfork
    (climbs_indexWalks b (pfork :: c)) (NotRecreated.of_suffix (by simp) hnot hsuffix) hconnects
  rw [← hb, hwalk] at hmiddle
  rw [NodeState.branchTxs, hx] at hnot
  obtain ⟨htop, hpool⟩ := SpentIn.connectSecondary (s := R.result)
    (l := (s.postponed q p).1.reverse) hmiddle
    (by rw [List.reverse_reverse]; exact hnot) hok
  constructor
  · rw [NodeState.branchTxs, hx]
    rwa [List.reverse_reverse] at htop
  · refine ⟨R.vResurrect, R.vConnected.flatMap CBlock.vtx ++
      (s.postponed q p).1.reverse.flatMap (s.files.vtx P), fun tx htx => ?_, fun tx => ?_, ?_⟩
    · rw [show R.vResurrect = _ from hresurrect, List.nil_append] at htx
      obtain ⟨t, ht, htx⟩ := List.mem_flatMap.mp htx
      obtain ⟨htx, hcoin⟩ := List.mem_filter.mp htx
      exact ⟨by simpa using hcoin, t, by rw [hbest]; exact (hdown t).mpr ht, htx⟩
    · have hconnectedOf : R.vConnected.flatMap CBlock.vtx = b.reverse.flatMap (s.files.vtx P) := by
        rw [hconnected, List.flatMap_nil, List.nil_append, ← List.flatMap_map,
          List.map_reverse, indexWalks_map_fst]
        rfl
      rw [hconnectedOf, ← List.flatMap_append, List.mem_flatMap, hbest]
      refine exists_congr fun t => and_congr_left fun _ => ?_
      rw [hup, List.mem_append, List.mem_append, List.mem_reverse, List.mem_reverse, or_comm]
    · rw [hpool, CTxMemPool.removeAll_append]
      rfl

/-- **What a switch leaves that does not stop early.** -/
theorem NodeState.Switches.moved (h : s.Sound P root) (htip : s.TipConsistent q)
    (hp : p.In s.mapBlockIndex) (hstores : s.Stores P p block) (hmarked : s.BranchMarked P q)
    (hnot : NotRecreated P (s.branchTxs P p)) (hswitch : s.Switches P env block p s')
    (hstops : s.stopsEarly P env block p = false) : s.Moved P p s' := by
  cases hswitch with
  | genesis hfirst => simp [IsFirst, h.genesis] at hfirst
  | attach hfirst hprev A => exact A.moved h htip hp hstores hprev hmarked hnot
  | reorganize hfirst hprev pindexBest hbest R =>
    obtain rfl : q = pindexBest := Option.some.inj (htip.pindexBest.symm.trans hbest)
    refine R.moved h htip hp hmarked hnot ?_
    rw [stopsEarly, if_neg (not_or.mpr ⟨hfirst, hprev⟩), hbest] at hstops
    simpa only [R.reorganize_eq, Bool.not_eq_false'] using hstops

/-! ## The main chain of a run -/

/-- The event does not succeed in switching to a branch that creates something again after it was
spent. -/
def NodeEvent.KeepsSpent (P : Params) (s : NodeState) : NodeEvent → Prop
  | .switch env block pindexNew => (s.setBestChain P env block pindexNew).1.isOk = true →
      NotRecreated P (s.branchTxs P pindexNew)
  | _ => True

/-- The event does not stop early, and creates nothing again on a branch after it was spent. -/
def NodeEvent.KeepsChain (P : Params) (s : NodeState) (e : NodeEvent) : Prop :=
  ¬e.StopsEarly P s ∧ e.KeepsSpent P s

/-- The node is in order, and the index has the marks of its main chain. -/
def NodeState.ChainMarked (P : Params) (s : NodeState) : Prop :=
  ∃ root q, s.Sound P root ∧ s.TipConsistent q ∧ s.BranchMarked P q

/-- The branches of two states with one tree and one set of files are the same. -/
theorem NodeState.branchTxs_congr (hmap : s'.mapBlockIndex = s.mapBlockIndex)
    (hfiles : s'.files = s.files) : s'.branchTxs P p = s.branchTxs P p := by
  rw [branchTxs, branchTxs, walkFrom_eq, walkFrom_eq, hmap, hfiles]

theorem BlockFiles.walkTxs_congr {files' : BlockFiles} {walk : List CBlockIndex}
    (h : ∀ p ∈ walk, files'.vtx P p = files.vtx P p) :
    files'.walkTxs P walk = files.walkTxs P walk := by
  induction walk with
  | nil => rfl
  | cons p walk ih =>
    obtain ⟨hp, hrest⟩ := List.forall_mem_cons.mp h
    cases walk with
    | nil => rfl
    | cons q walk => rw [walkTxs, walkTxs, ih hrest, hp]

/-- Storing a block leaves the branches that were there as they are. -/
theorem Storing.branchTxs_eq (h : s.Sound P root) (S : Storing P env s block)
    (hp : p.In s.mapBlockIndex) : S.result.branchTxs P p = s.branchTxs P p := by
  rw [NodeState.branchTxs, NodeState.branchTxs, S.walkFrom_eq h.tree hp]
  refine BlockFiles.walkTxs_congr fun r hr => ?_
  obtain ⟨b, hb⟩ := h.stored r (h.tree.in_of_mem_walkOf hp r hr)
  have hkeep := (BlockFiles.readBlock_of_writeToDisk (P := P) S.writes).2 _ _ _ hb.read
  rw [BlockFiles.vtx_of_readBlock hb.read, S.files_eq, BlockFiles.vtx_of_readBlock hkeep]

theorem Storing.branchMarked (h : s.Sound P root) (S : Storing P env s block)
    (hp : p.In s.mapBlockIndex) (hmarked : s.BranchMarked P p) : S.result.BranchMarked P p := by
  rw [NodeState.BranchMarked, S.branchTxs_eq h hp, S.addsIndex.mapTxIndex]
  exact hmarked

/-- A step that leaves the tree, the files and the index alone keeps the marks. -/
theorem NodeState.BranchMarked.of_unchanged (h : s.BranchMarked P p) (hsame : s.Unchanged s') :
    s'.BranchMarked P p := by
  rw [BranchMarked, branchTxs_congr hsame.mapBlockIndex hsame.files, hsame.mapTxIndex]
  exact h

/-- **A switch that does not stop early** leads to a branch that is marked, or leaves the chain
alone. -/
theorem NodeState.setBestChain_moved (h : s.Sound P root) (htip : s.TipConsistent q)
    (hmarked : s.BranchMarked P q) (env : Env) (hp : p.In s.mapBlockIndex)
    (hread : s.files.readBlock P p.nFile p.nBlockPos = some block)
    (hkeeps : NodeEvent.KeepsChain P s (.switch env block p)) :
    (∃ s', s.setBestChain P env block p = (.ok (), s'.withTip P block p) ∧ s.Frame s' ∧
        s.Moved P p s' ∧ (s'.withTip P block p).TipConsistent p) ∨
      s.Unchanged (s.setBestChain P env block p).2 := by
  obtain ⟨hstops, hnot⟩ := hkeeps
  have hstores := h.stores hp hread
  have hno : s.stopsEarly P env block p = false := by simpa [NodeEvent.StopsEarly] using hstops
  rcases s.setBestChain_cases P env block p with ⟨s', hok, hswitch⟩ | ⟨r, s', herr, hsame⟩
  · obtain ⟨r, hr⟩ := (htip.setBestChain_iff h hp hstores hok).mpr hno
    obtain rfl : p = r := Option.some.inj hr.pindexBest
    exact .inl ⟨s', hok, hswitch.frame h.genesis,
      hswitch.moved h htip hp hstores hmarked (hnot (by rw [hok]; rfl)) hno, hr⟩
  · rw [herr]
    exact .inr hsame

/-- An event keeps the marks of the main chain. -/
theorem NodeState.ChainMarked.next {e : NodeEvent} (h : s.ChainMarked P) (hlegal : s.Legal P e)
    (hkeeps : e.KeepsChain P s) : (s.next P e).ChainMarked P := by
  obtain ⟨root, q, hsound, htip, hmarked⟩ := h
  cases e with
  | store env block =>
    obtain ⟨t, u, hcheck⟩ := hlegal
    rw [NodeState.next]
    rcases s.acceptBlock_cases P env block with ⟨hstore, -⟩ | ⟨S, hstore, -⟩
    · rw [hstore]
      exact ⟨root, q, hsound, htip, hmarked⟩
    · rw [hstore]
      exact ⟨root, q, S.sound hsound (CBlock.checkProofOfWork_of_checkBlock hcheck),
        S.tipConsistent hsound htip, S.branchMarked hsound htip.indexed hmarked⟩
  | switch env block p =>
    obtain ⟨hp, hread⟩ := hlegal
    have hsound' := hsound.setBestChain env block p
    rw [NodeState.next]
    rcases s.setBestChain_moved hsound htip hmarked env hp hread hkeeps with
      ⟨s', hs', hframe, hmoved, htip'⟩ | hsame
    · rw [hs'] at hsound' ⊢
      refine ⟨root, p, hsound', htip', ?_⟩
      have hbranch : (s'.withTip P block p).branchTxs P p = s.branchTxs P p :=
        NodeState.branchTxs_congr hframe.mapBlockIndex hframe.files
      rw [NodeState.BranchMarked, hbranch]
      exact hmoved.marked
    · exact ⟨root, q, hsound', htip.of_unchanged hsame, hmarked.of_unchanged hsame⟩
  | relay mempool wallets mapOrphanBlocks mapOrphanBlocksByPrev =>
    exact ⟨root, q, hsound.of_eq rfl rfl rfl, ⟨⟨htip.pindexBest, htip.hashBestChain,
      htip.nBestHeight, htip.bnBestChainWork⟩, ⟨htip.committed, htip.pnext⟩, htip.indexed,
      htip.genesis, htip.isInMainChain⟩, hmarked⟩

/-- A node that has loaded the genesis block has nothing to mark. -/
theorem NodeState.Loaded.chainMarked (h : s.Loaded P) : s.ChainMarked P := by
  obtain ⟨root, hsound, htip⟩ := h.sound
  refine ⟨root, root, hsound, htip, ?_⟩
  have hwalk : s.walkFrom root = [root] :=
    hsound.tree.walkOf_root htip.indexed hsound.tree.root_pprev
  rw [NodeState.BranchMarked, NodeState.branchTxs, hwalk]
  exact spentIn_nil P _

/-- A marked main chain can be disconnected down to any of its blocks. -/
theorem NodeState.ChainMarked.disconnects (h : s.ChainMarked P) {A : CBlockIndex}
    (hA : A ∈ s.bestWalk) (hio : io.Serves (aboveFork A s.bestWalk)) :
    ∃ st, (aboveFork A s.bestWalk).foldlM (disconnectStep P io s.files) (s.txdb, []) = .ok st := by
  obtain ⟨root, q, hsound, htip, hmarked⟩ := h
  have hbest : s.bestWalk = s.walkFrom q := by rw [bestWalk, htip.pindexBest]; rfl
  obtain ⟨a, c, hsplit⟩ := List.append_of_mem hA
  have hnot : A ∉ a := by
    intro hmem
    have hdist := hsound.tree.hashes htip.indexed
    rw [← NodeState.walkFrom_eq, ← hbest, hsplit, List.pairwise_append] at hdist
    exact hdist.2.2 A hmem A List.mem_cons_self rfl
  rw [hsplit, aboveFork_append hnot] at hio ⊢
  rw [BranchMarked, branchTxs, ← hbest, hsplit] at hmarked
  refine SpentIn.exists_disconnectStep (by exact hmarked) hio fun p hp => ?_
  have hmem : p ∈ s.bestWalk := by rw [hsplit]; exact List.mem_append_left _ hp
  rw [hbest] at hmem
  obtain ⟨b, hb⟩ := hsound.stored p (hsound.tree.in_of_mem_walkOf htip.indexed p hmem)
  exact ⟨b, hb.read, hb.hash_eq⟩

/-- **The main chain can be disconnected down to any of its blocks**, in every state of a run that
never stops early and creates nothing again on a branch after it was spent. -/
theorem disconnects_of_reaches
    (h : Reaches (nodeSystem P) (fun s e => e.KeepsChain P s) s) {A : CBlockIndex}
    (hA : A ∈ s.bestWalk) (io : Io) (hio : io.Serves (aboveFork A s.bestWalk)) :
    ∃ st, (aboveFork A s.bestWalk).foldlM (disconnectStep P io s.files) (s.txdb, []) = .ok st := by
  have hmarked : s.ChainMarked P := h.invariant (fun s hs => NodeState.Loaded.chainMarked hs)
    fun s e hs hlegal hkeeps => hs.next hlegal hkeeps
  exact hmarked.disconnects hA hio

/-- A disk and a database that never fail serve every call. -/
theorem serves_reliable (vDisconnect : List IndexWalk) : Io.reliable.Serves vDisconnect := by
  intro w _
  exact ⟨rfl, rfl, .inr rfl⟩

/-- Storing a checked block continues a run of the example. -/
theorem reaches_keepsChain_store (h : Reaches (nodeSystem exampleParams)
      (fun s e => e.KeepsChain exampleParams s) s)
    (hcheck : (block.checkBlock exampleParams 1400009000).isOk = true) :
    Reaches (nodeSystem exampleParams) (fun s e => e.KeepsChain exampleParams s)
      (s.storeBlock exampleParams exampleEnv block) := by
  obtain ⟨u, hu⟩ := exists_of_isOk hcheck
  exact h.next (.store exampleEnv block) ⟨_, u, hu⟩ ⟨not_false, trivial⟩

/-- Switching to a branch continues a run of the example. -/
theorem reaches_keepsChain_switch (h : Reaches (nodeSystem exampleParams)
      (fun s e => e.KeepsChain exampleParams s) s) (block : CBlock)
    (hlegal : p.In s.mapBlockIndex ∧
      s.files.readBlock exampleParams p.nFile p.nBlockPos = some block)
    (hkeeps : s.stopsEarly exampleParams exampleEnv block p = false ∧
      NotRecreated exampleParams (s.branchTxs exampleParams p)) :
    Reaches (nodeSystem exampleParams) (fun s e => e.KeepsChain exampleParams s)
      (s.next exampleParams (.switch exampleEnv block p)) :=
  h.next (.switch exampleEnv block p) hlegal
    ⟨Bool.eq_false_iff.mp hkeeps.1, fun _ => hkeeps.2⟩

/-- The node of the example that has switched to the longer branch. -/
def switchedB3 : NodeState :=
  storedNode.next exampleParams (.switch exampleEnv (blockB3 50) (storedNode.indexOf 23))

theorem reaches_switchedB3 : Reaches (nodeSystem exampleParams)
    (fun s e => e.KeepsChain exampleParams s) switchedB3 := by
  have hgenesis : (genesisNode []).Loaded exampleParams := loaded_genesisNode (by decide +kernel)
  have hstored : Reaches (nodeSystem exampleParams) (fun s e => e.KeepsChain exampleParams s)
      storedA1 := reaches_keepsChain_store (.start hgenesis) (by decide +kernel)
  have htip : Reaches (nodeSystem exampleParams) (fun s e => e.KeepsChain exampleParams s)
      switchedA1 := reaches_keepsChain_switch hstored blockA1
    ⟨by decide +kernel, by decide +kernel⟩ ⟨by decide +kernel, by decide +kernel⟩
  have hbranch : Reaches (nodeSystem exampleParams) (fun s e => e.KeepsChain exampleParams s)
      storedNode :=
    reaches_keepsChain_store (reaches_keepsChain_store (reaches_keepsChain_store htip
      (by decide +kernel)) (by decide +kernel)) (by decide +kernel)
  exact reaches_keepsChain_switch hbranch (blockB3 50)
    ⟨by decide +kernel, by decide +kernel⟩ ⟨by decide +kernel, by decide +kernel⟩

/-- The longer branch can be disconnected down to the genesis block. -/
theorem disconnects_switchedB3 :
    ∃ st, (aboveFork (switchedB3.indexOf exampleParams.hashGenesisBlock)
        switchedB3.bestWalk).foldlM (disconnectStep exampleParams Io.reliable switchedB3.files)
      (switchedB3.txdb, []) = .ok st :=
  disconnects_of_reaches reaches_switchedB3 (by decide +kernel) Io.reliable (serves_reliable _)

/-! ## A transaction that is created again -/

/-- A branch whose sixteenth block spends the coinbase of the first one, and whose seventeenth block
has that coinbase again. -/
def recreatingBlock (n : ℕ) : CBlock :=
  exampleBlock (100 + n) (if n = 1 then exampleParams.hashGenesisBlock else 99 + n)
    (1400000000 + 300 * n)
    (if n = 17 then [exampleCoinbase 2 [50]]
    else exampleCoinbase (n.toUInt8 + 1) [50] ::
      if n = 16 then [exampleTx 30 [⟨exampleHash 2, 0⟩] [50]] else [])

/-- The node that has processed the blocks of the branch. -/
def recreatingNode : NodeState :=
  (genesisNode []).processBlocks
    ((List.range 17).map fun n => (exampleEnv, recreatingBlock (n + 1)))

/-- **A chain that cannot be disconnected.** The seventeenth block is connected, because the
coinbase it creates again is spent. Disconnecting it erases the coinbase, and then the sixteenth
block, which spends it, cannot be disconnected. -/
theorem not_forall_disconnects : ¬∀ s, Reachable (nodeSystem exampleParams) s →
    ∀ A ∈ s.bestWalk, ∀ io : Io, io.Serves (aboveFork A s.bestWalk) →
      ∃ st, (aboveFork A s.bestWalk).foldlM (disconnectStep exampleParams io s.files)
        (s.txdb, []) = .ok st := by
  intro hall
  have hgenesis : (genesisNode []).Loaded exampleParams := loaded_genesisNode (by decide +kernel)
  obtain ⟨st, hst⟩ := hall recreatingNode
    (reachable_processBlocks (Reaches.start hgenesis) orphansChecked_genesisNode)
    (recreatingNode.indexOf exampleParams.hashGenesisBlock) (by decide +kernel) Io.reliable
    (serves_reliable _)
  have hfails : ((aboveFork (recreatingNode.indexOf exampleParams.hashGenesisBlock)
      recreatingNode.bestWalk).foldlM (disconnectStep exampleParams Io.reliable
        recreatingNode.files) (recreatingNode.txdb, [])).isOk = false := by decide +kernel
  rw [hst] at hfails
  cases hfails

end FoxCoin
