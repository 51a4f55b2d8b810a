import FoxCoin.SetBestChain

/-! # What a switch of the best chain can change

Frame lemmas for the routines under `SetBestChain`. Everything a routine does to the memory, the
pool and the committed database comes after the last point at which it can fail, so a call that
fails leaves them alone. -/

namespace FoxCoin

open Checked

variable {P : Params} {env : Env} {s s' : NodeState} {block : CBlock} {pindexNew : CBlockIndex}

/-! ## Frames -/

/-- The block tree, the block files, the orphans and the tip in memory are the same. -/
structure NodeState.Frame (s s' : NodeState) : Prop where
  mapBlockIndex : s'.mapBlockIndex = s.mapBlockIndex
  files : s'.files = s.files
  mapOrphanBlocks : s'.mapOrphanBlocks = s.mapOrphanBlocks
  mapOrphanBlocksByPrev : s'.mapOrphanBlocksByPrev = s.mapOrphanBlocksByPrev
  pindexGenesisBlock : s'.pindexGenesisBlock = s.pindexGenesisBlock
  pindexBest : s'.pindexBest = s.pindexBest
  hashBestChain : s'.hashBestChain = s.hashBestChain
  nBestHeight : s'.nBestHeight = s.nBestHeight
  bnBestChainWork : s'.bnBestChainWork = s.bnBestChainWork

/-- The committed database, the links `pnext` and the memory pool are the same as well. -/
structure NodeState.Unchanged (s s' : NodeState) : Prop extends s.Frame s' where
  mapTxIndex : s'.txdb.mapTxIndex = s.txdb.mapTxIndex
  mapDiskBlockIndex : s'.txdb.mapDiskBlockIndex = s.txdb.mapDiskBlockIndex
  txdb_hashBestChain : s'.txdb.hashBestChain = s.txdb.hashBestChain
  pnext : s'.pnext = s.pnext
  mempool : s'.mempool = s.mempool

theorem NodeState.Frame.refl (s : NodeState) : s.Frame s :=
  ⟨rfl, rfl, rfl, rfl, rfl, rfl, rfl, rfl, rfl⟩

theorem NodeState.Frame.trans {s₁ s₂ s₃ : NodeState} (h : s₁.Frame s₂) (h' : s₂.Frame s₃) :
    s₁.Frame s₃ where
  mapBlockIndex := h'.mapBlockIndex.trans h.mapBlockIndex
  files := h'.files.trans h.files
  mapOrphanBlocks := h'.mapOrphanBlocks.trans h.mapOrphanBlocks
  mapOrphanBlocksByPrev := h'.mapOrphanBlocksByPrev.trans h.mapOrphanBlocksByPrev
  pindexGenesisBlock := h'.pindexGenesisBlock.trans h.pindexGenesisBlock
  pindexBest := h'.pindexBest.trans h.pindexBest
  hashBestChain := h'.hashBestChain.trans h.hashBestChain
  nBestHeight := h'.nBestHeight.trans h.nBestHeight
  bnBestChainWork := h'.bnBestChainWork.trans h.bnBestChainWork

theorem NodeState.Unchanged.refl (s : NodeState) : s.Unchanged s :=
  ⟨.refl s, rfl, rfl, rfl, rfl, rfl⟩

theorem NodeState.Unchanged.trans {s₁ s₂ s₃ : NodeState} (h : s₁.Unchanged s₂)
    (h' : s₂.Unchanged s₃) : s₁.Unchanged s₃ where
  toFrame := h.toFrame.trans h'.toFrame
  mapTxIndex := h'.mapTxIndex.trans h.mapTxIndex
  mapDiskBlockIndex := h'.mapDiskBlockIndex.trans h.mapDiskBlockIndex
  txdb_hashBestChain := h'.txdb_hashBestChain.trans h.txdb_hashBestChain
  pnext := h'.pnext.trans h.pnext
  mempool := h'.mempool.trans h.mempool

/-- Wallets are no part of the chain. -/
theorem NodeState.unchanged_wallets (s : NodeState) (wallets : List CWallet) :
    s.Unchanged { s with setpwalletRegistered := wallets } :=
  ⟨⟨rfl, rfl, rfl, rfl, rfl, rfl, rfl, rfl, rfl⟩, rfl, rfl, rfl, rfl, rfl⟩

/-- `InvalidChainFound` only raises the work of the best invalid chain. -/
theorem NodeState.unchanged_invalidChainFound (s : NodeState) (pindexNew : CBlockIndex) :
    s.Unchanged (s.invalidChainFound pindexNew) := by
  unfold invalidChainFound
  split_ifs
  · exact ⟨⟨rfl, rfl, rfl, rfl, rfl, rfl, rfl, rfl, rfl⟩, rfl, rfl, rfl, rfl, rfl⟩
  · exact .refl s

/-! ## Reorganize -/

/-- What `Reorganize` has worked out when it succeeds. -/
structure Reorganization (P : Params) (env : Env) (s : NodeState) (pindexNew : CBlockIndex) where
  vDisconnect : List IndexWalk
  vConnect : List IndexWalk
  txdb₁ : CTxDB
  vResurrect : List CTransaction
  txdb₂ : CTxDB
  vConnected : List CBlock
  wallets : List CWallet
  branches_eq : s.branches pindexNew = .ok (vDisconnect, vConnect)
  disconnects : vDisconnect.foldlM (disconnectStep P env.io s.files) (s.txdb, []) =
    .ok (txdb₁, vResurrect)
  connects : connectLoop P (s.view env) env.io txdb₁ [] s.setpwalletRegistered vConnect =
    (.ok (txdb₂, vConnected), wallets)
  writes : env.io (.writeHashBestChain pindexNew.phashBlock) = true
  commits : env.io (.txnCommit pindexNew.phashBlock) = true

/-- The state after a reorganisation. -/
def Reorganization.result (R : Reorganization P env s pindexNew) : NodeState :=
  { s with
    setpwalletRegistered := R.wallets
    txdb := { R.txdb₂ with hashBestChain := some pindexNew.phashBlock }
    pnext := relink s.pnext R.vDisconnect R.vConnect
    mempool := (R.vResurrect.foldl (CTxMemPool.tryAccept P) s.mempool).removeAll P
      (R.vConnected.flatMap CBlock.vtx) }

/-- `Reorganize` succeeds when everything is worked out. -/
theorem Reorganization.reorganize_eq (R : Reorganization P env s pindexNew) :
    s.reorganize P env pindexNew = (.ok (), R.result) := by
  simp only [NodeState.reorganize, R.branches_eq, R.disconnects, R.connects, R.writes, R.commits]
  rfl

/-- **`Reorganize` either succeeds, with the disconnected and connected blocks worked out, or leaves
everything but the wallets alone.** -/
theorem NodeState.reorganize_cases (P : Params) (env : Env) (s : NodeState)
    (pindexNew : CBlockIndex) :
    (∃ R : Reorganization P env s pindexNew, s.reorganize P env pindexNew = (.ok (), R.result)) ∨
      ∃ r wallets, s.reorganize P env pindexNew =
        (.error r, { s with setpwalletRegistered := wallets }) := by
  unfold reorganize
  cases hbranches : s.branches pindexNew with
  | error r => exact .inr ⟨r, s.setpwalletRegistered, rfl⟩
  | ok p =>
    obtain ⟨vDisconnect, vConnect⟩ := p
    simp only
    cases hdisconnect : vDisconnect.foldlM (disconnectStep P env.io s.files) (s.txdb, []) with
    | error r => exact .inr ⟨r, s.setpwalletRegistered, rfl⟩
    | ok q =>
      obtain ⟨txdb₁, vResurrect⟩ := q
      simp only
      cases hconnect : connectLoop P (s.view env) env.io txdb₁ [] s.setpwalletRegistered
          vConnect with
      | mk result wallets =>
      cases result with
      | error r => exact .inr ⟨r, wallets, rfl⟩
      | ok q =>
        obtain ⟨txdb₂, vConnected⟩ := q
        simp only
        by_cases hwrite : env.io (.writeHashBestChain pindexNew.phashBlock) = true
        · by_cases hcommit : env.io (.txnCommit pindexNew.phashBlock) = true
          · let R : Reorganization P env s pindexNew := ⟨vDisconnect, vConnect, txdb₁, vResurrect,
              txdb₂, vConnected, wallets, hbranches, hdisconnect, hconnect, hwrite, hcommit⟩
            refine .inl ⟨R, ?_⟩
            simp only [hwrite, hcommit]
            rfl
          · exact .inr ⟨_, wallets, by simp [hwrite, hcommit]; rfl⟩
        · exact .inr ⟨_, wallets, by simp [hwrite]; rfl⟩

/-- A reorganisation leaves the tree and the tip in memory alone. -/
theorem Reorganization.frame (R : Reorganization P env s pindexNew) : s.Frame R.result :=
  ⟨rfl, rfl, rfl, rfl, rfl, rfl, rfl, rfl, rfl⟩

/-! ## SetBestChainInner -/

/-- The state after a block is connected on top of the committed chain. -/
def NodeState.attached (P : Params) (env : Env) (s : NodeState) (block : CBlock)
    (pindexNew pprev : CBlockIndex) (txdb : CTxDB) : NodeState :=
  { s with
    setpwalletRegistered := syncWithWallets P env.nAdjustedTime block s.setpwalletRegistered
    txdb := { txdb with hashBestChain := some (block.getHash P) }
    pnext := s.pnext.insert pprev.phashBlock pindexNew.phashBlock
    mempool := s.mempool.removeAll P block.vtx }

/-- What `SetBestChainInner` has worked out when it succeeds. -/
structure Attachment (P : Params) (env : Env) (s : NodeState) (block : CBlock)
    (pindexNew : CBlockIndex) where
  txdb : CTxDB
  pprev : CBlockIndex
  vPrev : List CBlockIndex
  connects : block.connectBlock P (s.view env) env.io s.txdb pindexNew (s.vPrev pindexNew) = .ok txdb
  vPrev_eq : s.vPrev pindexNew = pprev :: vPrev
  writes : env.io (.writeHashBestChain pindexNew.phashBlock) = true
  commits : env.io (.txnCommit pindexNew.phashBlock) = true

/-- The state after the block is attached. -/
def Attachment.result (A : Attachment P env s block pindexNew) : NodeState :=
  s.attached P env block pindexNew A.pprev A.txdb

/-- **`SetBestChainInner` either attaches the block or leaves the chain alone.** -/
theorem NodeState.setBestChainInner_cases (P : Params) (env : Env) (s : NodeState) (block : CBlock)
    (pindexNew : CBlockIndex) :
    (∃ A : Attachment P env s block pindexNew,
        s.setBestChainInner P env block pindexNew = (.ok (), A.result)) ∨
      ∃ r s', s.setBestChainInner P env block pindexNew = (.error r, s') ∧ s.Unchanged s' := by
  unfold setBestChainInner
  cases hconnect : block.connectBlock P (s.view env) env.io s.txdb pindexNew
      (s.vPrev pindexNew) with
  | error r => exact .inr ⟨_, _, rfl, s.unchanged_invalidChainFound pindexNew⟩
  | ok txdb =>
    have hwallets := s.unchanged_wallets
      (syncWithWallets P env.nAdjustedTime block s.setpwalletRegistered)
    have hvPrev : ∀ wallets, NodeState.vPrev { s with setpwalletRegistered := wallets } pindexNew =
        s.vPrev pindexNew := fun _ => rfl
    by_cases hwrite : env.io (.writeHashBestChain pindexNew.phashBlock) = true
    · by_cases hcommit : env.io (.txnCommit pindexNew.phashBlock) = true
      · simp only [hwrite, hcommit, Bool.not_true, Bool.false_eq_true, if_false, hvPrev]
        cases hprev : s.vPrev pindexNew with
        | nil => exact .inr ⟨_, _, rfl, hwallets⟩
        | cons pprev vPrev =>
          exact .inl ⟨⟨txdb, pprev, vPrev, hconnect, hprev, hwrite, hcommit⟩, rfl⟩
      · simp only [hwrite, hcommit, Bool.not_true, Bool.false_eq_true, if_false, Bool.not_false,
          if_true]
        exact .inr ⟨_, _, rfl, hwallets⟩
    · simp only [hwrite, Bool.not_false, if_true]
      exact .inr ⟨_, _, rfl, hwallets.trans (NodeState.unchanged_invalidChainFound _ pindexNew)⟩

/-- Attaching a block leaves the tree and the tip in memory alone. -/
theorem Attachment.frame (A : Attachment P env s block pindexNew) : s.Frame A.result :=
  ⟨rfl, rfl, rfl, rfl, rfl, rfl, rfl, rfl, rfl⟩

/-- Connecting postponed blocks leaves the tree and the tip in memory alone. -/
theorem NodeState.frame_connectSecondary {vpindex : List CBlockIndex} (s : NodeState) :
    s.Frame (s.connectSecondary P env vpindex).2 := by
  induction vpindex generalizing s with
  | nil => exact .refl s
  | cons pindex vpindex ih =>
    rw [connectSecondary]
    cases s.files.readFromDisk P env.io pindex with
    | none => exact .refl s
    | some block =>
      simp only
      split_ifs
      · exact .refl s
      · rcases s.setBestChainInner_cases P env block pindex with ⟨A, h⟩ | ⟨r, s', h, hsame⟩
        · rw [h]
          exact A.frame.trans (ih _)
        · rw [h]
          exact hsame.toFrame

/-! ## SetBestChain -/

/-- The state after the genesis block is made the tip of the database. -/
def NodeState.withGenesis (P : Params) (env : Env) (s : NodeState) (block : CBlock)
    (pindexNew : CBlockIndex) : NodeState :=
  { s with
    txdb := { s.txdb with
      hashBestChain := if env.io (.writeHashBestChain (block.getHash P)) = true then
        some (block.getHash P) else s.txdb.hashBestChain }
    pindexGenesisBlock := some pindexNew }

/-- The block is the genesis block of a node that has none yet. -/
def NodeState.IsFirst (P : Params) (s : NodeState) (block : CBlock) : Prop :=
  s.pindexGenesisBlock.isNone = true ∧ block.getHash P = P.hashGenesisBlock

instance (P : Params) (s : NodeState) (block : CBlock) : Decidable (s.IsFirst P block) :=
  inferInstanceAs (Decidable (_ ∧ _))

/-- The block to which `SetBestChain` reorganises, after the blocks it postpones. -/
def NodeState.postponed (s : NodeState) (pindexBest pindexNew : CBlockIndex) :
    List CBlockIndex × CBlockIndex :=
  postpone pindexBest.bnChainWork pindexNew (s.vPrev pindexNew)

/-- The three ways in which `SetBestChain` can succeed, with the states they lead to. -/
inductive NodeState.Switches (P : Params) (env : Env) (s : NodeState) (block : CBlock)
    (pindexNew : CBlockIndex) : NodeState → Prop
  | genesis (hfirst : s.IsFirst P block)
      (hcommit : env.io (.txnCommit (block.getHash P)) = true) :
      Switches P env s block pindexNew (s.withGenesis P env block pindexNew)
  | attach (hfirst : ¬s.IsFirst P block) (hprev : block.hashPrevBlock = s.hashBestChain)
      (A : Attachment P env s block pindexNew) : Switches P env s block pindexNew A.result
  | reorganize (hfirst : ¬s.IsFirst P block) (hprev : block.hashPrevBlock ≠ s.hashBestChain)
      (pindexBest : CBlockIndex) (hbest : s.pindexBest = some pindexBest)
      (R : Reorganization P env s (s.postponed pindexBest pindexNew).2) :
      Switches P env s block pindexNew
        (R.result.connectSecondary P env (s.postponed pindexBest pindexNew).1.reverse).2

/-- **The database is switched to the new chain, or the chain is left alone.** -/
theorem NodeState.switchTo_cases (P : Params) (env : Env) (s : NodeState) (block : CBlock)
    (pindexNew : CBlockIndex) :
    (∃ s', s.switchTo P env block pindexNew = (.ok (), s') ∧
        s.Switches P env block pindexNew s') ∨
      ∃ r s', s.switchTo P env block pindexNew = (.error r, s') ∧ s.Unchanged s' := by
  unfold switchTo
  by_cases hfirst : s.IsFirst P block
  · simp only [show s.pindexGenesisBlock.isNone = true ∧ _ from hfirst, and_self, if_true]
    by_cases hcommit : env.io (.txnCommit (block.getHash P)) = true
    · rw [← hfirst.2]
      simp only [hcommit, Bool.not_true, Bool.false_eq_true, if_false]
      exact .inl ⟨_, rfl, .genesis hfirst hcommit⟩
    · rw [← hfirst.2]
      simp only [hcommit, Bool.not_false, if_true]
      exact .inr ⟨_, _, rfl, .refl s⟩
  · simp only [show ¬(s.pindexGenesisBlock.isNone = true ∧ _) from hfirst, if_false]
    by_cases hprev : block.hashPrevBlock = s.hashBestChain
    · rw [if_pos hprev]
      rcases s.setBestChainInner_cases P env block pindexNew with ⟨A, h⟩ | ⟨r, s', h, hsame⟩
      · rw [h]
        exact .inl ⟨_, rfl, .attach hfirst hprev A⟩
      · rw [h]
        exact .inr ⟨_, _, rfl, hsame⟩
    · rw [if_neg hprev]
      cases hbest : s.pindexBest with
      | none => exact .inr ⟨_, _, rfl, .refl s⟩
      | some pindexBest =>
        simp only
        rcases s.reorganize_cases P env (s.postponed pindexBest pindexNew).2 with
          ⟨R, h⟩ | ⟨r, wallets, h⟩
        · rw [show postpone pindexBest.bnChainWork pindexNew (s.vPrev pindexNew) =
            s.postponed pindexBest pindexNew from rfl, h]
          exact .inl ⟨_, rfl, .reorganize hfirst hprev pindexBest hbest R⟩
        · rw [show postpone pindexBest.bnChainWork pindexNew (s.vPrev pindexNew) =
            s.postponed pindexBest pindexNew from rfl, h]
          exact .inr ⟨_, _, rfl, (s.unchanged_wallets wallets).trans
            (NodeState.unchanged_invalidChainFound _ pindexNew)⟩

/-- The state in which the tip in memory is moved. -/
def NodeState.withTip (P : Params) (s : NodeState) (block : CBlock) (pindexNew : CBlockIndex) :
    NodeState :=
  { s with
    hashBestChain := block.getHash P
    pindexBest := some pindexNew
    nBestHeight := pindexNew.nHeight
    bnBestChainWork := pindexNew.bnChainWork }

/-- **`SetBestChain` switches the database and then moves the tip, or leaves the chain alone.** -/
theorem NodeState.setBestChain_cases (P : Params) (env : Env) (s : NodeState) (block : CBlock)
    (pindexNew : CBlockIndex) :
    (∃ s', s.setBestChain P env block pindexNew = (.ok (), s'.withTip P block pindexNew) ∧
        s.Switches P env block pindexNew s') ∨
      ∃ r s', s.setBestChain P env block pindexNew = (.error r, s') ∧ s.Unchanged s' := by
  unfold setBestChain
  by_cases hbegin : env.io (.txnBegin (block.getHash P)) = true
  · simp only [hbegin, Bool.not_true, Bool.false_eq_true, if_false]
    rcases s.switchTo_cases P env block pindexNew with ⟨s', h, hswitch⟩ | ⟨r, s', h, hsame⟩
    · rw [h]
      exact .inl ⟨s', rfl, hswitch⟩
    · rw [h]
      exact .inr ⟨_, _, rfl, hsame⟩
  · simp only [hbegin, Bool.not_false, if_true]
    exact .inr ⟨_, _, rfl, .refl s⟩

/-- **A failed `SetBestChain` changes nothing**: when it returns `false`, at whatever block of a
reorganisation, the committed transaction index, block-index records and best chain, the tip in
memory, every link `pnext` and the memory pool are what they were. -/
theorem NodeState.unchanged_of_setBestChain_error {r : Reject}
    (h : s.setBestChain P env block pindexNew = (.error r, s')) : s.Unchanged s' := by
  rcases s.setBestChain_cases P env block pindexNew with ⟨s'', hok, -⟩ | ⟨r', s'', herr, hsame⟩
  · rw [hok] at h
    cases h
  · rw [herr] at h
    obtain ⟨-, rfl⟩ := Prod.mk.inj h
    exact hsame

end FoxCoin
