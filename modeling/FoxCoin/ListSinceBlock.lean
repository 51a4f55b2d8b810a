import FoxCoin.Lib.OrderedMap
import FoxCoin.Locator
import FoxCoin.MerkleTree
import FoxCoin.Solver

/-! # Transactions since a block

`listsinceblock` lists the wallet transactions above a block and names a block for the next call.
Between two calls the chain is extended and reorganised. The links `pnext` may then end below the
tip, but what they hold is on the walk from the tip in every state that a node reaches. -/

namespace FoxCoin

open Checked Overlay Runs

variable {P : Params} {env : Env} {s s' : NodeState} {block : CBlock} {m : StdMap Uint256 CBlockIndex}
  {root tip p q : CBlockIndex}

/-! ## The call -/

/-- `CMerkleTx::GetDepthInMainChain`. Whether `fMerkleVerified` is set is known in memory only. -/
def NodeState.getDepthInMainChain (P : Params) (s : NodeState) (wtx : CWalletTx)
    (fMerkleVerified : Bool) : ℤ :=
  if wtx.hashBlock = 0 ∨ wtx.nIndex = -1 then 0
  else
    match s.mapBlockIndex.lookup wtx.hashBlock with
    | none => 0
    | some pindex =>
      if !s.isInMainChain pindex then 0
      else if fMerkleVerified = false ∧ checkMerkleBranch P (wtx.tx.getHash P) wtx.vMerkleBranch
          wtx.nIndex ≠ pindex.hashMerkleRoot then 0
      else
        match s.pindexBest with
        | none => 0
        | some pindexBest => pindexBest.nHeight - pindex.nHeight + 1

/-- `CBlockLocator(hashBlock)`: what it leaves in `vHave`. -/
def NodeState.locator (P : Params) (s : NodeState) (hashBlock : Uint256) : List Uint256 :=
  match s.mapBlockIndex.lookup hashBlock with
  | none => []
  | some pindex => CBlockLocator.set P (s.walkFrom pindex)

/-- The wallet does not hold a transaction of the genesis block. -/
def CWallet.OffGenesis (P : Params) (wallet : CWallet) : Prop :=
  ∀ hash wtx, wallet.mapWallet.lookup hash = some wtx → wtx.hashBlock ≠ P.hashGenesisBlock

/-- A wallet in memory. The output of the genesis block pays to nobody. -/
structure ListedWallet (P : Params) where
  wallet : CWallet
  fMerkleVerified : Uint256 → Bool
  offGenesis : wallet.OffGenesis P

/-- The transactions of a wallet in the order of the map. -/
def CWallet.inOrder (wallet : CWallet) : List (Uint256 × CWalletTx) :=
  (wallet.mapWallet.keys.sort (· ≤ ·)).filterMap fun hash =>
    (wallet.mapWallet.lookup hash).map fun wtx => (hash, wtx)

/-- The walk of `listsinceblock` down to `target_height`, and the hash it returns. -/
def lastBlock (target_height : ℤ) (walk : List CBlockIndex) : Uint256 :=
  match walk.dropWhile fun block => decide (target_height < block.nHeight) with
  | [] => 0
  | block :: _ => block.phashBlock

/-- `listsinceblock`: the transactions given to `ListTransactions`, and `lastblock`. The parameters
are a block and a number of confirmations. -/
def NodeState.listSinceBlock (P : Params) (s : NodeState) (listed : ListedWallet P)
    (params : Option (Uint256 × Option ℤ)) : Except String (List (Uint256 × CWalletTx) × Uint256) :=
  let pindex := params.bind fun param => s.getBlockIndex (s.locator P param.1)
  let target_confirms := (params.bind Prod.snd).getD 1
  if target_confirms < 1 then .error "Invalid parameter"
  else
    let depth : ℤ := pindex.elim (-1) fun pindex => 1 + s.nBestHeight - pindex.nHeight
    let transactions := listed.wallet.inOrder.filter fun entry =>
      decide (depth = -1) ||
        decide (s.getDepthInMainChain P entry.2 (listed.fMerkleVerified entry.1) < depth)
    if target_confirms = 1 then .ok (transactions, s.hashBestChain)
    else
      match s.pindexBest with
      | none => .error "null pointer: pindexBest->nHeight"
      | some pindexBest =>
        .ok (transactions, lastBlock (pindexBest.nHeight + 1 - target_confirms) s.bestWalk)

/-! ## Wallets off the genesis block -/

/-- The output script of the genesis block: `0x0 OP_CHECKSIG`. -/
def genesisScript : CScript := [0, 0xac]

/-- **No key pays from the output of the genesis block**: `IsMine` is false where `Solver` fails. -/
theorem solver_genesisScript : solver genesisScript = none := by decide +kernel

namespace CWallet

variable {wallet : CWallet} {t : ℤ}

theorem OffGenesis.insert (h : wallet.OffGenesis P) {hash : Uint256} {wtx : CWalletTx}
    (hwtx : wtx.hashBlock ≠ P.hashGenesisBlock) :
    OffGenesis P { wallet with mapWallet := wallet.mapWallet.insert hash wtx } := by
  intro hash' wtx' hlookup
  replace hlookup : (wallet.mapWallet.insert hash wtx).lookup hash' = some wtx' := hlookup
  rw [lookup_insert_eq_ite] at hlookup
  split at hlookup
  · obtain rfl := Option.some.inj hlookup
    exact hwtx
  · exact h _ _ hlookup

/-- Marking outputs moves no transaction. -/
theorem OffGenesis.walletUpdateSpent (h : wallet.OffGenesis P) (tx : CTransaction) :
    (wallet.walletUpdateSpent tx).OffGenesis P := by
  rw [CWallet.walletUpdateSpent]
  induction tx.vin generalizing wallet with
  | nil => exact h
  | cons txin vin ih =>
    rw [List.foldl_cons]
    refine ih ?_
    rw [updateSpentInput]
    split
    next => exact h
    next wtx hlookup =>
      split
      next =>
        have hplace : (wtx.markSpent txin.prevout.n).hashBlock ≠ P.hashGenesisBlock :=
          h txin.prevout.hash wtx hlookup
        exact h.insert hplace
      next => exact h

theorem merge_hashBlock (wtx wtxIn : CWalletTx) :
    (wtx.merge wtxIn).hashBlock = wtx.hashBlock ∨ (wtx.merge wtxIn).hashBlock = wtxIn.hashBlock := by
  unfold CWalletTx.merge CWalletTx.updateSpent
  simp only
  split_ifs <;> simp

/-- `AddToWallet` of a transaction that is not in the genesis block. -/
theorem OffGenesis.addToWallet (h : wallet.OffGenesis P) {wtxIn : CWalletTx}
    (hwtx : wtxIn.hashBlock ≠ P.hashGenesisBlock) : (wallet.addToWallet P t wtxIn).OffGenesis P := by
  unfold CWallet.addToWallet
  refine OffGenesis.walletUpdateSpent (h.insert ?_) _
  split
  next => exact hwtx
  next wtx hlookup =>
    rcases merge_hashBlock wtx wtxIn with heq | heq
    · rw [heq]
      exact h _ _ hlookup
    · rw [heq]
      exact hwtx

/-- What a wallet learns from a block keeps it off the genesis block: the block is another one, or
nothing in it involves the wallet. -/
theorem OffGenesis.addToWalletIfInvolvingMe (h : wallet.OffGenesis P) {tx : CTransaction}
    (hblock : block.getHash P ≠ P.hashGenesisBlock ∨
      tx.getHash P ∉ wallet.mapWallet ∧ wallet.isMineTx tx = false ∧ wallet.isFromMe tx = false) :
    (wallet.addToWalletIfInvolvingMe P t block tx).OffGenesis P := by
  rw [CWallet.addToWalletIfInvolvingMe]
  split
  next hinvolved =>
    rcases hblock with hblock | ⟨hnew, hmine, hfrom⟩
    · refine h.addToWallet ?_
      rw [CWalletTx.setMerkleBranch]
      split
      next => exact hblock
      next => exact hblock
    · rw [hmine, hfrom] at hinvolved
      simp [hnew] at hinvolved
  next => exact h.walletUpdateSpent tx

/-- `SyncWithWallets` of a block other than the genesis block. -/
theorem OffGenesis.syncWithBlock (h : wallet.OffGenesis P)
    (hblock : block.getHash P ≠ P.hashGenesisBlock) :
    (wallet.syncWithBlock P t block).OffGenesis P := by
  rw [CWallet.syncWithBlock]
  induction block.vtx generalizing wallet with
  | nil => exact h
  | cons tx vtx ih => exact ih (h.addToWalletIfInvolvingMe (.inl hblock))

end CWallet

/-! ## The links below the tip -/

/-- Every block that has a link `pnext` is below a block on its walk. -/
def LinksBelow (m : StdMap Uint256 CBlockIndex) (pnext : StdMap Uint256 Uint256) (p : CBlockIndex) :
    Prop := ∀ hash ∈ pnext, ∃ q ∈ (walkOf m p).tail, q.phashBlock = hash

/-- What is below a block of a walk is below its start. -/
theorem IsTree.mem_tail_walkOf (ht : IsTree m root) (hp : p.In m) (hq : q ∈ walkOf m p)
    {r : CBlockIndex} (hr : r ∈ (walkOf m q).tail) : r ∈ (walkOf m p).tail := by
  obtain ⟨a, c, hsplit⟩ := List.append_of_mem hq
  rw [ht.walkOf_of_split hp hsplit] at hr
  rw [hsplit]
  cases a with
  | nil => exact hr
  | cons p' a =>
    rw [List.cons_append, List.tail_cons]
    exact List.mem_append_right a (List.mem_cons_of_mem q hr)

theorem LinksBelow.mono (ht : IsTree m root) (hp : p.In m) (hq : q ∈ walkOf m p)
    {pnext : StdMap Uint256 Uint256} (h : LinksBelow m pnext q) : LinksBelow m pnext p := by
  intro hash hhash
  obtain ⟨r, hr, heq⟩ := h hash hhash
  exact ⟨r, ht.mem_tail_walkOf hp hq hr, heq⟩

/-- Attaching a block links the block below it. -/
theorem Attachment.linksBelow (ht : IsTree s.mapBlockIndex root) (hp : p.In s.mapBlockIndex)
    (hq : q ∈ walkOf s.mapBlockIndex p) (A : Attachment P env s block q)
    (h : LinksBelow s.mapBlockIndex s.pnext p) : LinksBelow s.mapBlockIndex A.result.pnext p := by
  intro hash hhash
  replace hhash : hash ∈ s.pnext.insert A.pprev.phashBlock q.phashBlock := hhash
  rcases Finmap.mem_insert.mp hhash with rfl | hold
  · refine ⟨A.pprev, ht.mem_tail_walkOf hp hq ?_, rfl⟩
    have hwalk : (walkOf s.mapBlockIndex q).tail = A.pprev :: A.vPrev := A.vPrev_eq
    rw [hwalk]
    exact List.mem_cons_self
  · exact h hash hold

/-- Connecting postponed blocks, wherever it stops. -/
theorem LinksBelow.connectSecondary (P : Params) (env : Env) (ht : IsTree m root) (hp : p.In m)
    {l : List CBlockIndex} (hl : ∀ q ∈ l, q ∈ walkOf m p) {s : NodeState} (hmap : s.mapBlockIndex = m)
    (h : LinksBelow m s.pnext p) : LinksBelow m (s.connectSecondary P env l).2.pnext p := by
  induction l generalizing s with
  | nil => exact h
  | cons pindex l ih =>
    rw [NodeState.connectSecondary]
    cases s.files.readFromDisk P env.io pindex with
    | none => exact h
    | some block =>
      simp only
      by_cases hbegin : env.io (.txnBegin2 pindex.phashBlock) = true
      · simp only [hbegin, Bool.not_true, Bool.false_eq_true, if_false]
        rcases s.setBestChainInner_cases P env block pindex with ⟨A, hinner⟩ | ⟨r, s', hinner, hsame⟩
        · rw [hinner]
          subst hmap
          exact ih (fun q hq => hl q (List.mem_cons_of_mem _ hq)) rfl
            (A.linksBelow ht hp (hl pindex List.mem_cons_self) h)
        · rw [hinner]
          show LinksBelow m s'.pnext p
          rw [hsame.pnext]
          exact h
      · simp only [hbegin, Bool.not_false, if_true]
        exact h

/-! ## Links of a reorganisation -/

theorem mem_foldl_erase {hash : Uint256} {ws : List IndexWalk} {pnext : StdMap Uint256 Uint256}
    (h : hash ∈ ws.foldl (fun m w => w.2.head?.elim m fun pprev => m.erase pprev.phashBlock) pnext) :
    hash ∈ pnext ∧ ∀ w ∈ ws, ∀ q, w.2.head? = some q → q.phashBlock ≠ hash := by
  induction ws generalizing pnext with
  | nil => exact ⟨h, fun w hw => by cases hw⟩
  | cons w ws ih =>
    obtain ⟨hmem, hrest⟩ := ih h
    cases hhead : w.2.head? with
    | none =>
      simp only [hhead, Option.elim_none] at hmem
      refine ⟨hmem, List.forall_mem_cons.mpr ⟨fun q hq => ?_, hrest⟩⟩
      rw [hhead] at hq
      cases hq
    | some pprev =>
      simp only [hhead, Option.elim_some] at hmem
      obtain ⟨hne, hold⟩ := Finmap.mem_erase.mp hmem
      refine ⟨hold, List.forall_mem_cons.mpr ⟨fun q hq => ?_, hrest⟩⟩
      rw [hhead, Option.some.injEq] at hq
      rw [← hq]
      exact Ne.symm hne

theorem mem_foldl_insert {hash : Uint256} {ws : List IndexWalk} {pnext : StdMap Uint256 Uint256}
    (h : hash ∈ ws.foldl (fun m w => w.2.head?.elim m fun pprev =>
      m.insert pprev.phashBlock w.1.phashBlock) pnext) :
    hash ∈ pnext ∨ ∃ w ∈ ws, ∃ q, w.2.head? = some q ∧ q.phashBlock = hash := by
  induction ws generalizing pnext with
  | nil => exact .inl h
  | cons w ws ih =>
    rcases ih h with hmem | ⟨w', hw', hq⟩
    · cases hhead : w.2.head? with
      | none =>
        simp only [hhead, Option.elim_none] at hmem
        exact .inl hmem
      | some pprev =>
        simp only [hhead, Option.elim_some] at hmem
        rcases Finmap.mem_insert.mp hmem with rfl | hold
        · exact .inr ⟨w, List.mem_cons_self, pprev, hhead, rfl⟩
        · exact .inl hold
    · exact .inr ⟨w', List.mem_cons_of_mem w hw', hq⟩

/-- What is below a block of a branch is on the walk. -/
theorem mem_of_indexWalks {b c : List CBlockIndex} {w : IndexWalk} (hw : w ∈ indexWalks b c)
    (hq : w.2.head? = some q) : q ∈ (b ++ c).tail := by
  induction b with
  | nil => cases hw
  | cons p b ih =>
    rw [List.cons_append, List.tail_cons]
    rcases List.mem_cons.mp hw with rfl | hrest
    · exact List.mem_of_head? hq
    · exact List.mem_of_mem_tail (ih hrest)

/-- What is below the first block of a walk is below the fork, or just below a block of the
branch. -/
theorem exists_indexWalks {a c : List CBlockIndex} {pfork : CBlockIndex}
    (hq : q ∈ (a ++ pfork :: c).tail) :
    q ∈ c ∨ ∃ w ∈ indexWalks a (pfork :: c), w.2.head? = some q := by
  induction a with
  | nil => exact .inl hq
  | cons p a ih =>
    rw [List.cons_append, List.tail_cons] at hq
    cases hwalk : a ++ pfork :: c with
    | nil => simp at hwalk
    | cons r rest =>
      rw [hwalk] at hq ih
      rcases List.mem_cons.mp hq with rfl | hrest
      · exact .inr ⟨(p, a ++ pfork :: c), List.mem_cons_self, by rw [hwalk]; rfl⟩
      · rcases ih hrest with hc | ⟨w, hw, hhead⟩
        · exact .inl hc
        · exact .inr ⟨w, List.mem_cons_of_mem _ hw, hhead⟩

/-- **A reorganisation leaves links below its block only.** -/
theorem Reorganization.linksBelow (ht : IsTree s.mapBlockIndex root) (hp : p.In s.mapBlockIndex)
    (hbest : s.pindexBest = some p) (hq : q.In s.mapBlockIndex) (R : Reorganization P env s q)
    (h : LinksBelow s.mapBlockIndex s.pnext p) : LinksBelow s.mapBlockIndex R.result.pnext q := by
  obtain ⟨pfork, a, b, c, hbranches, ha, hb, -⟩ := ht.branches hp hbest hq
  have hR := R.branches_eq
  rw [hbranches, Except.ok.injEq, Prod.mk.injEq] at hR
  rw [NodeState.walkFrom_eq] at ha hb
  intro hash hhash
  replace hhash : hash ∈ relink s.pnext R.vDisconnect R.vConnect := hhash
  rw [← hR.1, ← hR.2, relink] at hhash
  rcases mem_foldl_insert hhash with herased | ⟨w, hw, r, hr, heq⟩
  · obtain ⟨hold, hkept⟩ := mem_foldl_erase herased
    obtain ⟨r, hr, rfl⟩ := h hash hold
    rw [ha] at hr
    rcases exists_indexWalks hr with hc | ⟨w, hw, hhead⟩
    · refine ⟨r, ?_, rfl⟩
      rw [hb]
      cases b with
      | nil => exact hc
      | cons p' b =>
        rw [List.cons_append, List.tail_cons]
        exact List.mem_append_right b (List.mem_cons_of_mem pfork hc)
    · exact absurd rfl (hkept w hw r hhead)
  · refine ⟨r, ?_, heq⟩
    rw [hb]
    exact mem_of_indexWalks (List.mem_reverse.mp hw) hr

/-! ## Every run -/

/-- A node whose tip in memory is a block of its tree, with links below it only. Where a switch has
stopped early there are links to some of these blocks only. -/
structure NodeState.Anchored (P : Params) (s : NodeState) (root tip : CBlockIndex) : Prop
    extends s.Sound P root, s.MemoryTip tip where
  indexed : tip.In s.mapBlockIndex
  below : LinksBelow s.mapBlockIndex s.pnext tip

theorem NodeState.TipConsistent.anchored (h : s.Sound P root) (htip : s.TipConsistent tip) :
    s.Anchored P root tip := by
  refine ⟨h, htip.toMemoryTip, htip.indexed, fun hash hhash => ?_⟩
  rw [htip.pnext, walkFrom, mem_links] at hhash
  exact hhash

theorem NodeState.Anchored.of_unchanged (h : s.Anchored P root tip) (hsame : s.Unchanged s') :
    s'.Anchored P root tip := by
  refine ⟨h.toSound.of_eq hsame.mapBlockIndex hsame.files hsame.pindexGenesisBlock,
    ⟨hsame.pindexBest.trans h.pindexBest, hsame.hashBestChain.trans h.hashBestChain,
      hsame.nBestHeight.trans h.nBestHeight, hsame.bnBestChainWork.trans h.bnBestChainWork⟩, ?_, ?_⟩
  · rw [hsame.mapBlockIndex]
    exact h.indexed
  · rw [hsame.mapBlockIndex, hsame.pnext]
    exact h.below

/-- Storing a block. -/
theorem Storing.anchored (h : s.Anchored P root tip) (S : Storing P env s block)
    (hpow : checkProofOfWork (block.getPoWHash P) block.nBits = .ok ()) :
    S.result.Anchored P root tip := by
  refine ⟨S.sound h.toSound hpow, S.memoryTip h.toMemoryTip, S.in_result h.indexed, ?_⟩
  have hwalk : walkOf S.result.mapBlockIndex tip = walkOf s.mapBlockIndex tip :=
    S.walkFrom_eq h.tree h.indexed
  rw [LinksBelow, hwalk, S.addsIndex.pnext]
  exact h.below

/-- **A switch leaves links below its block**, wherever it stops. -/
theorem NodeState.Switches.linksBelow (h : s.Anchored P root tip) (hp : p.In s.mapBlockIndex)
    (hstores : s.Stores P p block) (hswitch : s.Switches P env block p s') :
    LinksBelow s.mapBlockIndex s'.pnext p := by
  cases hswitch with
  | genesis hfirst => simp [IsFirst, h.genesis] at hfirst
  | attach hfirst hprev A =>
    have hpprev := A.pprev_eq_some h.toSound h.toMemoryTip hp hstores hprev
    have hwalk := h.tree.walkOf_prev hp h.indexed hpprev
    refine A.linksBelow h.tree hp List.mem_cons_self (h.below.mono h.tree hp ?_)
    rw [hwalk]
    exact List.mem_cons_of_mem p List.mem_cons_self
  | reorganize hfirst hprev pindexBest hbest R =>
    obtain rfl : tip = pindexBest := Option.some.inj (h.pindexBest.symm.trans hbest)
    obtain ⟨c, hc⟩ := postpone_eq (n := tip.bnChainWork) (p := p) (l := s.vPrev p)
    have hwalk : walkOf s.mapBlockIndex p = (s.postponed tip p).1 ++ (s.postponed tip p).2 :: c := hc
    have hmem : (s.postponed tip p).2 ∈ walkOf s.mapBlockIndex p := by
      rw [hwalk]
      exact List.mem_append_right _ List.mem_cons_self
    have hbelow := R.linksBelow h.tree h.indexed hbest (h.tree.in_of_mem_walkOf hp _ hmem) h.below
    refine (hbelow.mono h.tree hp hmem).connectSecondary P env h.tree hp (fun q hq => ?_)
      R.frame.mapBlockIndex
    rw [hwalk]
    exact List.mem_append_left _ (List.mem_reverse.mp hq)

/-- **Every event keeps a node anchored.** -/
theorem NodeState.Anchored.next {e : NodeEvent} (h : s.Anchored P root tip) (hlegal : s.Legal P e) :
    ∃ tip', (s.next P e).Anchored P root tip' := by
  cases e with
  | store env block =>
    obtain ⟨t, u, hcheck⟩ := hlegal
    rcases s.acceptBlock_cases P env block with ⟨hstore, -⟩ | ⟨S, hstore, -⟩
    · exact ⟨tip, by rw [NodeState.next, hstore]; exact h⟩
    · exact ⟨tip, by
        rw [NodeState.next, hstore]
        exact S.anchored h (CBlock.checkProofOfWork_of_checkBlock hcheck)⟩
  | switch env block p =>
    obtain ⟨hp, hread⟩ := hlegal
    have hstores := h.stores hp hread
    have hsound := h.toSound.setBestChain env block p
    rw [NodeState.next]
    rcases s.setBestChain_cases P env block p with ⟨s', hok, hswitch⟩ | ⟨r, s', herr, hsame⟩
    · have hframe := hswitch.frame h.genesis
      rw [hok] at hsound ⊢
      refine ⟨p, hsound, ⟨rfl, hstores.hash_eq, rfl, rfl⟩, ?_, ?_⟩
      · exact hframe.mapBlockIndex ▸ hp
      · show LinksBelow s'.mapBlockIndex s'.pnext p
        rw [hframe.mapBlockIndex]
        exact hswitch.linksBelow h hp hstores
    · rw [herr]
      exact ⟨tip, h.of_unchanged hsame⟩
  | relay mempool wallets mapOrphanBlocks mapOrphanBlocksByPrev =>
    exact ⟨tip, h.toSound.of_eq rfl rfl rfl, ⟨h.pindexBest, h.hashBestChain, h.nBestHeight,
      h.bnBestChainWork⟩, h.indexed, h.below⟩

theorem anchored_of_reachable (h : Reachable (nodeSystem P) s) :
    ∃ root tip, s.Anchored P root tip := by
  refine h.invariant (I := fun s => ∃ root tip, s.Anchored P root tip) (fun s hs => ?_)
    fun s e hs hlegal _ => ?_
  · obtain ⟨root, hsound, htip⟩ := NodeState.Loaded.sound hs
    exact ⟨root, root, htip.anchored hsound⟩
  · obtain ⟨root, tip, hs⟩ := hs
    exact ⟨root, hs.next hlegal⟩

namespace NodeState.Anchored

theorem bestWalk_eq (h : s.Anchored P root tip) : s.bestWalk = walkOf s.mapBlockIndex tip := by
  rw [bestWalk, h.pindexBest]
  rfl

/-- What `IsInMainChain` accepts is on the walk from the tip. -/
theorem mem_of_isInMainChain (h : s.Anchored P root tip) (hq : q.In s.mapBlockIndex)
    (hmain : s.isInMainChain q = true) : q ∈ walkOf s.mapBlockIndex tip := by
  rw [isInMainChain, Bool.or_eq_true, decide_eq_true_iff, decide_eq_true_iff, h.pindexBest,
    Option.some.injEq] at hmain
  rcases hmain with hlink | rfl
  · obtain ⟨r, hr, heq⟩ := h.below _ hlink
    obtain rfl := (h.tree.in_of_mem_walkOf h.indexed r (List.mem_of_mem_tail hr)).eq hq heq
    exact List.mem_of_mem_tail hr
  · exact List.mem_cons_self

/-- The heights on a walk go down, so the higher block has the lower one on its walk. -/
theorem mem_walkOf_of_nHeight_le (h : s.Anchored P root tip)
    {r : CBlockIndex} (hr : r ∈ walkOf s.mapBlockIndex tip) (hq : q ∈ walkOf s.mapBlockIndex tip)
    (hle : q.nHeight ≤ r.nHeight) : q ∈ walkOf s.mapBlockIndex r := by
  obtain ⟨a, c, hsplit⟩ := List.append_of_mem hr
  rw [h.tree.walkOf_of_split h.indexed hsplit]
  rw [hsplit] at hq
  rcases List.mem_append.mp hq with habove | hbelow
  · have hheights := (h.tree.heights h.indexed).1
    rw [hsplit, List.pairwise_append] at hheights
    have := hheights.2.2 q habove r List.mem_cons_self
    omega
  · exact hbelow

theorem root_mem (h : s.Anchored P root tip) (hq : q.In s.mapBlockIndex) :
    root ∈ walkOf s.mapBlockIndex q := List.mem_of_getLast? (h.tree.getLast?_walkOf hq)

/-- `GetBlockIndex` finds a block of the locator in the main chain, or the genesis block. -/
theorem getBlockIndex_cases (h : s.Anchored P root tip) (vHave : List Uint256) :
    s.getBlockIndex vHave = some root ∨ ∃ hash ∈ vHave, ∃ r : CBlockIndex,
      s.mapBlockIndex.lookup hash = some r ∧ s.isInMainChain r = true ∧
        s.getBlockIndex vHave = some r := by
  rw [getBlockIndex, h.genesis]
  cases hfind : vHave.findSome? fun hash =>
      (s.mapBlockIndex.lookup hash).filter s.isInMainChain with
  | none => exact .inl rfl
  | some r =>
    obtain ⟨hash, hmem, hr⟩ := List.exists_of_findSome?_eq_some hfind
    obtain ⟨hlookup, hmain⟩ := Option.filter_eq_some_iff.mp hr
    exact .inr ⟨hash, hmem, r, hlookup, hmain, rfl⟩

/-- **The block that a hash leads to** is in the main chain, and on the walk of the block with that
hash where there is one. Another hash leads to the genesis block. -/
theorem exists_getBlockIndex (h : s.Anchored P root tip) (hashBlock : Uint256) :
    ∃ r, s.getBlockIndex (s.locator P hashBlock) = some r ∧ r ∈ walkOf s.mapBlockIndex tip ∧
      match s.mapBlockIndex.lookup hashBlock with
      | none => r = root
      | some p => r ∈ walkOf s.mapBlockIndex p := by
  rw [locator]
  cases hlookup : s.mapBlockIndex.lookup hashBlock with
  | none =>
    refine ⟨root, ?_, h.root_mem h.indexed, rfl⟩
    exact h.genesis
  | some p =>
    have hp : p.In s.mapBlockIndex := by rw [CBlockIndex.In, h.tree.hash_eq _ _ hlookup, hlookup]
    rcases h.getBlockIndex_cases (CBlockLocator.set P (s.walkFrom p)) with
      hroot | ⟨hash, hmem, r, hr, hmain, hfind⟩
    · exact ⟨root, hroot, h.root_mem h.indexed, h.root_mem hp⟩
    · have hrIn : r.In s.mapBlockIndex := by rw [CBlockIndex.In, h.tree.hash_eq _ _ hr, hr]
      refine ⟨r, hfind, h.mem_of_isInMainChain hrIn hmain, ?_⟩
      rw [CBlockLocator.set_eq P _ strictMono_locatorDepth.le_apply, List.mem_append] at hmem
      rcases hmem with hentry | hgenesis
      · obtain ⟨q, hq, rfl⟩ := List.mem_map.mp hentry
        obtain ⟨i, -, hi⟩ := List.mem_filterMap.mp hq
        have hqwalk : q ∈ walkOf s.mapBlockIndex p := List.mem_of_getElem? hi
        have hqIn := h.tree.in_of_mem_walkOf hp q hqwalk
        obtain rfl : q = r := Option.some.inj (hqIn.symm.trans hr)
        exact hqwalk
      · rw [List.mem_singleton] at hgenesis
        rw [hgenesis, ← h.root_hash, h.tree.root_mem, Option.some.injEq] at hr
        rw [← hr]
        exact h.root_mem hp

end NodeState.Anchored

/-! ## Two calls -/

/-- A wallet transaction names a block of the main chain. -/
def NodeState.ConfirmedIn (s : NodeState) (wtx : CWalletTx) (pindex : CBlockIndex) : Prop :=
  s.mapBlockIndex.lookup wtx.hashBlock = some pindex ∧ s.isInMainChain pindex = true

/-- A wallet transaction is not confirmed, or in a block that is neither the one with a hash nor
below it. -/
def NodeState.IsSince (P : Params) (s : NodeState) (hashBlock : Uint256) (wtx : CWalletTx)
    (fMerkleVerified : Bool) : Prop :=
  s.getDepthInMainChain P wtx fMerkleVerified = 0 ∨
    ∃ pindex, s.ConfirmedIn wtx pindex ∧
      ∀ p, s.mapBlockIndex.lookup hashBlock = some p → pindex ∉ s.walkFrom p

/-- The depth of a transaction that names a block of the main chain. -/
theorem NodeState.ConfirmedIn.depth (h : s.Anchored P root tip) {wtx : CWalletTx}
    (hconfirmed : s.ConfirmedIn wtx q) (fMerkleVerified : Bool) :
    s.getDepthInMainChain P wtx fMerkleVerified = 0 ∨
      s.getDepthInMainChain P wtx fMerkleVerified = tip.nHeight - q.nHeight + 1 := by
  rw [getDepthInMainChain, hconfirmed.1]
  simp only [hconfirmed.2, h.pindexBest, Bool.not_true, Bool.false_eq_true, if_false]
  split_ifs <;> simp

/-- **Every transaction since a block is less deep than the block that its hash leads to.** -/
theorem NodeState.IsSince.depth_lt (h : s.Anchored P root tip) {hashBlock : Uint256} {wtx : CWalletTx}
    {fMerkleVerified : Bool} (hoff : wtx.hashBlock ≠ P.hashGenesisBlock)
    (hsince : s.IsSince P hashBlock wtx fMerkleVerified) :
    ∃ r, s.getBlockIndex (s.locator P hashBlock) = some r ∧ r.nHeight ≤ tip.nHeight ∧
      s.getDepthInMainChain P wtx fMerkleVerified < 1 + s.nBestHeight - r.nHeight := by
  obtain ⟨r, hr, hwalk, hbelow⟩ := h.exists_getBlockIndex hashBlock
  have hle : r.nHeight ≤ tip.nHeight := (h.tree.heights h.indexed).2 r hwalk
  refine ⟨r, hr, hle, ?_⟩
  rw [h.nBestHeight]
  rcases hsince with hzero | ⟨q, hconfirmed, hnot⟩
  · omega
  have hq : q.In s.mapBlockIndex := by
    rw [CBlockIndex.In, h.tree.hash_eq _ _ hconfirmed.1, hconfirmed.1]
  -- the block of the transaction is above the one that the locator finds
  have hlt : r.nHeight < q.nHeight := by
    by_contra hge
    have hqr := h.mem_walkOf_of_nHeight_le hwalk (h.mem_of_isInMainChain hq hconfirmed.2)
      (not_lt.mp hge)
    cases hlookup : s.mapBlockIndex.lookup hashBlock with
    | none =>
      rw [hlookup] at hbelow
      obtain rfl : r = root := hbelow
      rw [h.tree.walkOf_root h.tree.root_mem h.tree.root_pprev, List.mem_singleton] at hqr
      rw [← h.tree.hash_eq _ _ hconfirmed.1, hqr] at hoff
      exact hoff h.root_hash
    | some p =>
      rw [hlookup] at hbelow
      have hp : p.In s.mapBlockIndex := by rw [CBlockIndex.In, h.tree.hash_eq _ _ hlookup, hlookup]
      exact hnot p hlookup (h.tree.mem_walkOf_trans hp hbelow hqr)
  rcases hconfirmed.depth h fMerkleVerified with hdepth | hdepth
  · omega
  · omega

theorem CWallet.mem_inOrder {wallet : CWallet} {hash : Uint256} {wtx : CWalletTx} :
    (hash, wtx) ∈ wallet.inOrder ↔ wallet.mapWallet.lookup hash = some wtx :=
  OrderedMap.mem_pairs

theorem CWallet.nodup_inOrder (wallet : CWallet) : (wallet.inOrder.map Prod.fst).Nodup := by
  have hkeys : wallet.inOrder.map Prod.fst = wallet.mapWallet.keys.sort (· ≤ ·) :=
    OrderedMap.map_fst_pairs _
  rw [hkeys]
  exact Finset.sort_nodup _ _

/-- **A call for any hash lists every transaction since the block with it.** -/
theorem NodeState.Anchored.listSinceBlock (h : s.Anchored P root tip) (listed : ListedWallet P)
    (hashBlock : Uint256) {target_confirms : Option ℤ} (htarget : 1 ≤ target_confirms.getD 1) :
    ∃ transactions lastblock, s.listSinceBlock P listed (some (hashBlock, target_confirms)) =
        .ok (transactions, lastblock) ∧
      ∀ hash wtx, listed.wallet.mapWallet.lookup hash = some wtx →
        s.IsSince P hashBlock wtx (listed.fMerkleVerified hash) → (hash, wtx) ∈ transactions := by
  have hlists : ∀ hash wtx, listed.wallet.mapWallet.lookup hash = some wtx →
      s.IsSince P hashBlock wtx (listed.fMerkleVerified hash) →
        (hash, wtx) ∈ listed.wallet.inOrder.filter fun entry =>
          decide (((s.getBlockIndex (s.locator P hashBlock)).elim (-1) fun pindex =>
            1 + s.nBestHeight - pindex.nHeight : ℤ) = -1) ||
          decide (s.getDepthInMainChain P entry.2 (listed.fMerkleVerified entry.1) <
            (s.getBlockIndex (s.locator P hashBlock)).elim (-1) fun pindex =>
              1 + s.nBestHeight - pindex.nHeight) := by
    intro hash wtx hlookup hsince
    obtain ⟨r, hr, -, hlt⟩ := hsince.depth_lt h (listed.offGenesis hash wtx hlookup)
    refine List.mem_filter.mpr ⟨CWallet.mem_inOrder.mpr hlookup, ?_⟩
    rw [hr, Bool.or_eq_true, decide_eq_true_iff, decide_eq_true_iff]
    exact .inr hlt
  rw [NodeState.listSinceBlock]
  simp only [Option.bind_some]
  rw [if_neg (not_lt.mpr htarget)]
  split
  next => exact ⟨_, _, rfl, hlists⟩
  next =>
    rw [h.pindexBest]
    exact ⟨_, _, rfl, hlists⟩

/-- What a call returns is the hash of a block of the tree, or `0` where the chain has not the
confirmations. -/
theorem NodeState.Anchored.lastblock_in (h : s.Anchored P root tip) {listed : ListedWallet P}
    {params : Option (Uint256 × Option ℤ)} {transactions : List (Uint256 × CWalletTx)}
    {lastblock : Uint256}
    (hcall : s.listSinceBlock P listed params = .ok (transactions, lastblock)) :
    lastblock = 0 ∨ ∃ p : CBlockIndex, p.In s.mapBlockIndex ∧ p.phashBlock = lastblock := by
  rw [NodeState.listSinceBlock] at hcall
  simp only at hcall
  split at hcall
  next => cases hcall
  next =>
    split at hcall
    next =>
      obtain ⟨-, rfl⟩ := Prod.mk.inj (Except.ok.inj hcall)
      exact .inr ⟨tip, h.indexed, h.hashBestChain.symm⟩
    next =>
      rw [h.pindexBest, h.bestWalk_eq] at hcall
      obtain ⟨-, rfl⟩ := Prod.mk.inj (Except.ok.inj hcall)
      rw [lastBlock]
      split
      next => exact .inl rfl
      next p walk hdrop =>
        have hmem : p ∈ walkOf s.mapBlockIndex tip :=
          (List.dropWhile_suffix _).subset (hdrop ▸ List.mem_cons_self)
        exact .inr ⟨p, h.tree.in_of_mem_walkOf h.indexed p hmem, rfl⟩

/-- A block of the tree stays in it. -/
theorem NodeState.Anchored.in_next {e : NodeEvent} (h : s.Anchored P root tip)
    (hp : p.In s.mapBlockIndex) : p.In (s.next P e).mapBlockIndex := by
  cases e with
  | store env block =>
    rw [NodeState.next]
    rcases s.acceptBlock_cases P env block with ⟨hstore, -⟩ | ⟨S, hstore, -⟩
    · rw [hstore]
      exact hp
    · rw [hstore]
      exact S.in_result hp
  | switch env block q =>
    rw [NodeState.next]
    rcases s.setBestChain_cases P env block q with ⟨s', hok, hswitch⟩ | ⟨r, s', herr, hsame⟩
    · rw [hok]
      exact (hswitch.frame h.genesis).mapBlockIndex ▸ hp
    · rw [herr]
      exact hsame.mapBlockIndex ▸ hp
  | relay mempool wallets mapOrphanBlocks mapOrphanBlocksByPrev => exact hp

theorem NodeState.Anchored.run (h : s.Anchored P root tip) {es : List NodeEvent}
    (hes : (nodeSystem P).Allows (fun _ _ => True) s es) :
    (∃ tip', ((nodeSystem P).run s es).Anchored P root tip') ∧
      ∀ p : CBlockIndex, p.In s.mapBlockIndex → p.In ((nodeSystem P).run s es).mapBlockIndex := by
  induction es generalizing s tip with
  | nil => exact ⟨⟨tip, h⟩, fun _ hp => hp⟩
  | cons e es ih =>
    obtain ⟨⟨hlegal, -⟩, hrest⟩ := hes
    obtain ⟨tip', hnext⟩ := h.next hlegal
    obtain ⟨htip, hin⟩ := ih hnext hrest
    exact ⟨htip, fun p hp => hin p (h.in_next hp)⟩

/-- **No transaction is missed between two calls.** Whatever extends and reorganises the chain after
a call has returned `lastblock`, its block is still in the tree, and a call for `lastblock` lists
every wallet transaction that is not confirmed then, or is confirmed in a block that is neither
`lastblock` nor below it. -/
theorem listSinceBlock_complete (h : Reachable (nodeSystem P) s) {listed : ListedWallet P}
    {params : Option (Uint256 × Option ℤ)} {transactions : List (Uint256 × CWalletTx)}
    {lastblock : Uint256}
    (hcall : s.listSinceBlock P listed params = .ok (transactions, lastblock))
    {es : List NodeEvent} (hes : (nodeSystem P).Allows (fun _ _ => True) s es)
    (listed' : ListedWallet P) {target_confirms : Option ℤ} (htarget : 1 ≤ target_confirms.getD 1) :
    let s' := (nodeSystem P).run s es
    (lastblock = 0 ∨ ∃ p : CBlockIndex, p.In s'.mapBlockIndex ∧ p.phashBlock = lastblock) ∧
      ∃ transactions' lastblock', s'.listSinceBlock P listed' (some (lastblock, target_confirms)) =
          .ok (transactions', lastblock') ∧
        ∀ hash wtx, listed'.wallet.mapWallet.lookup hash = some wtx →
          s'.IsSince P lastblock wtx (listed'.fMerkleVerified hash) →
            (hash, wtx) ∈ transactions' := by
  intro s'
  obtain ⟨root, tip, hanchored⟩ := anchored_of_reachable h
  obtain ⟨⟨tip', hanchored'⟩, hin⟩ := hanchored.run hes
  refine ⟨(hanchored.lastblock_in hcall).imp_right ?_, hanchored'.listSinceBlock listed' lastblock
    htarget⟩
  rintro ⟨p, hp, hhash⟩
  exact ⟨p, hin p hp, hhash⟩

/-! ## A block that is reorganised away -/

/-- A wallet transaction that names the second block of the other branch. -/
def exampleSince : CWalletTx := { CWalletTx.ofTx (exampleCoinbase 4 [50]) with hashBlock := 22, nIndex := 0 }

/-- A wallet with that transaction. -/
def exampleListed : ListedWallet exampleParams where
  wallet := ⟨(∅ : StdMap Uint256 CWalletTx).insert (exampleHash 4) exampleSince, fun _ => true, 0⟩
  fMerkleVerified _ := false
  offGenesis := by
    intro hash wtx hlookup
    replace hlookup : ((∅ : StdMap Uint256 CWalletTx).insert (exampleHash 4) exampleSince).lookup
        hash = some wtx := hlookup
    rw [lookup_insert_eq_ite, Finmap.lookup_empty, Option.ite_none_right_eq_some,
      Option.some.injEq] at hlookup
    rw [← hlookup.2]
    decide

/-- The events from the first branch to the other one. -/
def reorganizing : List NodeEvent :=
  [.store exampleEnv blockB1, .store exampleEnv blockB2, .store exampleEnv (blockB3 50),
    .switch exampleEnv (blockB3 50) (storedNode.indexOf 23)]

/-- The transaction is listed by a call for the tip of the first branch. -/
theorem listSinceBlock_complete_reorganizing :
    ∃ transactions lastblock,
      ((nodeSystem exampleParams).run switchedA1 reorganizing).listSinceBlock exampleParams
          exampleListed (some (11, none)) = .ok (transactions, lastblock) ∧
        (exampleHash 4, exampleSince) ∈ transactions := by
  have hgenesis : (genesisNode []).Loaded exampleParams := loaded_genesisNode (by decide +kernel)
  have hchecked : ∀ {block : CBlock}, (block.checkBlock exampleParams 1400009000).isOk = true →
      ∃ t u, block.checkBlock exampleParams t = .ok u := by
    intro block h
    obtain ⟨u, hu⟩ := exists_of_isOk h
    exact ⟨_, u, hu⟩
  have hstored : Reachable (nodeSystem exampleParams) storedA1 :=
    reachable_next (.start hgenesis) (.store exampleEnv blockA1) (hchecked (by decide +kernel))
  have hswitched : Reachable (nodeSystem exampleParams) switchedA1 :=
    reachable_next hstored (.switch exampleEnv blockA1 (storedA1.indexOf 11))
      ⟨by decide +kernel, by decide +kernel⟩
  have hes : (nodeSystem exampleParams).Allows (fun _ _ => True) switchedA1 reorganizing :=
    ⟨⟨hchecked (by decide +kernel), trivial⟩, ⟨hchecked (by decide +kernel), trivial⟩,
      ⟨hchecked (by decide +kernel), trivial⟩, ⟨⟨by decide +kernel, by decide +kernel⟩, trivial⟩,
      trivial⟩
  have hcall : switchedA1.listSinceBlock exampleParams exampleListed none =
      .ok (exampleListed.wallet.inOrder.filter fun _ => true, switchedA1.hashBestChain) := rfl
  have hlast : switchedA1.hashBestChain = 11 := by decide +kernel
  rw [hlast] at hcall
  have htarget : 1 ≤ (none : Option ℤ).getD 1 := le_rfl
  obtain ⟨-, transactions, lastblock, hlater, hlists⟩ :=
    listSinceBlock_complete hswitched hcall hes exampleListed htarget
  refine ⟨transactions, lastblock, hlater, hlists _ exampleSince (Finmap.lookup_insert _) (.inr ?_)⟩
  refine ⟨((nodeSystem exampleParams).run switchedA1 reorganizing).indexOf 22,
    ⟨by decide +kernel, by decide +kernel⟩, fun p hp => ?_⟩
  have hbelow : (((nodeSystem exampleParams).run switchedA1 reorganizing).mapBlockIndex.lookup 11).all
      (fun p => decide (((nodeSystem exampleParams).run switchedA1 reorganizing).indexOf 22 ∉
        ((nodeSystem exampleParams).run switchedA1 reorganizing).walkFrom p)) = true := by
    decide +kernel
  rw [hp, Option.all_some] at hbelow
  exact of_decide_eq_true hbelow

end FoxCoin
