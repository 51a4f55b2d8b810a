import FoxCoin.Locator
import FoxCoin.InvRelay
import FoxCoin.Reaccept

/-! # Asking for blocks

A node asks a peer for the blocks after a locator. The peer announces the next 500 blocks of its main
chain, and the node asks for those that it lacks. When it has the last one already, as on a long side
chain, it asks again from that block, and so finds the first block of the main chain that it
lacks. -/

namespace FoxCoin

open Overlay Runs

/-! ## The answer to `getblocks` -/

/-- `pindex->pnext`. -/
def NodeState.nextOf (s : NodeState) (pindex : CBlockIndex) : Option CBlockIndex :=
  (s.pnext.lookup pindex.phashBlock).bind s.mapBlockIndex.lookup

/-- The loop of `getblocks` for at most `nLimit` blocks: the hashes that it announces, and
`hashContinue` when the limit ends it. -/
def NodeState.getBlocksLoop (s : NodeState) (hashStop : Uint256) :
    ℕ → Option CBlockIndex → List Uint256 × Option Uint256
  | 0, _ => ([], none)
  | _ + 1, none => ([], none)
  | nLimit + 1, some pindex =>
    if pindex.phashBlock = hashStop then ([], none)
    else if nLimit = 0 then ([pindex.phashBlock], some pindex.phashBlock)
    else
      let rest := s.getBlocksLoop hashStop nLimit (s.nextOf pindex)
      (pindex.phashBlock :: rest.1, rest.2)

/-- The inventory item of a block. -/
def blockInv (hash : Uint256) : CInv := ⟨msgBlock, hash⟩

/-- The side that is asked: the node, what it keeps of the peer, and `hashContinue`. -/
structure SyncServer where
  node : NodeState
  peer : InvPeer
  hashContinue : Uint256

/-- The message `getblocks`. -/
def SyncServer.getblocks (vHave : List Uint256) (hashStop : Uint256) (server : SyncServer) :
    SyncServer :=
  -- find the last block the caller has in the main chain, and send the rest of the chain
  let pindex := (server.node.getBlockIndex vHave).bind server.node.nextOf
  let found := server.node.getBlocksLoop hashStop 500 pindex
  { server with
    peer := (found.1.map blockInv).foldl InvPeer.pushInventory server.peer
    hashContinue := found.2.getD server.hashContinue }

/-! ## The message `inv` -/

/-- The side that asks: the node, what it keeps of the last `getblocks`, the `getblocks` messages that
it has sent, and the items that it has asked for. -/
structure SyncCaller where
  node : NodeState
  pindexLastGetBlocksBegin : Option CBlockIndex
  hashLastGetBlocksEnd : Uint256
  vSend : List (List Uint256 × Uint256)
  asked : List CInv

/-- `CNode::PushGetBlocks`. -/
def SyncCaller.pushGetBlocks (P : Params) (pindexBegin : Option CBlockIndex) (hashEnd : Uint256)
    (caller : SyncCaller) : SyncCaller :=
  -- filter out duplicate requests
  if pindexBegin = caller.pindexLastGetBlocksBegin ∧ hashEnd = caller.hashLastGetBlocksEnd then caller
  else
    { caller with
      pindexLastGetBlocksBegin := pindexBegin
      hashLastGetBlocksEnd := hashEnd
      vSend := caller.vSend ++
        [(CBlockLocator.set P ((pindexBegin.map caller.node.walkFrom).getD []), hashEnd)] }

/-- `AlreadyHave`. -/
def NodeState.alreadyHave (s : NodeState) (fHaveTx : Uint256 → Bool) (inv : CInv) : Bool :=
  if inv.type = msgTx then fHaveTx inv.hash
  else if inv.type = msgBlock then
    decide (inv.hash ∈ s.mapBlockIndex) || decide (inv.hash ∈ s.mapOrphanBlocks)
  -- don't know what it is, just say we already got one
  else true

/-- The loop of `GetOrphanRoot`, for at most as many rounds as there are orphans. -/
def NodeState.orphanRootLoop (s : NodeState) : ℕ → CBlock → CBlock
  | 0, pblock => pblock
  | nFuel + 1, pblock =>
    match s.mapOrphanBlocks.lookup pblock.hashPrevBlock with
    | some pprev => s.orphanRootLoop nFuel pprev
    | none => pblock

/-- `GetOrphanRoot`. -/
def NodeState.getOrphanRoot (P : Params) (s : NodeState) (pblock : CBlock) : Uint256 :=
  (s.orphanRootLoop s.mapOrphanBlocks.keys.card pblock).getHash P

/-- `nLastBlock`: the place of the last block in a message. -/
def lastBlockItem (vInv : List CInv) : Option ℕ :=
  (List.range vInv.length).reverse.find? fun nInv => (vInv[nInv]?).any fun inv =>
    decide (inv.type = msgBlock)

/-- A round of the loop of `inv`. -/
def SyncCaller.hearItem (P : Params) (fHaveTx : Uint256 → Bool) (nLastBlock : Option ℕ)
    (caller : SyncCaller) (item : CInv × ℕ) : SyncCaller :=
  if !caller.node.alreadyHave fHaveTx item.1 then { caller with asked := caller.asked ++ [item.1] }
  else
    match if item.1.type = msgBlock then caller.node.mapOrphanBlocks.lookup item.1.hash else none with
    | some pblock =>
      caller.pushGetBlocks P caller.node.pindexBest (caller.node.getOrphanRoot P pblock)
    | none =>
      -- on a very long side-chain, it is possible that the last block is here already
      if some item.2 = nLastBlock then
        caller.pushGetBlocks P (caller.node.mapBlockIndex.lookup item.1.hash) 0
      else caller

/-- The message `inv`, for what concerns the requests for blocks. -/
def SyncCaller.inv (P : Params) (fHaveTx : Uint256 → Bool) (vInv : List CInv) (caller : SyncCaller) :
    SyncCaller :=
  if 50000 < vInv.length then caller
  else vInv.zipIdx.foldl (SyncCaller.hearItem P fHaveTx (lastBlockItem vInv)) caller

/-! ## The main chain from below -/

/-- The main chain, from the genesis block up. -/
def NodeState.chainUp (s : NodeState) : List CBlockIndex := s.bestWalk.reverse

variable {P : Params} {s : NodeState} {root tip p q : CBlockIndex}

theorem NodeState.OnChain.bestWalk_eq (h : s.OnChain P root tip) :
    s.bestWalk = walkOf s.mapBlockIndex tip := by
  rw [bestWalk, h.pindexBest]
  rfl

theorem NodeState.OnChain.in_of_mem_chainUp (h : s.OnChain P root tip) (hq : q ∈ s.chainUp) :
    q.In s.mapBlockIndex := by
  rw [chainUp, List.mem_reverse, h.bestWalk_eq] at hq
  exact h.tree.in_of_mem_walkOf h.indexed q hq

/-- The blocks of the main chain have distinct hashes. -/
theorem NodeState.OnChain.hash_inj (h : s.OnChain P root tip) {i j : ℕ} (hi : s.chainUp[i]? = some p)
    (hj : s.chainUp[j]? = some q) (heq : p.phashBlock = q.phashBlock) : i = j := by
  have hnodup : (s.chainUp.map CBlockIndex.phashBlock).Nodup := by
    rw [chainUp, List.map_reverse, List.nodup_reverse, h.bestWalk_eq, List.Nodup, List.pairwise_map]
    exact h.tree.hashes h.indexed
  refine (List.nodup_iff_getElem?_ne_getElem?.mp hnodup |> fun hne => ?_)
  by_contra hdiff
  have hmap : ∀ {k : ℕ} {r : CBlockIndex}, s.chainUp[k]? = some r →
      (s.chainUp.map CBlockIndex.phashBlock)[k]? = some r.phashBlock := by
    intro k r hk
    rw [List.getElem?_map, hk]
    rfl
  rcases Nat.lt_or_gt_of_ne hdiff with hlt | hlt
  · refine hne i j hlt ?_ (by rw [hmap hi, hmap hj, heq])
    simpa using (List.getElem?_eq_some_iff.mp hj).1
  · refine hne j i hlt ?_ (by rw [hmap hi, hmap hj, heq])
    simpa using (List.getElem?_eq_some_iff.mp hi).1

/-- **`pnext` leads up the main chain.** -/
theorem NodeState.OnChain.nextOf_eq (h : s.OnChain P root tip) {i : ℕ}
    (hi : s.chainUp[i]? = some p) : s.nextOf p = s.chainUp[i + 1]? := by
  obtain ⟨hlt, hget⟩ := List.getElem?_eq_some_iff.mp hi
  have hsplit : s.chainUp = s.chainUp.take i ++ p :: s.chainUp.drop (i + 1) := by
    rw [← hget, ← List.drop_eq_getElem_cons hlt, List.take_append_drop]
  have hwalk : s.bestWalk = (s.chainUp.drop (i + 1)).reverse ++ p :: (s.chainUp.take i).reverse := by
    rw [← List.reverse_reverse s.bestWalk]
    show s.chainUp.reverse = _
    conv_lhs => rw [hsplit]
    simp
  have hdist := h.tree.hashes h.indexed
  rw [← h.bestWalk_eq, hwalk] at hdist
  have hpnext : s.pnext = links ((s.chainUp.drop (i + 1)).reverse ++
      p :: (s.chainUp.take i).reverse) := by
    rw [h.pnext, walkFrom_eq, ← h.bestWalk_eq, hwalk]
  rw [nextOf, hpnext, lookup_links hdist, List.getLast?_reverse, List.head?_drop]
  cases hnext : s.chainUp[i + 1]? with
  | none => rfl
  | some q => exact h.in_of_mem_chainUp (List.mem_of_getElem? hnext)

/-- The batch that `getblocks` announces from a place of the main chain on. -/
def NodeState.batch (s : NodeState) (hashStop : Uint256) (nLimit i : ℕ) : List Uint256 :=
  (((s.chainUp.drop i).map CBlockIndex.phashBlock).takeWhile (· ≠ hashStop)).take nLimit

/-- **The loop of `getblocks`** announces a batch, and `hashContinue` is the last block of a full
one. -/
theorem NodeState.OnChain.getBlocksLoop_eq (h : s.OnChain P root tip) (hashStop : Uint256)
    (nLimit i : ℕ) : s.getBlocksLoop hashStop nLimit s.chainUp[i]? =
      (s.batch hashStop nLimit i,
        if (s.batch hashStop nLimit i).length = nLimit then (s.batch hashStop nLimit i).getLast?
        else none) := by
  induction nLimit generalizing i with
  | zero => simp [getBlocksLoop, batch]
  | succ nLimit ih =>
    cases hi : s.chainUp[i]? with
    | none =>
      have hdrop : s.chainUp.drop i = [] := List.drop_eq_nil_iff.mpr (List.getElem?_eq_none_iff.mp hi)
      simp [getBlocksLoop, batch, hdrop]
    | some pindex =>
      have hdrop : s.chainUp.drop i = pindex :: s.chainUp.drop (i + 1) := by
        obtain ⟨hlt, rfl⟩ := List.getElem?_eq_some_iff.mp hi
        exact List.drop_eq_getElem_cons hlt
      rw [getBlocksLoop]
      by_cases hstop : pindex.phashBlock = hashStop
      · rw [if_pos hstop]
        simp [batch, hdrop, hstop]
      have hbatch : s.batch hashStop (nLimit + 1) i =
          pindex.phashBlock :: s.batch hashStop nLimit (i + 1) := by
        simp [batch, hdrop, hstop]
      rw [if_neg hstop, hbatch]
      by_cases hlast : nLimit = 0
      · rw [if_pos hlast, hlast]
        simp [batch]
      rw [if_neg hlast, h.nextOf_eq hi, ih (i + 1)]
      refine Prod.ext rfl ?_
      simp only [List.length_cons, Nat.add_right_cancel_iff]
      split_ifs with hfull
      · -- a full batch goes on after its first block
        have hne : s.batch hashStop nLimit (i + 1) ≠ [] := by
          intro hnil
          rw [hnil] at hfull
          exact hlast hfull.symm
        rw [List.getLast?_cons, List.getLast?_eq_some_getLast hne, Option.getD_some]
      · rfl

/-! ## The messages in between -/

theorem MruSet.insert_new {T : Type} [DecidableEq T] {m : MruSet T} {x : T} (h : x ∉ m.set) :
    (m.insert x).2 = true := by
  rw [MruSet.insert, if_neg h]

/-- An insertion adds nothing but its element. -/
theorem MruSet.mem_insert_set {T : Type} [DecidableEq T] {m : MruSet T} {x y : T}
    (h : y ∈ (m.insert x).1.set) : y = x ∨ y ∈ m.set := by
  have hpop : ∀ m' : MruSet T, m'.popFront.set ⊆ m'.set := by
    intro m'
    rw [MruSet.popFront]
    split
    · exact Finset.Subset.refl _
    · exact Finset.erase_subset _ _
  rw [MruSet.insert] at h
  split_ifs at h with hmem
  · exact .inr h
  · dsimp only at h
    split_ifs at h
    · exact Finset.mem_insert.mp (hpop _ h)
    · exact Finset.mem_insert.mp h

/-- Items that the peer does not know are queued. -/
theorem InvPeer.foldl_pushInventory (peer : InvPeer) {l : List CInv}
    (hfresh : ∀ inv ∈ l, inv ∉ peer.setInventoryKnown.set) :
    l.foldl InvPeer.pushInventory peer =
      { peer with vInventoryToSend := peer.vInventoryToSend ++ l, pushed := peer.pushed ++ l } := by
  induction l generalizing peer with
  | nil => simp
  | cons inv l ih =>
    obtain ⟨hinv, hl⟩ := List.forall_mem_cons.mp hfresh
    have hpush : peer.pushInventory inv =
        { peer with
          vInventoryToSend := peer.vInventoryToSend ++ [inv], pushed := peer.pushed ++ [inv] } := by
      rw [InvPeer.pushInventory]
      exact if_neg hinv
    rw [List.foldl_cons, hpush]
    refine (ih _ ?_).trans ?_
    · exact hl
    · simp

/-- What the loop of `SendMessages` makes of blocks that the peer does not know and that fit into the
message. -/
theorem InvBatch.foldl_round (fSendTrickle : Bool) (fTrickleWait : CInv → Bool) (b : InvBatch)
    {l : List CInv} (hblock : ∀ inv ∈ l, inv.type = msgBlock) (hnodup : l.Nodup)
    (hfresh : ∀ inv ∈ l, inv ∉ b.setInventoryKnown.set) (hroom : b.vInv.length + l.length < 1000) :
    let b' := l.foldl (InvBatch.round fSendTrickle fTrickleWait) b
    b'.vInv = b.vInv ++ l ∧ b'.vInvWait = b.vInvWait ∧ b'.vSend = b.vSend ∧
      b'.nVersion = b.nVersion ∧
      ∀ inv ∈ b'.setInventoryKnown.set, inv ∈ b.setInventoryKnown.set ∨ inv ∈ l := by
  induction l generalizing b with
  | nil => simp
  | cons inv l ih =>
    obtain ⟨hinv, hl⟩ := List.forall_mem_cons.mp hfresh
    obtain ⟨htype, hblock⟩ := List.forall_mem_cons.mp hblock
    obtain ⟨hnot, hnodup⟩ := List.nodup_cons.mp hnodup
    rw [List.length_cons] at hroom
    have hround : b.round fSendTrickle fTrickleWait inv =
        { b with
          toInvPeer := (b.toInvPeer.insertKnown true inv).1, vInv := b.vInv ++ [inv] } := by
      have hfull : ¬1000 ≤ (b.vInv ++ [inv]).length := by
        rw [List.length_append, List.length_singleton]
        omega
      rw [InvBatch.round, if_neg hinv, if_neg fun h => absurd (htype.symm.trans h.1) (by decide)]
      show (if (b.setInventoryKnown.insert inv).2 = true then _ else _) = _
      rw [if_pos (MruSet.insert_new hinv), InvBatch.flush]
      exact if_neg hfull
    have hrest : ∀ inv' ∈ l, inv' ∉ (b.setInventoryKnown.insert inv).1.set := by
      intro inv' hin hmem
      rcases MruSet.mem_insert_set hmem with rfl | hold
      · exact hnot hin
      · exact hl inv' hin hold
    obtain ⟨hvInv, hwait, hsend, hversion, hset⟩ := ih (b.round fSendTrickle fTrickleWait inv)
      hblock hnodup (by rw [hround]; exact hrest)
      (by rw [hround, List.length_append, List.length_singleton]; omega)
    rw [List.foldl_cons]
    refine ⟨?_, ?_, ?_, ?_, fun inv' hin => ?_⟩
    · rw [hvInv, hround, List.append_assoc, List.singleton_append]
    · rw [hwait, hround]
    · rw [hsend, hround]
      rfl
    · rw [hversion, hround]
      rfl
    · rcases hset inv' hin with hmem | hmem
      · rw [hround] at hmem
        rcases MruSet.mem_insert_set hmem with rfl | hold
        · exact .inr List.mem_cons_self
        · exact .inl hold
      · exact .inr (List.mem_cons_of_mem _ hmem)

/-- **A queue of blocks that the peer does not know** goes out in one message. -/
theorem InvPeer.sendInventory_blocks (fSendTrickle : Bool) (fTrickleWait : CInv → Bool)
    {peer : InvPeer} (hversion : peer.nVersion ≠ 0) (hne : peer.vInventoryToSend ≠ [])
    (hblock : ∀ inv ∈ peer.vInventoryToSend, inv.type = msgBlock)
    (hnodup : peer.vInventoryToSend.Nodup) (hlen : peer.vInventoryToSend.length < 1000)
    (hfresh : ∀ inv ∈ peer.vInventoryToSend, inv ∉ peer.setInventoryKnown.set) :
    let peer' := peer.sendInventory fSendTrickle fTrickleWait
    peer'.vSend = peer.vSend ++ [peer.vInventoryToSend] ∧ peer'.vInventoryToSend = [] ∧
      peer'.nVersion = peer.nVersion ∧ ∀ inv ∈ peer'.setInventoryKnown.set,
        inv ∈ peer.setInventoryKnown.set ∨ inv ∈ peer.vInventoryToSend := by
  obtain ⟨hvInv, hwait, hsend, hversion', hset⟩ := InvBatch.foldl_round fSendTrickle
    fTrickleWait ⟨peer, [], []⟩ hblock hnodup hfresh (by simpa using hlen)
  rw [List.nil_append] at hvInv
  rw [InvPeer.sendInventory, if_neg hversion]
  dsimp only
  rw [if_pos (by rw [hvInv]; exact hne)]
  refine ⟨?_, hwait, hversion', hset⟩
  show _ ++ [_] = _
  rw [hvInv]
  exact congrArg (· ++ [peer.vInventoryToSend]) hsend

/-- Nothing goes out of an empty queue. -/
theorem InvPeer.sendInventory_nil {fSendTrickle : Bool} {fTrickleWait : CInv → Bool}
    {peer : InvPeer} (hnil : peer.vInventoryToSend = []) :
    peer.sendInventory fSendTrickle fTrickleWait = peer := by
  rw [InvPeer.sendInventory]
  split_ifs
  · rfl
  · rw [hnil]
    obtain ⟨nVersion, nStartingHeight, setInventoryKnown, vInventoryToSend, vSend, pushed, known⟩ :=
      peer
    obtain rfl := hnil
    rfl

/-- The last block of a message of blocks is its last item. -/
theorem lastBlockItem_concat (vInv : List CInv) {inv : CInv} (htype : inv.type = msgBlock) :
    lastBlockItem (vInv ++ [inv]) = some vInv.length := by
  rw [lastBlockItem, List.length_append, List.length_singleton, List.range_succ, List.reverse_append,
    List.reverse_singleton, List.singleton_append, List.find?_cons_of_pos]
  simp [htype]

variable {fHaveTx : Uint256 → Bool}

/-- Blocks that are not orphans are there when they are in the tree. -/
theorem NodeState.alreadyHave_block {inv : CInv} (htype : inv.type = msgBlock)
    (horphan : inv.hash ∉ s.mapOrphanBlocks) :
    s.alreadyHave fHaveTx inv = decide (inv.hash ∈ s.mapBlockIndex) := by
  have hne : inv.type ≠ msgTx := by
    rw [htype]
    decide
  rw [alreadyHave, if_neg hne, if_pos htype, decide_eq_false horphan, Bool.or_false]

/-- Before the last item, the blocks that are not there are asked for. -/
theorem SyncCaller.foldl_hearItem {nLastBlock : Option ℕ} {l : List CInv} (k : ℕ)
    (hblock : ∀ inv ∈ l, inv.type = msgBlock) (caller : SyncCaller)
    (horphan : ∀ inv ∈ l, inv.hash ∉ caller.node.mapOrphanBlocks)
    (hbefore : ∀ i < l.length, nLastBlock ≠ some (k + i)) :
    (l.zipIdx k).foldl (SyncCaller.hearItem P fHaveTx nLastBlock) caller =
      { caller with
        asked := caller.asked ++
          l.filter fun inv => !decide (inv.hash ∈ caller.node.mapBlockIndex) } := by
  induction l generalizing k caller with
  | nil => simp
  | cons inv l ih =>
    obtain ⟨htype, hblock⟩ := List.forall_mem_cons.mp hblock
    obtain ⟨hnot, horphan⟩ := List.forall_mem_cons.mp horphan
    have hfirst : nLastBlock ≠ some k := hbefore 0 (by simp)
    have hrest : ∀ i < l.length, nLastBlock ≠ some (k + 1 + i) := by
      intro i hi
      rw [Nat.add_assoc, Nat.add_comm 1 i]
      exact hbefore (i + 1) (by rw [List.length_cons]; omega)
    rw [List.zipIdx_cons, List.foldl_cons]
    have hround : caller.hearItem P fHaveTx nLastBlock (inv, k) =
        if inv.hash ∈ caller.node.mapBlockIndex then caller
        else { caller with asked := caller.asked ++ [inv] } := by
      rw [hearItem, NodeState.alreadyHave_block htype hnot]
      by_cases hmem : inv.hash ∈ caller.node.mapBlockIndex
      · have hlookup : caller.node.mapOrphanBlocks.lookup inv.hash = none :=
          Finmap.lookup_eq_none.mpr hnot
        simp only [hmem, htype, hlookup, decide_true, Bool.not_true, Bool.false_eq_true, if_false,
          if_true]
        rw [if_neg (Ne.symm hfirst)]
      · simp [hmem]
    rw [hround]
    by_cases hmem : inv.hash ∈ caller.node.mapBlockIndex
    · rw [if_pos hmem, ih (k + 1) hblock caller horphan hrest, List.filter_cons_of_neg (by simp [hmem])]
    · rw [if_neg hmem, List.filter_cons_of_pos (by simp [hmem])]
      refine (ih (k + 1) hblock { caller with asked := caller.asked ++ [inv] } horphan hrest).trans ?_
      simp

variable (P) (fHaveTx) in
/-- **A message of blocks**: those that are not there are asked for, and when the last one is there
already, the blocks after it. -/
theorem SyncCaller.inv_blocks {l : List CInv} {inv : CInv}
    (hblock : ∀ inv' ∈ l ++ [inv], inv'.type = msgBlock) (caller : SyncCaller)
    (horphan : ∀ inv' ∈ l ++ [inv], inv'.hash ∉ caller.node.mapOrphanBlocks)
    (hlen : (l ++ [inv]).length ≤ 50000) :
    caller.inv P fHaveTx (l ++ [inv]) =
      if inv.hash ∈ caller.node.mapBlockIndex then
        SyncCaller.pushGetBlocks P (caller.node.mapBlockIndex.lookup inv.hash) 0
          { caller with
            asked := caller.asked ++
              l.filter fun inv => !decide (inv.hash ∈ caller.node.mapBlockIndex) }
      else
        { caller with
          asked := caller.asked ++
            (l ++ [inv]).filter fun inv => !decide (inv.hash ∈ caller.node.mapBlockIndex) } := by
  have htype := hblock inv (List.mem_append_right _ List.mem_cons_self)
  have hnot := horphan inv (List.mem_append_right _ List.mem_cons_self)
  rw [SyncCaller.inv, if_neg (by omega), lastBlockItem_concat l htype, List.zipIdx_append,
    List.foldl_append, foldl_hearItem 0 (fun i hi => hblock i (List.mem_append_left _ hi)) caller
      (fun i hi => horphan i (List.mem_append_left _ hi)) (fun i hi heq => by
        have := Option.some.inj heq
        omega)]
  simp only [List.zipIdx_singleton, List.foldl_cons, List.foldl_nil, Nat.zero_add]
  rw [hearItem, NodeState.alreadyHave_block htype hnot]
  by_cases hmem : inv.hash ∈ caller.node.mapBlockIndex
  · have hlookup : caller.node.mapOrphanBlocks.lookup inv.hash = none :=
      Finmap.lookup_eq_none.mpr hnot
    simp only [hmem, htype, hlookup, decide_true, Bool.not_true, Bool.false_eq_true, if_false,
      if_true]
  · simp [hmem]

/-! ## The exchange -/

/-- Both sides, with how many `getblocks` messages and how many `inv` messages have arrived. Messages
arrive in the order in which they are sent. -/
structure SyncState where
  server : SyncServer
  caller : SyncCaller
  nServed : ℕ
  nHeard : ℕ

/-- What may happen next, in any order: a `getblocks` message arrives, `SendMessages` is called, or an
`inv` message arrives. -/
inductive SyncEvent
  | serve
  | send (fSendTrickle : Bool)
  | hear

variable (P) (fHaveTx) (fTrickleWait : CInv → Bool)

/-- The effect of an event. -/
def SyncState.next (s : SyncState) : SyncEvent → SyncState
  | .serve =>
    match s.caller.vSend[s.nServed]? with
    | none => s
    | some m => { s with server := s.server.getblocks m.1 m.2, nServed := s.nServed + 1 }
  | .send fSendTrickle =>
    { s with
      server :=
        { s.server with peer := s.server.peer.sendInventory fSendTrickle fTrickleWait } }
  | .hear =>
    match s.server.peer.vSend[s.nHeard]? with
    | none => s
    | some vInv => { s with caller := s.caller.inv P fHaveTx vInv, nHeard := s.nHeard + 1 }

/-- Two nodes of which one has parts of the main chain of the other. The blocks that both have stand
on the same blocks. -/
structure SyncPair (N C : NodeState) (root tip croot p : CBlockIndex) : Prop where
  server : N.OnChain P root tip
  caller : IsTree C.mapBlockIndex croot
  genesis : croot.phashBlock = P.hashGenesisBlock
  pindexBest : C.pindexBest = some p
  indexed : p.In C.mapBlockIndex
  agree : ∀ q ∈ N.chainUp, ∀ q', C.mapBlockIndex.lookup q.phashBlock = some q' → q'.pprev = q.pprev
  orphans : ∀ q ∈ N.chainUp, q.phashBlock ∉ C.mapOrphanBlocks
  notNull : ∀ q ∈ N.chainUp, q.phashBlock ≠ 0

/-- The start: the node that lacks blocks sends its first `getblocks`, to a peer that has nothing to
send and knows nothing of what the node has. -/
structure SyncState.Starts (N C : NodeState) (s : SyncState) : Prop where
  server_node : s.server.node = N
  nVersion : s.server.peer.nVersion ≠ 0
  queue : s.server.peer.vInventoryToSend = []
  fresh : ∀ q ∈ N.chainUp, blockInv q.phashBlock ∉ s.server.peer.setInventoryKnown.set
  caller : s.caller = SyncCaller.pushGetBlocks P C.pindexBest 0 ⟨C, none, 0, [], []⟩
  nServed : s.nServed = 0
  nHeard : s.nHeard = s.server.peer.vSend.length

/-- The exchange between two nodes. -/
def syncSystem (N C : NodeState) : System SyncState SyncEvent where
  start := SyncState.Starts P N C
  legal := fun _ _ => True
  next := SyncState.next P fHaveTx fTrickleWait

variable {P fHaveTx fTrickleWait} {N C : NodeState} {croot : CBlockIndex}

/-! ## What the caller has -/

/-- A block of the main chain stands on the one below it. -/
theorem NodeState.OnChain.pprev_eq (h : s.OnChain P root tip) {i : ℕ} (hi : s.chainUp[i]? = some p)
    (hj : s.chainUp[i + 1]? = some q) : q.pprev = some p.phashBlock := by
  have hq := h.in_of_mem_chainUp (List.mem_of_getElem? hj)
  have hnext := h.nextOf_eq hi
  obtain ⟨hlt, hget⟩ := List.getElem?_eq_some_iff.mp hj
  obtain ⟨hlt', hget'⟩ := List.getElem?_eq_some_iff.mp hi
  have hsplit : s.chainUp = s.chainUp.take i ++ p :: q :: s.chainUp.drop (i + 2) := by
    rw [← hget, ← List.drop_eq_getElem_cons hlt, ← hget', ← List.drop_eq_getElem_cons hlt',
      List.take_append_drop]
  have hwalk : walkOf s.mapBlockIndex tip =
      (s.chainUp.drop (i + 2)).reverse ++ q :: p :: (s.chainUp.take i).reverse := by
    rw [← h.bestWalk_eq, ← List.reverse_reverse s.bestWalk]
    show s.chainUp.reverse = _
    conv_lhs => rw [hsplit]
    simp
  have hwalkq := h.tree.walkOf_of_split h.indexed hwalk
  cases hprev : q.pprev with
  | none =>
    rw [h.tree.walkOf_root hq hprev] at hwalkq
    simp at hwalkq
  | some hash =>
    obtain ⟨r, hr, rfl, -, -⟩ := h.tree.prev hq hprev
    rw [h.tree.walkOf_prev hq hr hprev] at hwalkq
    obtain ⟨-, hrest⟩ := List.cons.inj hwalkq
    obtain ⟨rfl, -⟩ : r = p ∧ _ := List.cons.inj hrest
    rfl

/-- The main chain starts with the genesis block. -/
theorem NodeState.OnChain.chainUp_zero (h : s.OnChain P root tip) : s.chainUp[0]? = some root := by
  rw [chainUp, ← List.head?_eq_getElem?, List.head?_reverse, h.bestWalk_eq,
    h.tree.getLast?_walkOf h.indexed]

/-- **What the caller has of the main chain** reaches up to some height. -/
theorem SyncPair.exists_height (h : SyncPair P N C root tip croot p) :
    ∃ K < N.chainUp.length, ∀ j q, N.chainUp[j]? = some q →
      (q.phashBlock ∈ C.mapBlockIndex ↔ j ≤ K) := by
  classical
  let has : ℕ → Prop := fun j => ∃ q, N.chainUp[j]? = some q ∧ q.phashBlock ∈ C.mapBlockIndex
  have hzero : has 0 := by
    refine ⟨root, h.server.chainUp_zero, ?_⟩
    rw [h.server.root_hash, ← h.genesis]
    exact Finmap.mem_of_lookup_eq_some h.caller.root_mem
  have hdown : ∀ j, has (j + 1) → has j := by
    rintro j ⟨q, hq, hmem⟩
    obtain ⟨q', hq'⟩ := Finmap.mem_iff.mp hmem
    obtain ⟨hlt, -⟩ := List.getElem?_eq_some_iff.mp hq
    obtain ⟨r, hr⟩ : ∃ r, N.chainUp[j]? = some r := ⟨_, List.getElem?_eq_getElem (by omega)⟩
    -- the block below is the previous one of both
    have hprev := (h.agree q (List.mem_of_getElem? hq) q' hq').trans (h.server.pprev_eq hr hq)
    obtain ⟨r', hr', -⟩ := (h.caller.linked _ _ hq').prev _ hprev
    exact ⟨r, hr, Finmap.mem_of_lookup_eq_some hr'⟩
  have hbound : ∀ j, has j → j < N.chainUp.length := by
    rintro j ⟨q, hq, -⟩
    exact (List.getElem?_eq_some_iff.mp hq).1
  have hlow : ∀ d j, has (j + d) → has j := by
    intro d
    induction d with
    | zero => exact fun j hj => hj
    | succ d ih => exact fun j hj => ih j (hdown (j + d) hj)
  have hgreatest := Nat.findGreatest_spec (P := has) (Nat.zero_le N.chainUp.length) hzero
  refine ⟨Nat.findGreatest has N.chainUp.length, hbound _ hgreatest, fun j q hq => ⟨fun hmem => ?_,
    fun hle => ?_⟩⟩
  · have hj : has j := ⟨q, hq, hmem⟩
    exact Nat.le_findGreatest (hbound j hj).le hj
  · obtain ⟨d, hd⟩ := Nat.exists_eq_add_of_le hle
    obtain ⟨q', hq', hmem⟩ := hlow d j (hd ▸ hgreatest)
    rw [hq, Option.some.injEq] at hq'
    subst hq'
    exact hmem

/-- **A locator leads to a block that both have**, and to its own first block when that is in the main
chain. -/
theorem SyncPair.exists_place (h : SyncPair P N C root tip croot p) {K : ℕ}
    (hK : ∀ j q, N.chainUp[j]? = some q → (q.phashBlock ∈ C.mapBlockIndex ↔ j ≤ K))
    (hq : q.In C.mapBlockIndex) :
    ∃ r ≤ K, r < N.chainUp.length ∧
      N.getBlockIndex (CBlockLocator.set P (C.walkFrom q)) = N.chainUp[r]? ∧
      ∀ j qj, N.chainUp[j]? = some qj → qj.phashBlock = q.phashBlock → r = j := by
  have hk : (C.walkFrom q).length ≤ locatorDepth (C.walkFrom q).length :=
    strictMono_locatorDepth.le_apply
  -- the hashes of the locator are of blocks of the caller
  have hmem : ∀ hash ∈ CBlockLocator.set P (C.walkFrom q), hash ∈ C.mapBlockIndex := by
    intro hash hhash
    rw [CBlockLocator.set_eq P _ hk, List.mem_append, List.mem_singleton] at hhash
    rcases hhash with hentry | rfl
    · obtain ⟨qe, hqe, rfl⟩ := List.mem_map.mp hentry
      obtain ⟨i, -, hi⟩ := List.mem_filterMap.mp hqe
      exact Finmap.mem_of_lookup_eq_some (h.caller.in_of_mem_walkOf hq qe (List.mem_of_getElem? hi))
    · rw [← h.genesis]
      exact Finmap.mem_of_lookup_eq_some h.caller.root_mem
  have hfirst : ∃ l, CBlockLocator.set P (C.walkFrom q) = q.phashBlock :: l := by
    have hentries : locatorEntries (C.walkFrom q) 0 (C.walkFrom q).length =
        q :: (List.range' 1 (C.vPrev q).length).filterMap fun i => (C.walkFrom q)[locatorDepth i]? :=
      rfl
    rw [CBlockLocator.set_eq P _ hk, hentries]
    exact ⟨_, rfl⟩
  have hplace : ∀ {r : CBlockIndex}, r ∈ N.bestWalk → ∃ i, N.chainUp[i]? = some r := fun hr =>
    List.mem_iff_getElem?.mp (List.mem_reverse.mpr hr)
  have hown : ∀ (j : ℕ) qj, N.chainUp[j]? = some qj → qj.phashBlock = q.phashBlock →
      N.getBlockIndex (CBlockLocator.set P (C.walkFrom q)) = some qj := by
    intro j qj hj heq
    obtain ⟨l, hl⟩ := hfirst
    have hbest : qj ∈ N.bestWalk := List.mem_reverse.mp (List.mem_of_getElem? hj)
    have hin := h.server.in_of_mem_chainUp (List.mem_of_getElem? hj)
    rw [NodeState.getBlockIndex, hl, List.findSome?_cons, ← heq, h.server.find_eq hin, if_pos hbest]
    rfl
  cases hfind : (CBlockLocator.set P (C.walkFrom q)).findSome? fun hash =>
      (N.mapBlockIndex.lookup hash).filter N.isInMainChain with
  | none =>
    have hanswer : N.getBlockIndex (CBlockLocator.set P (C.walkFrom q)) = some root := by
      rw [NodeState.getBlockIndex, hfind, h.server.genesis]
      rfl
    have hroot := h.server.chainUp_zero
    refine ⟨0, Nat.zero_le _, (List.getElem?_eq_some_iff.mp hroot).1, by rw [hanswer, hroot],
      fun j qj hj heq => ?_⟩
    rw [hown j qj hj heq, Option.some.injEq] at hanswer
    exact h.server.hash_inj hroot hj (by rw [hanswer])
  | some r =>
    have hanswer : N.getBlockIndex (CBlockLocator.set P (C.walkFrom q)) = some r := by
      rw [NodeState.getBlockIndex, hfind]
      rfl
    obtain ⟨hash, hhash, hr⟩ := List.exists_of_findSome?_eq_some hfind
    obtain ⟨hlookup, hmain⟩ := Option.filter_eq_some_iff.mp hr
    have hrhash := h.server.tree.hash_eq _ _ hlookup
    have hrIn : r.In N.mapBlockIndex := by rw [CBlockIndex.In, hrhash, hlookup]
    obtain ⟨i, hi⟩ := hplace ((h.server.isInMainChain_iff hrIn).mp hmain)
    refine ⟨i, (hK i r hi).mp (hrhash ▸ hmem hash hhash), (List.getElem?_eq_some_iff.mp hi).1,
      by rw [hanswer, hi], fun j qj hj heq => ?_⟩
    rw [hown j qj hj heq, Option.some.injEq] at hanswer
    exact h.server.hash_inj hi hj (by rw [hanswer])

/-! ## The phases of the exchange -/

/-- The place in the main chain that the request after `k` others starts from. -/
def NodeState.syncPlace (N : NodeState) (r₀ k : ℕ) : ℕ := min (r₀ + 500 * k) (N.chainUp.length - 1)

/-- The items of the blocks above a place. -/
def NodeState.itemsAbove (N : NodeState) (r : ℕ) : List CInv :=
  (N.chainUp.drop (r + 1)).map fun q => blockInv q.phashBlock

/-- The state of the exchange with the messages on their way: after `k + 1` requests, the requests
that have not arrived, the items that wait to be announced, the announcements that have not arrived,
and what has been asked for. Of the main chain the peer is taken to know nothing above a place. -/
structure SyncState.At (N C : NodeState) (r₀ k : ℕ) (toServe : List (List Uint256 × Uint256))
    (queue : List CInv) (toHear : List (List CInv)) (asked : List CInv) (known : ℕ)
    (s : SyncState) : Prop where
  server_node : s.server.node = N
  caller_node : s.caller.node = C
  nVersion : s.server.peer.nVersion ≠ 0
  length_vSend : s.caller.vSend.length = k + 1
  served : s.caller.vSend.drop s.nServed = toServe
  queued : s.server.peer.vInventoryToSend = queue
  heard : s.server.peer.vSend.drop s.nHeard = toHear
  nServed_le : s.nServed ≤ s.caller.vSend.length
  nHeard_le : s.nHeard ≤ s.server.peer.vSend.length
  asked_eq : s.caller.asked = asked
  fresh : ∀ j q, known < j → N.chainUp[j]? = some q →
    blockInv q.phashBlock ∉ s.server.peer.setInventoryKnown.set
  unasked : ∀ j q, N.syncPlace r₀ k < j → N.chainUp[j]? = some q →
    ∀ q', C.mapBlockIndex.lookup q.phashBlock = some q' →
      s.caller.pindexLastGetBlocksBegin ≠ some q'
  onward : ∀ i < k, r₀ + 500 * i < N.chainUp.length - 1

/-- `hashContinue` is the last block of a full batch. -/
def SyncState.Continues (N : NodeState) (r₀ k : ℕ) (s : SyncState) : Prop :=
  500 ≤ (N.itemsAbove (N.syncPlace r₀ k)).length →
    ((N.itemsAbove (N.syncPlace r₀ k)).take 500).getLast? = some (blockInv s.server.hashContinue)

/-- The exchange is over: everything has arrived, and the blocks of the last batch that are not there
are asked for. -/
structure SyncState.Finished (N C : NodeState) (r₀ K k : ℕ) (s : SyncState) : Prop where
  at_end : s.At N C r₀ k [] [] []
    ((N.itemsAbove K).take (N.syncPlace r₀ k + 500 - K)) (N.syncPlace r₀ k + 500)
  place_le : N.syncPlace r₀ k ≤ K
  beyond : K < N.syncPlace r₀ k + 500 ∨ K + 1 = N.chainUp.length
  continues : s.Continues N r₀ k

/-- A request is on its way. -/
def SyncState.Requested (N C : NodeState) (r₀ k : ℕ) (s : SyncState) : Prop :=
  ∃ vHave, s.At N C r₀ k [(vHave, 0)] [] [] [] (N.syncPlace r₀ k) ∧
    N.getBlockIndex vHave = N.chainUp[N.syncPlace r₀ k]?

/-- A batch waits to be sent. -/
def SyncState.Queued (N C : NodeState) (r₀ k : ℕ) (s : SyncState) : Prop :=
  s.At N C r₀ k [] ((N.itemsAbove (N.syncPlace r₀ k)).take 500) [] [] (N.syncPlace r₀ k) ∧
    N.itemsAbove (N.syncPlace r₀ k) ≠ [] ∧ s.Continues N r₀ k

/-- A batch is on its way. -/
def SyncState.Announced (N C : NodeState) (r₀ k : ℕ) (s : SyncState) : Prop :=
  s.At N C r₀ k [] [] [(N.itemsAbove (N.syncPlace r₀ k)).take 500] [] (N.syncPlace r₀ k + 500) ∧
    N.itemsAbove (N.syncPlace r₀ k) ≠ [] ∧ s.Continues N r₀ k

theorem NodeState.itemsAbove_blocks (N : NodeState) (r : ℕ) :
    ∀ inv ∈ N.itemsAbove r, inv.type = msgBlock := by
  intro inv hinv
  obtain ⟨q, -, rfl⟩ := List.mem_map.mp hinv
  rfl

/-- The items above a place, by their places. -/
theorem NodeState.mem_itemsAbove {N : NodeState} {r : ℕ} {inv : CInv} :
    inv ∈ N.itemsAbove r ↔
      ∃ j q, r < j ∧ N.chainUp[j]? = some q ∧ inv = blockInv q.phashBlock := by
  rw [itemsAbove, List.mem_map]
  constructor
  · rintro ⟨q, hq, rfl⟩
    obtain ⟨i, hi⟩ := List.mem_iff_getElem?.mp hq
    rw [List.getElem?_drop] at hi
    exact ⟨r + 1 + i, q, by omega, hi, rfl⟩
  · rintro ⟨j, q, hlt, hj, rfl⟩
    refine ⟨q, List.mem_iff_getElem?.mpr ⟨j - (r + 1), ?_⟩, rfl⟩
    rw [List.getElem?_drop, show r + 1 + (j - (r + 1)) = j by omega, hj]

/-- The items of a batch, by their places. -/
theorem NodeState.mem_take_itemsAbove {N : NodeState} {r n : ℕ} {inv : CInv}
    (h : inv ∈ (N.itemsAbove r).take n) :
    ∃ j q, r < j ∧ j ≤ r + n ∧ N.chainUp[j]? = some q ∧ inv = blockInv q.phashBlock := by
  obtain ⟨i, hi⟩ := List.mem_iff_getElem?.mp h
  have hlt := (List.getElem?_eq_some_iff.mp hi).1
  rw [List.length_take] at hlt
  rw [List.getElem?_take_of_lt (by omega), itemsAbove, List.getElem?_map, List.getElem?_drop,
    Option.map_eq_some_iff] at hi
  obtain ⟨q, hq, rfl⟩ := hi
  exact ⟨r + 1 + i, q, by omega, by omega, hq, rfl⟩

theorem NodeState.length_itemsAbove (N : NodeState) (r : ℕ) :
    (N.itemsAbove r).length = N.chainUp.length - (r + 1) := by
  rw [itemsAbove, List.length_map, List.length_drop]

theorem NodeState.OnChain.nodup_itemsAbove (h : N.OnChain P root tip) (r : ℕ) :
    (N.itemsAbove r).Nodup := by
  rw [List.nodup_iff_getElem?_ne_getElem?]
  intro i j hij hj heq
  rw [NodeState.length_itemsAbove] at hj
  obtain ⟨qi, hqi⟩ : ∃ q, N.chainUp[r + 1 + i]? = some q := ⟨_, List.getElem?_eq_getElem (by omega)⟩
  obtain ⟨qj, hqj⟩ : ∃ q, N.chainUp[r + 1 + j]? = some q := ⟨_, List.getElem?_eq_getElem (by omega)⟩
  rw [NodeState.itemsAbove, List.getElem?_map, List.getElem?_map, List.getElem?_drop,
    List.getElem?_drop, hqi, hqj, Option.map_some, Option.map_some, Option.some.injEq] at heq
  have := h.hash_inj hqi hqj (congrArg CInv.hash heq)
  omega

/-- The batch that is announced. -/
theorem SyncPair.batch_eq (h : SyncPair P N C root tip croot p) (r : ℕ) :
    (N.batch 0 500 (r + 1)).map blockInv = (N.itemsAbove r).take 500 := by
  have hall : ∀ hash ∈ (N.chainUp.drop (r + 1)).map CBlockIndex.phashBlock,
      decide (hash ≠ 0) = true := by
    intro hash hhash
    obtain ⟨q, hq, rfl⟩ := List.mem_map.mp hhash
    exact decide_eq_true (h.notNull q (List.mem_of_mem_drop hq))
  rw [NodeState.batch, List.takeWhile_eq_self_iff.mpr hall, List.map_take, List.map_map]
  rfl

/-! ## The steps of the exchange -/

section Steps

variable {r₀ K k : ℕ} {σ : SyncState} {toServe : List (List Uint256 × Uint256)}
  {queue asked : List CInv} {toHear : List (List CInv)} {known : ℕ}

/-- Without a request on its way, none arrives. -/
theorem SyncState.At.serve_nil (h : σ.At N C r₀ k [] queue toHear asked known) :
    σ.next P fHaveTx fTrickleWait .serve = σ := by
  have hnone : σ.caller.vSend[σ.nServed]? = none := by
    rw [← List.head?_drop, h.served]
    rfl
  rw [SyncState.next, hnone]

/-- Without an announcement on its way, none arrives. -/
theorem SyncState.At.hear_nil (h : σ.At N C r₀ k toServe queue [] asked known) :
    σ.next P fHaveTx fTrickleWait .hear = σ := by
  have hnone : σ.server.peer.vSend[σ.nHeard]? = none := by
    rw [← List.head?_drop, h.heard]
    rfl
  rw [SyncState.next, hnone]

/-- Without anything that waits, nothing is sent. -/
theorem SyncState.At.send_nil (h : σ.At N C r₀ k toServe [] toHear asked known)
    (fSendTrickle : Bool) : σ.next P fHaveTx fTrickleWait (.send fSendTrickle) = σ := by
  rw [SyncState.next, InvPeer.sendInventory_nil h.queued]

theorem drop_succ_of_drop_eq_singleton {α : Type} {l : List α} {n : ℕ} {a : α}
    (h : l.drop n = [a]) : l.drop (n + 1) = [] := by
  rw [← List.drop_drop, h]
  rfl

/-- **A request arrives**, and its batch waits to be sent, or the exchange is over when the request is
from the tip. -/
theorem SyncState.Requested.serve (h : SyncPair P N C root tip croot p)
    (hK : K < N.chainUp.length) (hle : N.syncPlace r₀ k ≤ K) (hσ : σ.Requested N C r₀ k) :
    (σ.next P fHaveTx fTrickleWait .serve).Queued N C r₀ k ∨
      (σ.next P fHaveTx fTrickleWait .serve).Finished N C r₀ K k := by
  obtain ⟨vHave, hat, hplace⟩ := hσ
  have hsome : σ.caller.vSend[σ.nServed]? = some (vHave, 0) := by
    rw [← List.head?_drop, hat.served]
    rfl
  rw [SyncState.next, hsome]
  have hpindex : (N.getBlockIndex vHave).bind N.nextOf = N.chainUp[N.syncPlace r₀ k + 1]? := by
    obtain ⟨q, hq⟩ : ∃ q, N.chainUp[N.syncPlace r₀ k]? = some q :=
      ⟨_, List.getElem?_eq_getElem (by omega)⟩
    rw [hplace, hq, Option.bind_some, h.server.nextOf_eq hq]
  have hfresh : ∀ inv ∈ (N.itemsAbove (N.syncPlace r₀ k)).take 500,
      inv ∉ σ.server.peer.setInventoryKnown.set := by
    intro inv hinv
    obtain ⟨j, q, hlt, hj, rfl⟩ := NodeState.mem_itemsAbove.mp (List.mem_of_mem_take hinv)
    exact hat.fresh j q hlt hj
  have hserver : σ.server.getblocks vHave 0 =
      { σ.server with
        peer := { σ.server.peer with
          vInventoryToSend := (N.itemsAbove (N.syncPlace r₀ k)).take 500
          pushed := σ.server.peer.pushed ++ (N.itemsAbove (N.syncPlace r₀ k)).take 500 }
        hashContinue := (σ.server.getblocks vHave 0).hashContinue } := by
    rw [SyncServer.getblocks]
    dsimp only
    rw [hat.server_node, hpindex, h.server.getBlocksLoop_eq, h.batch_eq,
      InvPeer.foldl_pushInventory _ hfresh, hat.queued, List.nil_append]
  have hcontinue : 500 ≤ (N.itemsAbove (N.syncPlace r₀ k)).length →
      ((N.itemsAbove (N.syncPlace r₀ k)).take 500).getLast? =
        some (blockInv (σ.server.getblocks vHave 0).hashContinue) := by
    intro hfull
    have hlen : (N.batch 0 500 (N.syncPlace r₀ k + 1)).length = 500 := by
      have := congrArg List.length (h.batch_eq (N.syncPlace r₀ k))
      rw [List.length_map, List.length_take] at this
      omega
    have hne : N.batch 0 500 (N.syncPlace r₀ k + 1) ≠ [] := by
      intro hnil
      rw [hnil] at hlen
      cases hlen
    rw [SyncServer.getblocks]
    dsimp only
    rw [hat.server_node, hpindex, h.server.getBlocksLoop_eq, if_pos hlen, ← h.batch_eq,
      List.getLast?_map, List.getLast?_eq_some_getLast hne]
    rfl
  have hnext : ∀ {q : List CInv}, (N.itemsAbove (N.syncPlace r₀ k)).take 500 = q → ∀ known,
      N.syncPlace r₀ k ≤ known → ({ σ with
        server := σ.server.getblocks vHave 0, nServed := σ.nServed + 1 } : SyncState).At N C r₀ k []
          q [] [] known := by
    rintro _ rfl known hknown
    rw [hserver]
    exact ⟨hat.server_node, hat.caller_node, hat.nVersion, hat.length_vSend,
      drop_succ_of_drop_eq_singleton hat.served, rfl, hat.heard,
      (List.getElem?_eq_some_iff.mp hsome).1, hat.nHeard_le, hat.asked_eq,
      fun j q hlt => hat.fresh j q (by omega), hat.unasked, hat.onward⟩
  by_cases hnil : N.itemsAbove (N.syncPlace r₀ k) = []
  · -- the request is from the tip, which is what the caller has up to
    right
    have hlen := N.length_itemsAbove (N.syncPlace r₀ k)
    rw [hnil, List.length_nil] at hlen
    have htip : N.syncPlace r₀ k = K := by omega
    refine ⟨?_, hle, .inr (by omega), hcontinue⟩
    rw [← htip, hnil, List.take_nil]
    exact hnext (by rw [hnil, List.take_nil]) _ (by omega)
  · exact .inl ⟨hnext rfl _ le_rfl, hnil, hcontinue⟩

/-- **A batch is sent** in one message. -/
theorem SyncState.Queued.send (h : SyncPair P N C root tip croot p) (hσ : σ.Queued N C r₀ k)
    (fSendTrickle : Bool) :
    (σ.next P fHaveTx fTrickleWait (.send fSendTrickle)).Announced N C r₀ k := by
  obtain ⟨hat, hne, hcontinue⟩ := hσ
  have hqueue := hat.queued
  have hlen : ((N.itemsAbove (N.syncPlace r₀ k)).take 500).length ≤ 500 := by
    rw [List.length_take]
    exact min_le_left _ _
  obtain ⟨hvSend, hempty, hversion, hset⟩ := InvPeer.sendInventory_blocks fSendTrickle fTrickleWait
    hat.nVersion (by rw [hqueue]; simpa [List.take_eq_nil_iff] using hne)
    (by rw [hqueue]; exact fun inv hinv => N.itemsAbove_blocks _ inv (List.mem_of_mem_take hinv))
    (by rw [hqueue]; exact (h.server.nodup_itemsAbove _).sublist (List.take_sublist _ _))
    (by rw [hqueue]; omega)
    (by
      rw [hqueue]
      intro inv hinv
      obtain ⟨j, q, hlt, hj, rfl⟩ := NodeState.mem_itemsAbove.mp (List.mem_of_mem_take hinv)
      exact hat.fresh j q hlt hj)
  rw [hqueue] at hvSend hset
  have hread : σ.server.peer.vSend.length = σ.nHeard :=
    le_antisymm (List.drop_eq_nil_iff.mp hat.heard) hat.nHeard_le
  refine ⟨⟨hat.server_node, hat.caller_node, by rw [SyncState.next]; exact hversion ▸ hat.nVersion,
    hat.length_vSend, hat.served, hempty, ?_, hat.nServed_le, ?_, hat.asked_eq, fun j q hlt hj hin => ?_,
    hat.unasked, hat.onward⟩, hne, hcontinue⟩
  · show List.drop _ (InvPeer.sendInventory _ _ _).vSend = _
    rw [hvSend]
    show List.drop σ.nHeard _ = _
    rw [← hread, List.drop_left]
  · show σ.nHeard ≤ (InvPeer.sendInventory _ _ _).vSend.length
    rw [hvSend, List.length_append]
    omega
  · -- the peer knows what it knew before, and the batch
    rcases hset _ hin with hold | hnew
    · exact hat.fresh j q (by omega) hj hold
    · obtain ⟨i, q', -, hle, hi, heq⟩ := NodeState.mem_take_itemsAbove hnew
      have := h.server.hash_inj hj hi (congrArg CInv.hash heq)
      omega

/-- A batch up to a place above which it reaches. -/
theorem NodeState.take_itemsAbove {r : ℕ} (hle : r ≤ K) (hlt : K ≤ r + 500) :
    (N.itemsAbove r).take 500 =
      (N.itemsAbove r).take (K - r) ++ (N.itemsAbove K).take (r + 500 - K) := by
  have hdrop : (N.itemsAbove r).drop (K - r) = N.itemsAbove K := by
    rw [itemsAbove, ← List.map_drop, List.drop_drop, show r + 1 + (K - r) = K + 1 by omega]
    rfl
  rw [← hdrop, ← List.take_add, show K - r + (r + 500 - K) = 500 by omega]

/-- What is not there of a batch that reaches beyond what is there. -/
theorem NodeState.filter_itemsAbove {r : ℕ}
    (hK : ∀ j q, N.chainUp[j]? = some q → (q.phashBlock ∈ C.mapBlockIndex ↔ j ≤ K)) (hle : r ≤ K)
    (hlt : K ≤ r + 500) :
    ((N.itemsAbove r).take 500).filter (fun inv => !decide (inv.hash ∈ C.mapBlockIndex)) =
      (N.itemsAbove K).take (r + 500 - K) := by
  rw [NodeState.take_itemsAbove hle hlt, List.filter_append]
  have hhad : ((N.itemsAbove r).take (K - r)).filter
      (fun inv => !decide (inv.hash ∈ C.mapBlockIndex)) = [] := by
    refine List.filter_eq_nil_iff.mpr fun inv hinv => ?_
    obtain ⟨j, q, -, hj, hq, rfl⟩ := NodeState.mem_take_itemsAbove hinv
    have hmem : (blockInv q.phashBlock).hash ∈ C.mapBlockIndex := (hK j q hq).mpr (by omega)
    rw [decide_eq_true hmem]
    exact Bool.false_ne_true
  have hlacks : ((N.itemsAbove K).take (r + 500 - K)).filter
      (fun inv => !decide (inv.hash ∈ C.mapBlockIndex)) =
        (N.itemsAbove K).take (r + 500 - K) := by
    refine List.filter_eq_self.mpr fun inv hinv => ?_
    obtain ⟨j, q, hj, -, hq, rfl⟩ := NodeState.mem_take_itemsAbove hinv
    have hmem : (blockInv q.phashBlock).hash ∉ C.mapBlockIndex := mt (hK j q hq).mp (by omega)
    rw [decide_eq_false hmem]
    rfl
  rw [hhad, hlacks, List.nil_append]

/-- **A batch arrives**, and the node asks again when it has the last block of it, and asks for the
blocks that it lacks otherwise. -/
theorem SyncState.Announced.hear (h : SyncPair P N C root tip croot p)
    (hK : ∀ j q, N.chainUp[j]? = some q → (q.phashBlock ∈ C.mapBlockIndex ↔ j ≤ K))
    (hle : N.syncPlace r₀ k ≤ K) (hσ : σ.Announced N C r₀ k) :
    (N.syncPlace r₀ (k + 1) ≤ K ∧
        (σ.next P fHaveTx fTrickleWait .hear).Requested N C r₀ (k + 1)) ∨
      (σ.next P fHaveTx fTrickleWait .hear).Finished N C r₀ K k := by
  obtain ⟨hat, hne, hcontinue⟩ := hσ
  set r := N.syncPlace r₀ k with hr
  have hlength := N.length_itemsAbove r
  have hpos := List.length_pos_iff.mpr hne
  -- the request was from below the tip, and the next one would be 500 blocks later
  have hplace : r = r₀ + 500 * k := by
    rw [NodeState.syncPlace] at hr
    omega
  have hnextPlace : N.syncPlace r₀ (k + 1) = min (r + 500) (N.chainUp.length - 1) := by
    rw [NodeState.syncPlace, hplace, Nat.mul_add_one, ← Nat.add_assoc]
  obtain ⟨l, x, hsplit⟩ : ∃ l x, (N.itemsAbove r).take 500 = l ++ [x] := by
    obtain ⟨l, x, hconcat⟩ := (List.eq_nil_or_concat ((N.itemsAbove r).take 500)).resolve_left
      (by simpa [List.take_eq_nil_iff] using hne)
    exact ⟨l, x, hconcat.trans (List.concat_eq_append ..)⟩
  have hlen : l.length + 1 = min 500 (N.chainUp.length - (r + 1)) := by
    have := congrArg List.length hsplit
    rw [List.length_take, hlength, List.length_append, List.length_singleton] at this
    omega
  have hlast : ∃ q, N.chainUp[N.syncPlace r₀ (k + 1)]? = some q ∧ x = blockInv q.phashBlock := by
    have hx : ((N.itemsAbove r).take 500)[l.length]? = some x := by
      rw [hsplit, List.getElem?_concat_length]
    rw [List.getElem?_take_of_lt (by omega), NodeState.itemsAbove, List.getElem?_map,
      List.getElem?_drop, Option.map_eq_some_iff] at hx
    obtain ⟨q, hq, rfl⟩ := hx
    have hindex : r + 1 + l.length = N.syncPlace r₀ (k + 1) := by omega
    exact ⟨q, hindex ▸ hq, rfl⟩
  obtain ⟨q, hq, rfl⟩ := hlast
  have hsome : σ.server.peer.vSend[σ.nHeard]? = some (l ++ [blockInv q.phashBlock]) := by
    rw [← List.head?_drop, hat.heard, hsplit]
    rfl
  have hitems : ∀ inv ∈ l ++ [blockInv q.phashBlock], inv ∈ N.itemsAbove r := by
    intro inv hinv
    rw [← hsplit] at hinv
    exact List.mem_of_mem_take hinv
  have hinv := SyncCaller.inv_blocks P fHaveTx
    (fun inv hin => N.itemsAbove_blocks r inv (hitems inv hin)) σ.caller
    (fun inv hin => by
      obtain ⟨j, q', -, hj, rfl⟩ := NodeState.mem_itemsAbove.mp (hitems inv hin)
      rw [hat.caller_node]
      exact h.orphans q' (List.mem_of_getElem? hj))
    (by rw [List.length_append, List.length_singleton]; omega)
  rw [hat.caller_node, hat.asked_eq, List.nil_append, List.nil_append] at hinv
  rw [SyncState.next, hsome]
  dsimp only
  rw [hinv]
  have hread : σ.server.peer.vSend.drop (σ.nHeard + 1) = [] :=
    drop_succ_of_drop_eq_singleton hat.heard
  have hnHeard := (List.getElem?_eq_some_iff.mp hsome).1
  by_cases hmem : (blockInv q.phashBlock).hash ∈ C.mapBlockIndex
  · -- the last block is there, and the next request is from it
    rw [if_pos hmem]
    have hleNext := (hK _ q hq).mp hmem
    obtain ⟨q', hq'⟩ : ∃ q', C.mapBlockIndex.lookup q.phashBlock = some q' := Finmap.mem_iff.mp hmem
    have hhash := h.caller.hash_eq _ _ hq'
    have hasked : l.filter (fun inv => !decide (inv.hash ∈ C.mapBlockIndex)) = [] := by
      refine List.filter_eq_nil_iff.mpr fun inv hin => ?_
      have hbatch : inv ∈ (N.itemsAbove r).take 500 := by
        rw [hsplit]
        exact List.mem_append_left _ hin
      obtain ⟨j, qj, -, hj, hqj, rfl⟩ := NodeState.mem_take_itemsAbove hbatch
      have hjlt := (List.getElem?_eq_some_iff.mp hqj).1
      have hthere : (blockInv qj.phashBlock).hash ∈ C.mapBlockIndex := (hK j qj hqj).mpr (by omega)
      rw [decide_eq_true hthere]
      exact Bool.false_ne_true
    have hfilter : ¬(C.mapBlockIndex.lookup q.phashBlock = σ.caller.pindexLastGetBlocksBegin ∧
        (0 : Uint256) = σ.caller.hashLastGetBlocksEnd) := by
      rintro ⟨heq, -⟩
      exact hat.unasked _ q (by omega) hq q' hq' (heq.symm.trans hq')
    obtain ⟨i, -, -, hanswer, hown⟩ := h.exists_place hK (q := q')
      (by rw [CBlockIndex.In, hhash, hq'])
    obtain rfl := hown _ q hq hhash.symm
    rw [SyncCaller.pushGetBlocks]
    dsimp only
    rw [show (blockInv q.phashBlock).hash = q.phashBlock from rfl, if_neg hfilter, hasked,
      hq', Option.map_some, Option.getD_some]
    have hserved : σ.caller.vSend.length = σ.nServed :=
      le_antisymm (List.drop_eq_nil_iff.mp hat.served) hat.nServed_le
    refine .inl ⟨hleNext, _, ⟨hat.server_node, rfl, hat.nVersion, ?_, ?_, hat.queued, hread,
      ?_, hnHeard, rfl, fun j qj hlt hj => ?_, fun j qj hlt hj qj' hqj' heq => ?_, fun i hi => ?_⟩,
      hanswer⟩
    · show (σ.caller.vSend ++ [_]).length = _
      rw [List.length_append, List.length_singleton, hat.length_vSend]
    · show (σ.caller.vSend ++ [_]).drop σ.nServed = _
      rw [← hserved, List.drop_left]
    · show σ.nServed ≤ (σ.caller.vSend ++ [_]).length
      rw [List.length_append]
      exact hat.nServed_le.trans (Nat.le_add_right _ _)
    · have hjlt := (List.getElem?_eq_some_iff.mp hj).1
      exact hat.fresh j qj (by omega) hj
    · -- the blocks further up are other ones
      obtain rfl := Option.some.inj heq
      have hsame := (h.caller.hash_eq _ _ hqj').symm.trans hhash
      have := h.server.hash_inj hj hq hsame
      omega
    · rcases Nat.lt_succ_iff_lt_or_eq.mp hi with hi | rfl
      · exact hat.onward i hi
      · omega
  · rw [if_neg hmem]
    have hgt : K < N.syncPlace r₀ (k + 1) := not_le.mp (mt (hK _ q hq).mpr hmem)
    rw [← hsplit, NodeState.filter_itemsAbove hK hle (by omega)]
    exact .inr ⟨⟨hat.server_node, rfl, hat.nVersion, hat.length_vSend, hat.served,
      hat.queued, hread, hat.nServed_le, hnHeard, rfl, hat.fresh, hat.unasked, hat.onward⟩, hle,
      .inl (by omega), hcontinue⟩

/-- The first request is on its way. -/
theorem SyncState.Starts.requested (h : SyncPair P N C root tip croot p) (hσ : σ.Starts P N C) (hr₀ : r₀ < N.chainUp.length)
    (hanswer : N.getBlockIndex (CBlockLocator.set P (C.walkFrom p)) = N.chainUp[r₀]?)
    (hown : ∀ j qj, N.chainUp[j]? = some qj → qj.phashBlock = p.phashBlock → r₀ = j) :
    σ.Requested N C r₀ 0 := by
  have hplace : N.syncPlace r₀ 0 = r₀ := by
    rw [NodeState.syncPlace]
    omega
  have hcaller : σ.caller =
      ⟨C, some p, 0, [(CBlockLocator.set P (C.walkFrom p), 0)], []⟩ := by
    rw [hσ.caller, h.pindexBest]
    rfl
  refine ⟨_, ⟨hσ.server_node, by rw [hcaller], hσ.nVersion, by rw [hcaller]; rfl,
    by rw [hcaller, hσ.nServed]; rfl, hσ.queue, by rw [hσ.nHeard, List.drop_length],
    by rw [hσ.nServed]; exact Nat.zero_le _, hσ.nHeard.le, by rw [hcaller],
    fun j q _ hj => hσ.fresh q (List.mem_of_getElem? hj), fun j q hlt hj q' hq' heq => ?_,
    fun i hi => absurd hi (Nat.not_lt_zero i)⟩, by rw [hplace]; exact hanswer⟩
  · -- a block above the first place is not the one that the request is from
    rw [hcaller] at heq
    obtain rfl := Option.some.inj heq
    have hhash := h.caller.hash_eq _ _ hq'
    have := hown j q hj hhash.symm
    omega

/-- The exchange goes on after `k` requests: a request, a batch that waits, or an announcement is on
its way. -/
def SyncState.Pending (N C : NodeState) (r₀ K k : ℕ) (σ : SyncState) : Prop :=
  N.syncPlace r₀ k ≤ K ∧ (σ.Requested N C r₀ k ∨ σ.Queued N C r₀ k ∨ σ.Announced N C r₀ k)

/-- What holds of the exchange at any time. -/
def SyncState.Going (N C : NodeState) (r₀ K : ℕ) (σ : SyncState) : Prop :=
  ∃ k, σ.Pending N C r₀ K k ∨ σ.Finished N C r₀ K k

/-- An exchange that is over stays as it is. -/
theorem SyncState.Finished.next (hσ : σ.Finished N C r₀ K k) (event : SyncEvent) :
    σ.next P fHaveTx fTrickleWait event = σ := by
  cases event with
  | serve => exact hσ.at_end.serve_nil
  | send fSendTrickle => exact hσ.at_end.send_nil fSendTrickle
  | hear => exact hσ.at_end.hear_nil

/-- **An event keeps the exchange going**, in whatever order they come. -/
theorem SyncState.Going.next (h : SyncPair P N C root tip croot p) (hKlen : K < N.chainUp.length)
    (hK : ∀ j q, N.chainUp[j]? = some q → (q.phashBlock ∈ C.mapBlockIndex ↔ j ≤ K))
    (hσ : σ.Going N C r₀ K) (event : SyncEvent) :
    (σ.next P fHaveTx fTrickleWait event).Going N C r₀ K := by
  obtain ⟨k, ⟨hle, hrequested | hqueued | hannounced⟩ | hfinished⟩ := id hσ
  · cases event with
    | serve =>
      rcases hrequested.serve h hKlen hle with hnext | hnext
      · exact ⟨k, .inl ⟨hle, .inr (.inl hnext)⟩⟩
      · exact ⟨k, .inr hnext⟩
    | send fSendTrickle =>
      obtain ⟨vHave, hat, -⟩ := hrequested
      rwa [hat.send_nil]
    | hear =>
      obtain ⟨vHave, hat, -⟩ := hrequested
      rwa [hat.hear_nil]
  · cases event with
    | serve => rwa [hqueued.1.serve_nil]
    | send fSendTrickle => exact ⟨k, .inl ⟨hle, .inr (.inr (hqueued.send h fSendTrickle))⟩⟩
    | hear => rwa [hqueued.1.hear_nil]
  · cases event with
    | serve => rwa [hannounced.1.serve_nil]
    | send fSendTrickle => rwa [hannounced.1.send_nil]
    | hear =>
      rcases hannounced.hear h hK hle with ⟨hleNext, hnext⟩ | hnext
      · exact ⟨k + 1, .inl ⟨hleNext, .inl hnext⟩⟩
      · exact ⟨k, .inr hnext⟩
  · rwa [hfinished.next]

/-- A request, its answer and the receipt of the answer. -/
def syncRound : List SyncEvent := [.serve, .send false, .hear]

/-- **A round** ends the exchange, or leads to the next request. -/
theorem SyncState.Pending.round (h : SyncPair P N C root tip croot p) (hKlen : K < N.chainUp.length)
    (hK : ∀ j q, N.chainUp[j]? = some q → (q.phashBlock ∈ C.mapBlockIndex ↔ j ≤ K))
    (hσ : σ.Pending N C r₀ K k) :
    (syncRound.foldl (SyncState.next P fHaveTx fTrickleWait) σ).Pending N C r₀ K (k + 1) ∨
      (syncRound.foldl (SyncState.next P fHaveTx fTrickleWait) σ).Finished N C r₀ K k := by
  have hannounced : ∀ {σ : SyncState}, N.syncPlace r₀ k ≤ K → σ.Announced N C r₀ k →
      (σ.next P fHaveTx fTrickleWait .hear).Pending N C r₀ K (k + 1) ∨
        (σ.next P fHaveTx fTrickleWait .hear).Finished N C r₀ K k := fun hle hσ =>
    (hσ.hear h hK hle).imp_left fun hnext => ⟨hnext.1, .inl hnext.2⟩
  rw [syncRound, List.foldl_cons, List.foldl_cons, List.foldl_cons, List.foldl_nil]
  obtain ⟨hle, hrequested | hqueued | hσ⟩ := hσ
  · rcases hrequested.serve h hKlen hle with hqueued | hfinished
    · exact hannounced hle (hqueued.send h false)
    · rw [hfinished.next, hfinished.next]
      exact .inr hfinished
  · rw [hqueued.1.serve_nil]
    exact hannounced hle (hqueued.send h false)
  · rw [hσ.1.serve_nil, hσ.1.send_nil]
    exact hannounced hle hσ

/-- Not more requests are made than it takes to get beyond what the caller has. -/
theorem SyncState.At.requests_le (h : σ.At N C r₀ k toServe queue toHear asked known)
    (hle : N.syncPlace r₀ k ≤ K) : k ≤ (K - r₀) / 500 + 1 := by
  cases k with
  | zero => exact Nat.zero_le _
  | succ k =>
    have hlast := h.onward k k.lt_succ_self
    have hplace : r₀ + 500 * k ≤ K := by
      rw [NodeState.syncPlace] at hle
      omega
    omega

theorem SyncState.Pending.requests_le (hσ : σ.Pending N C r₀ K k) : k ≤ (K - r₀) / 500 + 1 := by
  obtain ⟨hle, ⟨vHave, hat, -⟩ | ⟨hat, -⟩ | ⟨hat, -⟩⟩ := hσ
  · exact hat.requests_le hle
  · exact hat.requests_le hle
  · exact hat.requests_le hle

/-- **Rounds end the exchange**, when they are more than the batches up to what the caller has. -/
theorem SyncState.Pending.rounds (h : SyncPair P N C root tip croot p) (hKlen : K < N.chainUp.length)
    (hK : ∀ j q, N.chainUp[j]? = some q → (q.phashBlock ∈ C.mapBlockIndex ↔ j ≤ K))
    (hσ : σ.Pending N C r₀ K k) {n : ℕ} (hn : (K - r₀) / 500 + 2 ≤ k + n) :
    ∃ k', ((List.replicate n syncRound).flatten.foldl (SyncState.next P fHaveTx fTrickleWait)
      σ).Finished N C r₀ K k' := by
  induction n generalizing k σ with
  | zero =>
    have := hσ.requests_le
    omega
  | succ n ih =>
    rw [List.replicate_succ, List.flatten_cons, List.foldl_append]
    rcases hσ.round h hKlen hK with hnext | hfinished
    · exact ih hnext (by omega)
    · refine ⟨k, ?_⟩
      rw [List.foldl_fixed' fun event => hfinished.next event]
      exact hfinished

/-- What has been asked for when the exchange is over, or before. -/
theorem SyncState.Going.asked_prefix (hσ : σ.Going N C r₀ K) :
    σ.caller.asked <+: N.itemsAbove K ∧ σ.caller.vSend.length ≤ (K - r₀) / 500 + 2 := by
  obtain ⟨k, hpending | hfinished⟩ := hσ
  · have hle := hpending.requests_le
    obtain ⟨-, ⟨vHave, hat, -⟩ | ⟨hat, -⟩ | ⟨hat, -⟩⟩ := hpending
    all_goals
      rw [hat.asked_eq, hat.length_vSend]
      exact ⟨List.nil_prefix, by omega⟩
  · have hle := hfinished.at_end.requests_le hfinished.place_le
    rw [hfinished.at_end.asked_eq, hfinished.at_end.length_vSend]
    exact ⟨List.take_prefix _ _, by omega⟩

end Steps

/-- The node with one block more than the genesis block is reached without stopping early. -/
theorem reaches_switchedA1 : Reaches (nodeSystem exampleParams)
    (fun s e => ¬e.StopsEarly exampleParams s) switchedA1 := by
  have hgenesis : (genesisNode []).Loaded exampleParams := loaded_genesisNode (by decide +kernel)
  have hA1 : Reaches (nodeSystem exampleParams) (fun s e => ¬e.StopsEarly exampleParams s)
      storedA1 := reaches_store (.start hgenesis) (by decide +kernel)
  exact hA1.next (.switch exampleEnv blockA1 (storedA1.indexOf 11))
    ⟨by decide +kernel, by decide +kernel⟩ (Bool.eq_false_iff.mp (by decide +kernel))

end FoxCoin
