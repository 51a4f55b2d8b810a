import FoxCoin.CoinLedger
import FoxCoin.Disconnect
import Mathlib.Data.List.TakeWhile

/-! # Chains of connected blocks

A chain is a list of blocks, the newest first, that `ConnectBlock` has connected one after the other
on top of the genesis block. The transaction index of a chain refines the ledger of its
transactions, and every property of spending follows from the ledger. -/

namespace FoxCoin

open Checked Overlay Ledger

/-! ## Chains -/

/-- A block with its index, which is filed under the hash of the block and has its time. -/
structure ChainBlock (P : Params) where
  pindex : CBlockIndex
  block : CBlock
  hash_eq : pindex.phashBlock = block.getHash P
  nTime_eq : pindex.nTime = block.nTime

/-- The block can be read from the place its index tells. -/
def ChainBlock.StoredIn {P : Params} (b : ChainBlock P) (v : ChainView) : Prop :=
  v.files.readBlock P b.pindex.nFile b.pindex.nBlockPos = some b.block

instance {P : Params} (b : ChainBlock P) (v : ChainView) : Decidable (b.StoredIn v) :=
  inferInstanceAs (Decidable (_ = _))

/-- The indexes of a chain: the walk over `pprev` from its tip. -/
def walk {P : Params} (chain : List (ChainBlock P)) : List CBlockIndex :=
  chain.map ChainBlock.pindex

/-- A block is on top of a chain: one higher than its tip, and none of its blocks. -/
structure ChainBlock.Extends {P : Params} (b : ChainBlock P) (chain : List (ChainBlock P)) :
    Prop where
  height : ∀ c ∈ chain.head?, b.pindex.nHeight = c.pindex.nHeight + 1
  new : ∀ c ∈ chain, b.pindex.phashBlock ≠ c.pindex.phashBlock

/-- A chain of blocks that `ConnectBlock` has connected on top of the genesis block, and the
transaction index it leaves. The genesis block itself is not in the index. -/
inductive ConnectedChain (P : Params) : List (ChainBlock P) → TxIndexMap → Prop
  | genesis (b : ChainBlock P) (hheight : b.pindex.nHeight = 0) : ConnectedChain P [b] ∅
  | connect {chain : List (ChainBlock P)} {b : ChainBlock P} {db db' : CTxDB} {v : ChainView}
      {io : Io} (hchain : ConnectedChain P chain db.mapTxIndex)
      (hextends : b.Extends chain)
      (hstored : ∀ c ∈ b :: chain, c.StoredIn v)
      (hconnect : b.block.connectBlock P v io db b.pindex (walk chain) = .ok db') :
      ConnectedChain P (b :: chain) db'.mapTxIndex

/-- The transactions of the blocks of a chain after the genesis block, in chain order, each with the
height of its block. -/
def chainTxs {P : Params} : List (ChainBlock P) → List (ℕ × CTransaction)
  | [] => []
  | [_] => []
  | b :: c :: chain => chainTxs (c :: chain) ++ b.block.vtx.map fun tx => (b.pindex.nHeight, tx)

theorem chainTxs_cons {P : Params} {chain : List (ChainBlock P)} (b : ChainBlock P)
    (hne : chain ≠ []) :
    chainTxs (b :: chain) = chainTxs chain ++ b.block.vtx.map fun tx => (b.pindex.nHeight, tx) := by
  obtain ⟨c, chain, rfl⟩ := List.exists_cons_of_ne_nil hne
  rfl

/-- The transfers of a list of transactions with heights. -/
def transfers (P : Params) (txs : List (ℕ × CTransaction)) : List (Transfer Uint256 Coin) :=
  txs.map fun t => t.2.transfer P t.1

/-- The ledger of a chain. -/
def chainLedger (P : Params) (chain : List (ChainBlock P)) : CoinLedger :=
  postAll Ledger.empty (transfers P (chainTxs chain))

variable {P : Params} {chain : List (ChainBlock P)} {index : TxIndexMap}

theorem ConnectedChain.ne_nil (h : ConnectedChain P chain index) : chain ≠ [] := by
  cases h <;> simp

/-- On top of a chain of decreasing heights, heights decrease. -/
theorem ChainBlock.Extends.heights {b : ChainBlock P} (hb : b.Extends chain)
    (h : (walk chain).Pairwise fun p q => q.nHeight < p.nHeight) :
    (walk (b :: chain)).Pairwise fun p q => q.nHeight < p.nHeight := by
  refine List.pairwise_cons.mpr ⟨fun q hq => ?_, h⟩
  cases chain with
  | nil => cases hq
  | cons c chain =>
    have hheight : b.pindex.nHeight = c.pindex.nHeight + 1 := hb.height c rfl
    rcases List.mem_cons.mp hq with rfl | hq
    · omega
    · have := (List.pairwise_cons.mp h).1 q hq
      omega

/-- Heights decrease along a chain. -/
theorem ConnectedChain.heights (h : ConnectedChain P chain index) :
    (walk chain).Pairwise fun p q => q.nHeight < p.nHeight := by
  induction h with
  | genesis b => simp [walk]
  | connect _ hextends _ _ ih => exact hextends.heights ih

/-- The hashes of a chain are distinct. -/
theorem ConnectedChain.hashes (h : ConnectedChain P chain index) :
    chain.Pairwise fun b c => b.pindex.phashBlock ≠ c.pindex.phashBlock := by
  induction h with
  | genesis b => simp
  | connect _ hextends _ _ ih => exact List.pairwise_cons.mpr ⟨hextends.new, ih⟩

/-! ## Replaying a chain -/

/-- Blocks stored one after the other in the first file, with their indexes, the last block
first. -/
def placeBlocks (P : Params) (blocks : List CBlock) : List (ChainBlock P) :=
  ((blockPositions 0 blocks).zipIdx.map fun p =>
    { pindex := { CBlockIndex.ofBlock (p.1.2.getHash P) 1 p.1.1 p.1.2 with nHeight := p.2 }
      block := p.1.2
      hash_eq := rfl
      nTime_eq := rfl }).reverse

/-- Connect the blocks of a chain from the genesis block up, on a node that has them stored. -/
def replay (v : ChainView) (io : Io) : List (ChainBlock P) → Option TxIndexMap
  | [] => none
  | [b] => if b.pindex.nHeight = 0 then some ∅ else none
  | b :: c :: chain =>
    (replay v io (c :: chain)).bind fun index =>
      if b.pindex.nHeight = c.pindex.nHeight + 1 ∧
          (∀ d ∈ c :: chain, b.pindex.phashBlock ≠ d.pindex.phashBlock) ∧
          ∀ d ∈ b :: c :: chain,
            v.files.readBlock P d.pindex.nFile d.pindex.nBlockPos = some d.block then
        (b.block.connectBlock P v io ⟨index, ∅, none, 0⟩ b.pindex (walk (c :: chain))).toOption.map
          CTxDB.mapTxIndex
      else none

/-- A chain that can be replayed is connected. -/
theorem connectedChain_of_replay {v : ChainView} {io : Io} {chain : List (ChainBlock P)}
    {index : TxIndexMap} (h : replay v io chain = some index) : ConnectedChain P chain index := by
  fun_induction replay v io chain generalizing index with
  | case1 => cases h
  | case2 b hheight =>
    cases h
    exact .genesis b hheight
  | case3 => cases h
  | case4 b c chain ih =>
    obtain ⟨index', hindex, h⟩ := Option.bind_eq_some_iff.mp h
    obtain ⟨⟨hheight, hnew, hstored⟩, h⟩ := Option.ite_none_right_eq_some.mp h
    obtain ⟨db', hdb, rfl⟩ := Option.map_eq_some_iff.mp h
    replace hdb := eq_ok_of_toOption hdb
    refine .connect (ih hindex) ⟨fun d hd => ?_, hnew⟩ hstored hdb
    obtain rfl : c = d := by simpa using hd
    exact hheight

/-! ## Places on a chain -/

/-- The place of a transaction in the block of the walk at a height. -/
def PlacedIn (walk : List CBlockIndex) : Placement := fun pos nHeight _ =>
  ∃ p ∈ walk, p.nHeight = nHeight ∧ p.nBlockPos = pos.nBlockPos ∧ p.nFile = pos.nFile

/-- The indexes of a walk are at different places. -/
def DistinctPlaces (walk : List CBlockIndex) : Prop :=
  walk.Pairwise fun p q => ¬(p.nBlockPos = q.nBlockPos ∧ p.nFile = q.nFile)

/-- The part of a decreasing walk above a height holds every index above the height. -/
theorem mem_takeWhile_of_heights {walk : List CBlockIndex} {p : CBlockIndex} {n : ℕ}
    (hdesc : walk.Pairwise fun p q => q.nHeight < p.nHeight) (hp : p ∈ walk)
    (hn : n < p.nHeight + coinbaseMaturity) :
    p ∈ walk.takeWhile fun q => decide (n < q.nHeight + coinbaseMaturity) := by
  induction walk with
  | nil => cases hp
  | cons q walk ih =>
    obtain ⟨hq, hdesc'⟩ := List.pairwise_cons.mp hdesc
    rcases List.mem_cons.mp hp with rfl | hp
    · rw [List.takeWhile_cons_of_pos (by simpa using hn)]
      exact List.mem_cons_self
    · have := hq p hp
      rw [List.takeWhile_cons_of_pos (by simp only [decide_eq_true_eq]; omega)]
      exact List.mem_cons_of_mem _ (ih hdesc' hp)

/-- Two indexes of a walk at one place are the same. -/
theorem DistinctPlaces.eq_of_place {walk : List CBlockIndex} (hdist : DistinctPlaces walk)
    {p q : CBlockIndex} (hp : p ∈ walk) (hq : q ∈ walk) (hpos : p.nBlockPos = q.nBlockPos)
    (hfile : p.nFile = q.nFile) : p = q := by
  induction walk with
  | nil => cases hp
  | cons r walk ih =>
    obtain ⟨hr, hdist'⟩ := List.pairwise_cons.mp hdist
    rcases List.mem_cons.mp hp with rfl | hp' <;> rcases List.mem_cons.mp hq with rfl | hq'
    · rfl
    · exact absurd ⟨hpos, hfile⟩ (hr q hq')
    · exact absurd ⟨hpos.symm, hfile.symm⟩ (hr p hp')
    · exact ih hdist' hp' hq'

/-- **The maturity walk is right on a chain**: it finds exactly the coinbases that are less than
`COINBASE_MATURITY` blocks below the tip. -/
theorem matures_of_walk {p₀ : CBlockIndex} {vPrev : List CBlockIndex}
    (hdesc : (p₀ :: vPrev).Pairwise fun p q => q.nHeight < p.nHeight)
    (hdist : DistinctPlaces (p₀ :: vPrev)) :
    (PlacedIn (p₀ :: vPrev)).Matures (p₀ :: vPrev) p₀.nHeight := by
  rintro pos h tx ⟨p, hp, rfl, hpos, hfile⟩ -
  simp only [immature, List.any_eq_true, Bool.and_eq_true, beq_iff_eq]
  constructor
  · rintro ⟨q, hq, hqpos, hqfile⟩
    obtain rfl := hdist.eq_of_place hp (List.takeWhile_subset _ hq) (hpos.trans hqpos.symm)
      (hfile.trans hqfile.symm)
    simpa using List.mem_takeWhile_imp hq
  · intro hlt
    exact ⟨p, mem_takeWhile_of_heights hdesc hp hlt, hpos, hfile⟩

/-- Blocks with distinct hashes are stored at different places. -/
theorem distinctPlaces_of_stored {v : ChainView}
    (hhashes : chain.Pairwise fun b c => b.pindex.phashBlock ≠ c.pindex.phashBlock)
    (hstored : ∀ c ∈ chain, c.StoredIn v) : DistinctPlaces (walk chain) := by
  refine List.pairwise_map.mpr (hhashes.imp_of_mem ?_)
  rintro b c hb hc hne ⟨hpos, hfile⟩
  have h1 : v.files.readBlock P b.pindex.nFile b.pindex.nBlockPos = some b.block := hstored b hb
  have h2 : v.files.readBlock P c.pindex.nFile c.pindex.nBlockPos = some c.block := hstored c hc
  rw [hpos, hfile, h2, Option.some.injEq] at h1
  exact hne (by rw [b.hash_eq, c.hash_eq, h1])

/-- The transactions of a stored block can be read back from their places. -/
theorem ChainBlock.holds {b : ChainBlock P} {v : ChainView} (hstored : b.StoredIn v)
    (vPrev : List CBlockIndex) (index : TxIndexMap) :
    ∀ p ∈ txPositions (b.block.startState b.pindex index).nTxPos b.block.vtx,
      ((ConnectContext.ofIndex b.pindex vPrev).posThisTx p.1).Holds P v
        (PlacedIn (b.pindex :: vPrev)) b.pindex.nHeight p.2 := by
  intro p hp
  have hblock := BlockFiles.block?_of_readBlock hstored
  have hfile := BlockFiles.file_ne_null hblock
  have hstart : (b.block.startState b.pindex index).nTxPos =
      firstTxPos b.pindex.nBlockPos b.block.vtx := by
    have : emptyBlockSize = headerSize + 1 := rfl
    simp only [CBlock.startState, firstTxPos]
    omega
  rw [hstart] at hp
  obtain ⟨blocks, -, hmem⟩ := BlockFiles.mem_of_block? hblock
  have hpos := mem_blockPositions_bounds hmem
  have hofFile : (ConnectContext.ofIndex b.pindex vPrev).posThisTx p.1 =
      ⟨b.pindex.nFile, b.pindex.nBlockPos, p.1, fun h => absurd h hfile⟩ := dif_neg hfile
  have hmemory : (ConnectContext.ofIndex b.pindex vPrev).posThisTx p.1 ≠ CDiskTxPos.inMemory := by
    rw [hofFile]
    intro heq
    have : b.pindex.nBlockPos = 1 := congrArg CDiskTxPos.nBlockPos heq
    omega
  refine ⟨CDiskTxPos.isNull_ofFile hfile, ?_, b.pindex, List.mem_cons_self, rfl, ?_, ?_⟩
  · rw [ChainView.readPrev, CTxIndex.ofOutputs_pos, if_neg hmemory, hofFile]
    exact BlockFiles.readTx_of_block? hblock hp
  · rw [hofFile]
  · rw [hofFile]

/-! ## The index of a chain refines its ledger -/

theorem transfers_append (txs txs' : List (ℕ × CTransaction)) :
    transfers P (txs ++ txs') = transfers P txs ++ transfers P txs' := List.map_append

/-- The ledger of a chain with one more block. -/
theorem chainLedger_cons (b : ChainBlock P) (hne : chain ≠ []) :
    chainLedger P (b :: chain) = postAll (chainLedger P chain)
      (b.block.vtx.map (CTransaction.transfer P b.pindex.nHeight)) := by
  rw [chainLedger, chainTxs_cons b hne, transfers_append, postAll_append, ← chainLedger]
  simp [transfers, Function.comp_def]

/-- The loop over transactions that can be read back from their places refines their transfers. -/
theorem Refines.foldl_next {v v₀ : ChainView} {Placed : Placement} {L : CoinLedger}
    {c : ConnectContext} {nHeight : ℕ} {vtx : List CTransaction} {s : IndexState}
    (hR : Refines P v Placed s.index L)
    (hpos : ∀ p ∈ txPositions s.nTxPos vtx, (c.posThisTx p.1).Holds P v Placed nHeight p.2) :
    Refines P v Placed (vtx.foldl (IndexState.next P v₀ c) s).index
      (postAll L (vtx.map (CTransaction.transfer P nHeight))) := by
  induction vtx generalizing s L with
  | nil => exact hR
  | cons tx vtx ih =>
    obtain ⟨htx, hvtx⟩ := List.forall_mem_cons.mp hpos
    exact ih (hR.applyTx htx.notNull htx.read htx.placed) hvtx

/-- **The transaction index of a chain refines the ledger of the chain**, on every node that has its
blocks stored. -/
theorem ConnectedChain.refines (h : ConnectedChain P chain index) {v : ChainView}
    (hstored : ∀ c ∈ chain, c.StoredIn v) :
    Refines P v (PlacedIn (walk chain)) index (chainLedger P chain) := by
  induction h with
  | genesis b => exact refines_empty _ _ _
  | @connect chain b db db' v₀ io hchain hextends _ hconnect ih =>
    obtain ⟨hb, hrest⟩ := List.forall_mem_cons.mp hstored
    obtain ⟨-, -, -, rfl⟩ := connectBlock_eq_ok.mp hconnect
    have hR : Refines P v (PlacedIn (walk (b :: chain))) db.mapTxIndex (chainLedger P chain) :=
      (ih hrest).mono fun _ _ _ ⟨p, hp, hplace⟩ => ⟨p, List.mem_cons_of_mem _ hp, hplace⟩
    rw [CTxDB.writeNext_mapTxIndex, chainLedger_cons b hchain.ne_nil]
    exact hR.foldl_next (b.holds hb _ _)

/-- The rules a block of a chain is connected under. -/
def ChainBlock.ledgerContext (v : ChainView) (b : ChainBlock P) : LedgerContext where
  nHeight := b.pindex.nHeight
  fVerify := v.fVerify P true
  fEnforceBIP30 := decide (nBIP30SwitchTime < b.block.nTime)
  fStrictPayToScriptHash := decide (nBIP30SwitchTime ≤ b.block.nTime)

section Extend

variable {b : ChainBlock P} {v : ChainView}

/-- On top of a stored chain, the rules in the source are the rules of the ledger. -/
theorem ConnectedChain.agrees (h : ConnectedChain P chain index) (hb : b.Extends chain)
    (hstored : ∀ c ∈ b :: chain, c.StoredIn v) :
    (ConnectContext.ofIndex b.pindex (walk chain)).Agrees P v (PlacedIn (walk (b :: chain)))
      (b.ledgerContext v) := by
  refine ⟨matures_of_walk (hb.heights h.heights) (distinctPlaces_of_stored
    (List.pairwise_cons.mpr ⟨hb.new, h.hashes⟩) hstored), rfl, ?_, ?_⟩
  · simp only [ChainBlock.ledgerContext, ConnectContext.ofIndex, b.nTime_eq]
  · simp only [ChainBlock.ledgerContext, ConnectContext.ofIndex, b.nTime_eq]

/-- The index of a stored chain refines its ledger also as the index under the next block. -/
theorem ConnectedChain.refines_cons (h : ConnectedChain P chain index)
    (hstored : ∀ c ∈ chain, c.StoredIn v) :
    Refines P v (PlacedIn (walk (b :: chain))) index (chainLedger P chain) :=
  (h.refines hstored).mono fun _ _ _ ⟨p, hp, hplace⟩ => ⟨p, List.mem_cons_of_mem _ hp, hplace⟩

/-- The transaction loop starts in a state that refines the ledger of the chain. -/
theorem ConnectedChain.startState_refinesTo (h : ConnectedChain P chain index)
    (hstored : ∀ c ∈ b :: chain, c.StoredIn v) :
    (b.block.startState b.pindex index).RefinesTo P v (PlacedIn (walk (b :: chain)))
      ⟨chainLedger P chain, 0, 0⟩ :=
  ⟨h.refines_cons (List.forall_mem_cons.mp hstored).2, rfl, rfl⟩

/-- **A block connects to a chain exactly when the ledger of the chain admits it**: the outcome does
not depend on where the blocks are stored. -/
theorem ConnectedChain.connects_iff (h : ConnectedChain P chain index) (hb : b.Extends chain)
    (hstored : ∀ c ∈ b :: chain, c.StoredIn v) :
    b.block.Connects P v b.pindex (walk chain) index ↔
      b.block.Admitted P (b.ledgerContext v) (chainLedger P chain) := by
  obtain ⟨hbstored, hrest⟩ := List.forall_mem_cons.mp hstored
  obtain ⟨hiff, hend⟩ := (h.startState_refinesTo hstored).connectsAll_iff (h.refines_cons hrest)
    (h.agrees hb hstored) (b.holds hbstored _ _)
  constructor
  · rintro ⟨htxs, hcb⟩
    refine ⟨hiff.mp htxs, ?_⟩
    rw [← (hend (hiff.mp htxs)).nFees_eq]
    exact hcb
  · rintro ⟨htxs, hcb⟩
    refine ⟨hiff.mpr htxs, ?_⟩
    rw [← (hend htxs).nFees_eq] at hcb
    exact hcb

end Extend

end FoxCoin
