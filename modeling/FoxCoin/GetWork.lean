import FoxCoin.Difficulty
import FoxCoin.StackOps
import FoxCoin.Unserialize
import FoxCoin.Lib.Overlay
import FoxCoin.Lib.Runs

/-! # Work for miners

`getwork`, `getworkex` and `getblocktemplate` keep the block they last created in static variables
and hand it out again until the best block changes or new transactions have waited long enough. The
first two save the blocks they have handed out by their merkle roots; the data of a miner's solution
leads back to the block it was made from. Pointers to blocks are numbers, which no two blocks share;
a deleted block is no longer in the heap. -/

namespace FoxCoin

open Overlay Wire

/-- What the calls read of other parts of the node: the functions of the chain, the block indexes
from one down, the transformation of `SHA256Transform` from the initial state, and
`COINBASE_FLAGS`. -/
structure MiningParams where
  P : Params
  walk : Uint256 → List CBlockIndex
  sha256Transform : List UInt8 → List UInt8
  coinbaseFlags : CScript

variable (M : MiningParams)

/-! ## Blocks -/

/-- `CBlock::UpdateTime`. The fields are of type `unsigned int`. -/
def CBlock.updateTime (pindexPrev : Uint256) (nAdjustedTime : ℤ) (block : CBlock) : CBlock :=
  let nTime := max (getMedianTimePast (M.walk pindexPrev) + 1) nAdjustedTime
  let block := { block with nTime := (nTime % 2 ^ 32).toNat }
  -- updating time can change work required on testnet
  if M.P.fTestNet then
    { block with nBits := getNextWorkRequired M.P (M.walk pindexPrev) block % 2 ^ 32 }
  else block

/-- What `getworkex` does instead: only the time is updated. -/
def CBlock.updateTimeOnly (pindexPrev : Uint256) (nAdjustedTime : ℤ) (block : CBlock) : CBlock :=
  let nTime := max (getMedianTimePast (M.walk pindexPrev) + 1) nAdjustedTime
  { block with nTime := (nTime % 2 ^ 32).toNat }

/-- Assign to `vtx[0].vin[0].scriptSig`. -/
def CBlock.setScriptSig (block : CBlock) (scriptSig : CScript) : CBlock :=
  { block with
    vtx := block.vtx.modifyHead fun tx =>
      { tx with vin := tx.vin.modifyHead fun txin => { txin with scriptSig := scriptSig } } }

/-- Assign the result of `BuildMerkleTree` to `hashMerkleRoot`. -/
def CBlock.rebuild (block : CBlock) : CBlock :=
  { block with hashMerkleRoot := block.buildMerkleTree M.P }

/-- `CBlock::CURRENT_VERSION`. -/
def CBlock.currentVersion : ℤ := 1

/-- `CreateNewBlock` on a best block, with the output of the coinbase and the transactions that are
selected from the memory pool. -/
def createNewBlock (pindexPrev : Uint256) (nAdjustedTime : ℤ) (txout : CTxOut)
    (vtx : List CTransaction) : CBlock :=
  let txNew : CTransaction := ⟨1, [⟨COutPoint.setNull, [], uintMax⟩], [txout], 0⟩
  let block : CBlock := ⟨⟨CBlock.currentVersion, pindexPrev, 0, 0, 0, 0⟩, txNew :: vtx⟩
  let block := (block.rebuild M).updateTime M pindexPrev nAdjustedTime
  { block with nBits := getNextWorkRequired M.P (M.walk pindexPrev) block % 2 ^ 32, nNonce := 0 }

/-- `CScript::push_uint64`. -/
def CScript.pushUint64 (s : CScript) (n : ℕ) : CScript :=
  if 1 ≤ n ∧ n ≤ 16 then s ++ [UInt8.ofNat (n + (op1 - 1))] else s.pushData (getvch n)

/-- The counter after `IncrementExtraNonce`, which starts again for another previous block than the
one of the last call. -/
def nextExtraNonce (hashPrevBlock : Uint256) (block : CBlock) (nExtraNonce : ℕ) : ℕ :=
  ((if hashPrevBlock ≠ block.hashPrevBlock then 0 else nExtraNonce) + 1) % 2 ^ 32

/-- The script of the coinbase that `IncrementExtraNonce` makes. -/
def extraNonceScript (nTime nExtraNonce : ℕ) : CScript :=
  (CScript.pushUint64 [] nTime).pushData (getvch nExtraNonce) ++ M.coinbaseFlags

/-- `IncrementExtraNonce`, on the new value of the counter. -/
def CBlock.incrementExtraNonce (block : CBlock) (nExtraNonce : ℕ) : CBlock :=
  (block.setScriptSig (extraNonceScript M block.nTime nExtraNonce)).rebuild M

/-! ## Hash buffers -/

/-- `FormatHashBlocks`: the padding of SHA-256 after some bytes. -/
def formatHashBlocks (bytes : List UInt8) : List UInt8 :=
  let blocks := 1 + (bytes.length + 8) / 64
  bytes ++ ([0x80] ++ List.replicate (64 * blocks - bytes.length - 5) 0 ++
    (leBytes 4 (bytes.length * 8)).reverse)

/-- `ByteReverse` on every word. -/
def byteReverse : List UInt8 → List UInt8
  | a :: b :: c :: d :: bytes => d :: c :: b :: a :: byteReverse bytes
  | bytes => bytes

/-- The buffers that `FormatHashBuffers` fills. -/
structure HashBuffers where
  pmidstate : List UInt8
  pdata : List UInt8
  phash1 : List UInt8

/-- `FormatHashBuffers`. -/
def formatHashBuffers (block : CBlock) : HashBuffers where
  pmidstate := M.sha256Transform ((byteReverse (formatHashBlocks block.toCBlockHeader.serialize)).take 64)
  pdata := byteReverse (formatHashBlocks block.toCBlockHeader.serialize)
  phash1 := byteReverse (formatHashBlocks (List.replicate 32 0))

/-- The header at the start of the data of a miner, when the words have been reversed. -/
def encodedHeader (vchData : List UInt8) : Option CBlockHeader :=
  (CBlockHeader.read (byteReverse vchData)).map Prod.fst

/-! ## The block caches -/

/-- The static variables that the three calls have, with the blocks that a call has created and not
deleted, and the pointer of the next one. -/
structure BlockCache where
  nTransactionsUpdatedLast : ℕ
  pindexPrev : Option Uint256
  nStart : ℤ
  pblock : Option ℕ
  heap : StdMap ℕ CBlock
  nNext : ℕ

/-- The static variables of `getwork` and of `getworkex`. -/
structure WorkCache extends BlockCache where
  mapNewBlock : StdMap Uint256 (ℕ × CScript)
  vNewBlock : List ℕ
  nExtraNonce : ℕ

/-- What comes of `CreateNewBlock`. -/
inductive NewBlock
  | null
  | throws
  | created (txout : CTxOut) (vtx : List CTransaction)

/-- What a call finds: the best block, the counter of mempool updates, what comes of
`CreateNewBlock` and the readings of the clock before it, in it, and after it. -/
structure RpcContext where
  pindexBest : Uint256
  nTransactionsUpdated : ℕ
  newBlock : NewBlock
  nTime : ℤ
  nTimeStart : ℤ
  nTimeCreated : ℤ
  nAdjustedTime : ℤ

/-- What a part of a call comes to: it follows a pointer that does not point to a block, throws, or
goes on. -/
inductive CallOutcome (S : Type)
  | undefined
  | throws (s : S)
  | ok (s : S)

/-- The condition under which the three calls create a new block, with their delay for new
transactions. -/
def BlockCache.isStale (nDelay : ℤ) (ctx : RpcContext) (c : BlockCache) : Bool :=
  decide (c.pindexPrev ≠ some ctx.pindexBest) ||
    decide (ctx.nTransactionsUpdated ≠ c.nTransactionsUpdatedLast) &&
      decide (nDelay < ctx.nTime - c.nStart)

/-- Delete a block. -/
def deleteBlock (heap : StdMap ℕ CBlock) (pblock : ℕ) : Option (StdMap ℕ CBlock) :=
  if pblock ∈ heap then some (heap.erase pblock) else none

/-- What the three calls record before they call `CreateNewBlock`. -/
def BlockCache.record (ctx : RpcContext) (c : BlockCache) : BlockCache :=
  { c with
    nTransactionsUpdatedLast := ctx.nTransactionsUpdated
    pindexPrev := some ctx.pindexBest
    nStart := ctx.nTimeStart }

/-- The cache with a new block. -/
def BlockCache.push (block : CBlock) (c : BlockCache) : BlockCache :=
  { c with pblock := some c.nNext, heap := c.heap.insert c.nNext block, nNext := c.nNext + 1 }

/-- The call of `CreateNewBlock`, and what is recorded before it. -/
def BlockCache.renew (ctx : RpcContext) (c : BlockCache) : CallOutcome BlockCache :=
  match ctx.newBlock with
  | .throws => .throws (c.record ctx)
  | .null => .throws { c.record ctx with pblock := none }
  | .created txout vtx =>
    .ok ((c.record ctx).push (createNewBlock M ctx.pindexBest ctx.nTimeCreated txout vtx))

/-- The blocks of `getwork` and `getworkex` are deleted when the best block has changed. -/
def WorkCache.deallocate (ctx : RpcContext) (c : WorkCache) : Option WorkCache :=
  if c.pindexPrev ≠ some ctx.pindexBest then
    (c.vNewBlock.foldlM deleteBlock c.heap).map fun heap =>
      { c with mapNewBlock := ∅, heap := heap, vNewBlock := [] }
  else some c

/-- In `getwork` and `getworkex` the new block is put into `vNewBlock`. -/
def WorkCache.renew (ctx : RpcContext) (c : WorkCache) : CallOutcome WorkCache :=
  match c.toBlockCache.renew M ctx with
  | .undefined => .undefined
  | .throws b => .throws { c with toBlockCache := b }
  | .ok b => .ok { c with toBlockCache := b, vNewBlock := c.vNewBlock ++ [c.nNext] }

/-- "Update block" in `getwork` and `getworkex`. -/
def WorkCache.refresh (ctx : RpcContext) (c : WorkCache) : CallOutcome WorkCache :=
  if c.isStale 60 ctx then
    match c.deallocate ctx with
    | none => .undefined
    | some c => c.renew M ctx
  else .ok c

/-- "Update block" in `getblocktemplate`: the old block is deleted before a new one is created. -/
def BlockCache.refreshTemplate (ctx : RpcContext) (c : BlockCache) : CallOutcome BlockCache :=
  if c.isStale 5 ctx then
    match c.pblock with
    | none => c.renew M ctx
    | some pblock =>
      match deleteBlock c.heap pblock with
      | none => .undefined
      | some heap => { c with heap := heap }.renew M ctx
  else .ok c

/-! ## The calls -/

/-- Replace a block in the heap. -/
def BlockCache.store (c : BlockCache) (pblock : ℕ) (block : CBlock) : BlockCache :=
  { c with heap := c.heap.insert pblock block }

/-- The block that a cached pointer leads to. -/
def BlockCache.current (c : BlockCache) : Option (ℕ × CBlock) :=
  c.pblock.bind fun pblock => (c.heap.lookup pblock).map fun block => (pblock, block)

/-- `getwork` and `getworkex` without data, after "Update block": the time is updated in one way or
the other, and the block is saved under its new merkle root. The first number is the static variable
of `IncrementExtraNonce`. -/
def WorkCache.handOut (update : Uint256 → ℤ → CBlock → CBlock) (ctx : RpcContext)
    (hashPrevBlock : Uint256) (c : WorkCache) : Option (WorkCache × CBlock) :=
  match c.current, c.pindexPrev with
  | some (pblock, block), some pindexPrev =>
    let block := { update pindexPrev ctx.nAdjustedTime block with nNonce := 0 }
    let nExtraNonce := nextExtraNonce hashPrevBlock block c.nExtraNonce
    let block := block.incrementExtraNonce M nExtraNonce
    let scriptSig := extraNonceScript M block.nTime nExtraNonce
    some ({ c with
      toBlockCache := c.store pblock block
      mapNewBlock := c.mapNewBlock.insert block.hashMerkleRoot (pblock, scriptSig)
      nExtraNonce := nExtraNonce }, block)
  | _, _ => none

/-- The data of a miner for `getwork` and `getworkex`: the block that `CheckWork` is called for,
when the merkle root is known. With bytes of a coinbase, `getworkex` reads it into the block instead
of the saved script; when that throws, some of it has been read. -/
def WorkCache.submit (sizes : ElementSizes) (coinbase : List UInt8) (left : CTransaction)
    (vchData : List UInt8) (c : WorkCache) : CallOutcome (WorkCache × Option CBlock) :=
  if vchData.length ≠ 128 then .throws (c, none)
  else
    match encodedHeader vchData with
    | none => .throws (c, none)
    | some header =>
      match c.mapNewBlock.lookup header.hashMerkleRoot with
      | none => .ok (c, none)
      | some (pblock, scriptSig) =>
        match c.heap.lookup pblock with
        | none => .undefined
        | some block =>
          let block := { block with nTime := header.nTime, nNonce := header.nNonce }
          if coinbase.isEmpty then
            let block := (block.setScriptSig scriptSig).rebuild M
            .ok ({ c with toBlockCache := c.store pblock block }, some block)
          else
            match CTransaction.read sizes coinbase with
            | none =>
              let block := { block with vtx := block.vtx.modifyHead fun _ => left }
              .throws ({ c with toBlockCache := c.store pblock block }, none)
            | some (tx, _) =>
              let block := CBlock.rebuild M { block with vtx := block.vtx.modifyHead fun _ => tx }
              .ok ({ c with toBlockCache := c.store pblock block }, some block)

/-- `getwork` and `getworkex` without data, with the block that is handed out. -/
def WorkCache.request (update : Uint256 → ℤ → CBlock → CBlock) (ctx : RpcContext)
    (hashPrevBlock : Uint256) (c : WorkCache) : CallOutcome (WorkCache × Option CBlock) :=
  match c.refresh M ctx with
  | .undefined => .undefined
  | .throws c => .throws (c, none)
  | .ok c =>
    match c.handOut M update ctx hashPrevBlock with
    | none => .undefined
    | some (c, block) => .ok (c, some block)

/-- The caches of the three calls, and the static variable of `IncrementExtraNonce`. -/
structure MiningNode where
  getwork : WorkCache
  getworkex : WorkCache
  getblocktemplate : BlockCache
  hashPrevBlock : Uint256

/-- The calls. `getblocktemplate` with data leaves the caches alone. -/
inductive MiningCall
  | getwork (ctx : RpcContext)
  | getworkSubmit (vchData : List UInt8)
  | getworkex (ctx : RpcContext)
  | getworkexSubmit (vchData coinbase : List UInt8) (left : CTransaction)
  | getblocktemplate (ctx : RpcContext)

/-- The state after a part of a call. Nothing is said about a call that follows a bad pointer. -/
def CallOutcome.get {S : Type} (s : S) : CallOutcome S → S
  | .undefined => s
  | .throws s' => s'
  | .ok s' => s'

/-- The static variable of `IncrementExtraNonce` after a block was handed out. -/
def MiningNode.noteHandOut (s : MiningNode) (block : Option CBlock) : MiningNode :=
  { s with hashPrevBlock := block.elim s.hashPrevBlock fun block => block.hashPrevBlock }

/-- `getblocktemplate` without data, as far as it changes its cache. -/
def BlockCache.template (ctx : RpcContext) (c : BlockCache) : CallOutcome BlockCache :=
  match c.refreshTemplate M ctx with
  | .undefined => .undefined
  | .throws c => .throws c
  | .ok c =>
    match c.current, c.pindexPrev with
    | some (pblock, block), some pindexPrev =>
      .ok (c.store pblock { block.updateTime M pindexPrev ctx.nAdjustedTime with nNonce := 0 })
    | _, _ => .undefined

/-- The block that a call of `getwork` without data hands out, when it does: its buffers are the
reply. -/
def MiningNode.handedOut (s : MiningNode) (ctx : RpcContext) : Option CBlock :=
  ((s.getwork.request M (CBlock.updateTime M) ctx s.hashPrevBlock).get (s.getwork, none)).2

/-- The block that a call of `getwork` with data calls `CheckWork` for, when it does. -/
def MiningNode.tested (sizes : ElementSizes) (s : MiningNode) (vchData : List UInt8) : Option CBlock :=
  ((s.getwork.submit M sizes [] ⟨0, [], [], 0⟩ vchData).get (s.getwork, none)).2

/-- The effect of a call. -/
def MiningNode.next (sizes : ElementSizes) (s : MiningNode) : MiningCall → MiningNode
  | .getwork ctx =>
    let r := (s.getwork.request M (CBlock.updateTime M) ctx s.hashPrevBlock).get (s.getwork, none)
    { s with getwork := r.1 }.noteHandOut r.2
  | .getworkSubmit vchData =>
    let r := (s.getwork.submit M sizes [] ⟨0, [], [], 0⟩ vchData).get (s.getwork, none)
    { s with getwork := r.1 }
  | .getworkex ctx =>
    let r := (s.getworkex.request M (CBlock.updateTimeOnly M) ctx s.hashPrevBlock).get
      (s.getworkex, none)
    { s with getworkex := r.1 }.noteHandOut r.2
  | .getworkexSubmit vchData coinbase left =>
    let r := (s.getworkex.submit M sizes coinbase left vchData).get (s.getworkex, none)
    { s with getworkex := r.1 }
  | .getblocktemplate ctx =>
    { s with getblocktemplate := (s.getblocktemplate.template M ctx).get s.getblocktemplate }

/-- A cache before the first call. -/
def BlockCache.Unused (c : BlockCache) : Prop :=
  c.pindexPrev = none ∧ c.pblock = none ∧ c.heap = ∅

/-- A node that starts without blocks for miners. -/
def miningSystem (sizes : ElementSizes) : Runs.System MiningNode MiningCall where
  start := fun s => s.getblocktemplate.Unused ∧
    ∀ c ∈ [s.getwork, s.getworkex], c.toBlockCache.Unused ∧ c.mapNewBlock = ∅ ∧ c.vNewBlock = []
  legal := fun _ _ => True
  next := MiningNode.next M sizes

/-! ## What the operations leave alone -/

variable {M}

/-- A way to update the time of a block changes its `nTime`, and on the test network its `nBits`. -/
def Updates (M : MiningParams) (update : Uint256 → ℤ → CBlock → CBlock) : Prop :=
  ∀ pindexPrev nAdjustedTime block, ∃ nTime nBits, nTime < 2 ^ 32 ∧
    (nBits = block.nBits ∨ M.P.fTestNet = true ∧ nBits < 2 ^ 32) ∧
    update pindexPrev nAdjustedTime block = { block with nTime := nTime, nBits := nBits }

theorem toNat_emod_lt (n : ℤ) : (n % 2 ^ 32).toNat < 2 ^ 32 := by
  have hpos := Int.emod_nonneg n (show (2 : ℤ) ^ 32 ≠ 0 by decide)
  have hlt := Int.emod_lt_of_pos n (show (0 : ℤ) < 2 ^ 32 by decide)
  omega

theorem updates_updateTime (M : MiningParams) : Updates M (CBlock.updateTime M) := by
  intro pindexPrev nAdjustedTime block
  rw [CBlock.updateTime]
  split_ifs with htestnet
  · exact ⟨_, _, toNat_emod_lt _, .inr ⟨htestnet, Nat.mod_lt _ (by decide)⟩, rfl⟩
  · exact ⟨_, block.nBits, toNat_emod_lt _, .inl rfl, rfl⟩

theorem updates_updateTimeOnly (M : MiningParams) : Updates M (CBlock.updateTimeOnly M) :=
  fun _ _ block => ⟨_, block.nBits, toNat_emod_lt _, .inl rfl, rfl⟩

/-- A new block is built on the best block, and its work is what is required there. -/
theorem createNewBlock_spec (M : MiningParams) (pindexPrev : Uint256) (nAdjustedTime : ℤ)
    (txout : CTxOut) (vtx : List CTransaction) :
    (createNewBlock M pindexPrev nAdjustedTime txout vtx).hashPrevBlock = pindexPrev ∧
      (createNewBlock M pindexPrev nAdjustedTime txout vtx).nVersion = CBlock.currentVersion ∧
      ∃ block, (createNewBlock M pindexPrev nAdjustedTime txout vtx).nBits =
        getNextWorkRequired M.P (M.walk pindexPrev) block % 2 ^ 32 := by
  simp only [createNewBlock]
  generalize hblock : CBlock.rebuild M _ = block₀
  obtain ⟨nTime, nBits, -, -, heq⟩ := updates_updateTime M pindexPrev nAdjustedTime block₀
  rw [heq]
  refine ⟨?_, ?_, _, rfl⟩ <;> rw [← hblock] <;> rfl

end FoxCoin
