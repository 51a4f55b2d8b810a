import Mathlib.Data.List.GetD
import FoxCoin.Transaction
import FoxCoin.BigNum

/-! # Blocks and block indexes

The merkle tree, the context-free checks of `CBlock::CheckBlock`, the in-memory block index with its
walks over `pprev`, and the block files with the positions of blocks and transactions in them. -/

namespace FoxCoin

open Checked

/-! ## The merkle tree -/

/-- The row of the merkle tree above `l`; an odd last hash is paired with itself. -/
def merkleRow (P : Params) : List Uint256 → List Uint256
  | [] => []
  | [a] => [P.hash a a]
  | a :: b :: l => P.hash a b :: merkleRow P l

/-- The rows of the merkle tree from the leaves up. Every round halves the row, so the number of
leaves bounds the number of rounds. -/
def merkleRows (P : Params) : ℕ → List Uint256 → List (List Uint256)
  | 0, l => [l]
  | nFuel + 1, l => if l.length ≤ 1 then [l] else l :: merkleRows P nFuel (merkleRow P l)

/-- The hashes of a block's transactions. -/
def CBlock.txHashes (P : Params) (block : CBlock) : List Uint256 :=
  block.vtx.map (CTransaction.getHash P)

/-- `vMerkleTree`, row after row. -/
def CBlock.vMerkleTree (P : Params) (block : CBlock) : List Uint256 :=
  (merkleRows P block.vtx.length (block.txHashes P)).flatten

/-- `CBlock::BuildMerkleTree`: the root of the tree, zero for a block without transactions. -/
def CBlock.buildMerkleTree (P : Params) (block : CBlock) : Uint256 :=
  (block.vMerkleTree P).getLastD 0

/-- The hashes that `GetMerkleBranch` collects on the way up from leaf `nIndex`. -/
def merkleBranch : List (List Uint256) → ℕ → List Uint256
  | [], _ => []
  | row :: rows, nIndex =>
    if row.length ≤ 1 then []
    else row.getD (min (nIndex ^^^ 1) (row.length - 1)) 0 :: merkleBranch rows (nIndex / 2)

/-- `CBlock::GetMerkleBranch`. -/
def CBlock.getMerkleBranch (P : Params) (block : CBlock) (nIndex : ℕ) : List Uint256 :=
  merkleBranch (merkleRows P block.vtx.length (block.txHashes P)) nIndex

/-! ## Context-free checks -/

/-- The serialized size of a block header. -/
def headerSize : ℕ := 80

/-- The serialized size of a block. -/
def CBlock.getSerializeSize (block : CBlock) : ℕ :=
  headerSize + (getSizeOfCompactSize block.vtx.length +
    (block.vtx.map CTransaction.getSerializeSize).sum)

/-- `CBlock::CheckBlock`. -/
def CBlock.checkBlock (P : Params) (nAdjustedTime : ℤ) (block : CBlock) : Result Unit := do
  ensure (!block.vtx.isEmpty && decide (block.vtx.length ≤ maxBlockSize) &&
      decide (block.getSerializeSize ≤ maxBlockSize))
    ⟨100, "CheckBlock() : size limits failed"⟩
  (checkProofOfWork (block.getPoWHash P) block.nBits).mapError
    fun _ => ⟨50, "CheckBlock() : proof of work failed"⟩
  ensure (decide (block.getBlockTime ≤ nAdjustedTime + 2 * 60 * 60))
    ⟨0, "CheckBlock() : block timestamp too far in the future"⟩
  ensure (block.vtx.head?.any CTransaction.isCoinBase)
    ⟨100, "CheckBlock() : first tx is not coinbase"⟩
  ensure (block.vtx.tail.all fun tx => !tx.isCoinBase)
    ⟨100, "CheckBlock() : more than one coinbase"⟩
  block.vtx.forM fun tx =>
    tx.checkTransaction.mapError fun r => ⟨r.nDoS, "CheckBlock() : CheckTransaction failed"⟩
  ensure (decide (block.txHashes P).Nodup) ⟨100, "CheckBlock() : duplicate transaction"⟩
  ensure (decide ((block.vtx.map CTransaction.getLegacySigOpCount).sum ≤ maxBlockSigops))
    ⟨100, "CheckBlock() : out-of-bounds SigOpCount"⟩
  ensure (decide (block.hashMerkleRoot = block.buildMerkleTree P))
    ⟨100, "CheckBlock() : hashMerkleRoot mismatch"⟩

/-- What a block that passes `CheckBlock` satisfies, proof of work and time aside. -/
structure CBlock.Checked (P : Params) (block : CBlock) : Prop where
  vtx_ne_nil : block.vtx ≠ []
  size_le : block.getSerializeSize ≤ maxBlockSize
  first_coinBase : ∀ tx ∈ block.vtx.head?, tx.isCoinBase = true
  rest_not_coinBase : ∀ tx ∈ block.vtx.tail, tx.isCoinBase = false
  tx_checked : ∀ tx ∈ block.vtx, tx.Checked
  txHashes_nodup : (block.txHashes P).Nodup

/-- A loop of renamed checks succeeds only when every check does. -/
theorem forM_mapError_eq_ok {α : Type} {l : List α} {g : α → Result Unit} {f : Reject → Reject}
    {u : PUnit} (h : (l.forM fun a => (g a).mapError f) = .ok u) : ∀ a ∈ l, g a = .ok () := by
  induction l with
  | nil => simp
  | cons a l ih =>
    obtain ⟨⟨⟩, ha, hl⟩ := bind_eq_ok.mp h
    rw [List.forall_mem_cons]
    exact ⟨mapError_eq_ok.mp ha, ih hl⟩

/-- A block that passes `CheckBlock` is well formed. -/
theorem CBlock.checked_of_checkBlock {P : Params} {t : ℤ} {block : CBlock} {u : Unit}
    (h : block.checkBlock P t = .ok u) : block.Checked P := by
  simp only [checkBlock, bind_eq_ok, ensure_eq_ok, exists_and_left, exists_and_right,
    exists_const, decide_eq_true_eq, Bool.and_eq_true] at h
  obtain ⟨⟨⟨hne, -⟩, hsize⟩, -, -, hfirst, hrest, ⟨_, htx⟩, hnodup, -, -⟩ := h
  refine ⟨by simpa using hne, hsize, ?_, ?_, ?_, hnodup⟩
  · intro tx htx
    rw [Option.mem_def] at htx
    rwa [htx] at hfirst
  · intro tx htx
    simpa using List.all_eq_true.mp hrest tx htx
  · intro tx hmem
    exact CTransaction.checked_of_checkTransaction (forM_mapError_eq_ok htx tx hmem)

/-- A block that passes `CheckBlock` has valid proof of work. -/
theorem CBlock.checkProofOfWork_of_checkBlock {P : Params} {t : ℤ} {block : CBlock} {u : Unit}
    (h : block.checkBlock P t = .ok u) :
    checkProofOfWork (block.getPoWHash P) block.nBits = .ok () := by
  simp only [checkBlock, bind_eq_ok, mapError_eq_ok] at h
  obtain ⟨_, -, _, hpow, -⟩ := h
  exact hpow

/-! ## Block indexes -/

/-- `CBlockIndex`. A pointer to an index is the hash of its block: the key under which
`mapBlockIndex` holds it. The links `pnext` change later and are kept apart in the node's state. -/
structure CBlockIndex where
  phashBlock : Uint256
  pprev : Option Uint256
  nFile : ℕ
  nBlockPos : ℕ
  nHeight : ℕ
  bnChainWork : ℕ
  nVersion : ℤ
  hashMerkleRoot : Uint256
  nTime : ℕ
  nBits : ℕ
  nNonce : ℕ
  deriving DecidableEq, Repr

/-- `CBlockIndex(nFile, nBlockPos, block)`, filed under the block's hash. -/
def CBlockIndex.ofBlock (hash : Uint256) (nFile nBlockPos : ℕ) (block : CBlock) : CBlockIndex where
  phashBlock := hash
  pprev := none
  nFile := nFile
  nBlockPos := nBlockPos
  nHeight := 0
  bnChainWork := 0
  nVersion := block.nVersion
  hashMerkleRoot := block.hashMerkleRoot
  nTime := block.nTime
  nBits := block.nBits
  nNonce := block.nNonce

/-- `CBlockIndex::GetBlockTime`. -/
def CBlockIndex.getBlockTime (pindex : CBlockIndex) : ℤ := pindex.nTime

/-- `CBlockIndex::GetMedianTimePast`, on the walk `pindex, pindex->pprev, …`. -/
def getMedianTimePast (pindex : List CBlockIndex) : ℤ :=
  let vTimes := ((pindex.take 11).map CBlockIndex.getBlockTime).insertionSort (· ≤ ·)
  vTimes.getD (vTimes.length / 2) 0

/-- A median time is that of a block of the walk. -/
theorem getMedianTimePast_mem {walk : List CBlockIndex} (h : walk ≠ []) :
    ∃ p ∈ walk, getMedianTimePast walk = p.getBlockTime := by
  unfold getMedianTimePast
  set vTimes := ((walk.take 11).map CBlockIndex.getBlockTime).insertionSort (· ≤ ·) with hdef
  have hperm := List.perm_insertionSort (· ≤ ·) ((walk.take 11).map CBlockIndex.getBlockTime)
  have hpos : 0 < vTimes.length := by
    rw [hdef, hperm.length_eq, List.length_map, List.length_take]
    have := List.length_pos_of_ne_nil h
    omega
  have hhalf : vTimes.length / 2 < vTimes.length := by omega
  have hmem : vTimes.getD (vTimes.length / 2) 0 ∈ vTimes := by
    rw [List.getD_eq_getElem _ _ hhalf]
    exact List.getElem_mem hhalf
  obtain ⟨p, hp, heq⟩ := List.mem_map.mp (hperm.mem_iff.mp hmem)
  exact ⟨p, List.mem_of_mem_take hp, heq.symm⟩

end FoxCoin
