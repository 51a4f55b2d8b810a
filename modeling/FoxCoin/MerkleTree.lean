import FoxCoin.Wallet
import FoxCoin.Lib.PairTree

/-! # The merkle tree as a flat vector

`BuildMerkleTree` keeps all rows of the tree in one vector and finds them by offsets, as does
`GetMerkleBranch` after it. Here are their loops, and what the root and the branches of a block's
tree prove. -/

namespace FoxCoin

open Checked PairTree

/-! ## The loops -/

/-- The inner loop of `BuildMerkleTree`, over the row of `nSize` hashes from `j` on. -/
def pairHashes (P : Params) (nSize j : ℕ) (vMerkleTree : List Uint256) : List Uint256 :=
  (List.range' 0 ((nSize + 1) / 2) 2).foldl (fun vMerkleTree i =>
    let i2 := min (i + 1) (nSize - 1)
    vMerkleTree ++ [P.hash (vMerkleTree.getD (j + i) 0) (vMerkleTree.getD (j + i2) 0)]) vMerkleTree

/-- The outer loop of `BuildMerkleTree`. Every round halves `nSize`, which bounds the rounds. -/
def buildMerkleLoop (P : Params) : ℕ → ℕ → ℕ → List Uint256 → List Uint256
  | 0, _, _, vMerkleTree => vMerkleTree
  | nFuel + 1, nSize, j, vMerkleTree =>
    if 1 < nSize then
      buildMerkleLoop P nFuel ((nSize + 1) / 2) (j + nSize) (pairHashes P nSize j vMerkleTree)
    else vMerkleTree

/-- The vector that `BuildMerkleTree` leaves in a block. -/
def CBlock.flatMerkleTree (P : Params) (block : CBlock) : List Uint256 :=
  buildMerkleLoop P block.vtx.length block.vtx.length 0 (block.txHashes P)

/-- The loop of `GetMerkleBranch`. -/
def merkleBranchLoop (vMerkleTree : List Uint256) : ℕ → ℕ → ℕ → ℕ → List Uint256
  | 0, _, _, _ => []
  | nFuel + 1, nSize, j, nIndex =>
    if 1 < nSize then
      let i := min (nIndex ^^^ 1) (nSize - 1)
      vMerkleTree.getD (j + i) 0 ::
        merkleBranchLoop vMerkleTree nFuel ((nSize + 1) / 2) (j + nSize) (nIndex / 2)
    else []

/-- `CBlock::CheckMerkleBranch`. -/
def checkMerkleBranch (P : Params) (hash : Uint256) (vMerkleBranch : List Uint256) (nIndex : ℤ) :
    Uint256 :=
  if nIndex = -1 then 0
  else
    (vMerkleBranch.foldl (fun (s : Uint256 × ℤ) otherside =>
      (if s.2 % 2 ≠ 0 then P.hash otherside s.1 else P.hash s.1 otherside, s.2 / 2))
      (hash, nIndex)).1

/-- A block with its memory-only `vMerkleTree`, which is empty or was built from its
transactions. -/
structure CBlockMerkle (P : Params) where
  block : CBlock
  vMerkleTree : List Uint256
  built : vMerkleTree = [] ∨ vMerkleTree = block.flatMerkleTree P

namespace CBlockMerkle

variable {P : Params} (b : CBlockMerkle P)

/-- `CBlock::BuildMerkleTree`, and the block after it. -/
def buildMerkleTree : Uint256 × CBlockMerkle P :=
  ((b.block.flatMerkleTree P).getLastD 0, ⟨b.block, b.block.flatMerkleTree P, .inr rfl⟩)

/-- `CBlock::GetMerkleBranch`, and the block after it. -/
def getMerkleBranch (nIndex : ℕ) : List Uint256 × CBlockMerkle P :=
  let b' := if b.vMerkleTree.isEmpty then b.buildMerkleTree.2 else b
  (merkleBranchLoop b'.vMerkleTree b'.block.vtx.length b'.block.vtx.length 0 nIndex, b')

end CBlockMerkle

/-! ## Rows in the vector -/

variable {P : Params}

theorem merkleRow_eq (l : List Uint256) : merkleRow P l = row P.hash l := by
  induction l using pairs.induct with
  | case1 => rfl
  | case2 a => rfl
  | case3 a b l ih => rw [merkleRow, ih]; rfl

/-- As many rounds as there are hashes are enough. -/
theorem merkleRows_eq {n : ℕ} {l : List Uint256} (h : l.length ≤ n + 1) :
    merkleRows P n l = rows P.hash l := by
  induction n generalizing l with
  | zero => rw [rows_of_le _ h]; rfl
  | succ n ih =>
    rw [merkleRows]
    split
    next hl => rw [rows_of_le _ hl]
    next hl =>
      rw [rows_of_lt _ (by omega), merkleRow_eq, ih]
      rw [length_row]
      omega

theorem CBlock.vMerkleTree_eq (block : CBlock) :
    block.vMerkleTree P = (rows P.hash (block.txHashes P)).flatten := by
  rw [CBlock.vMerkleTree, merkleRows_eq]
  rw [CBlock.txHashes, List.length_map]
  omega

theorem CBlock.buildMerkleTree_eq (block : CBlock) :
    block.buildMerkleTree P = root P.hash 0 (block.txHashes P) := by
  rw [CBlock.buildMerkleTree, block.vMerkleTree_eq, root]

/-- The inner loop puts the next row at the end. -/
theorem pairHashes_eq (below l : List Uint256) :
    pairHashes P l.length below.length (below ++ l) = below ++ l ++ row P.hash l := by
  have hloop : ∀ n, n ≤ (l.length + 1) / 2 →
      (List.range' 0 n 2).foldl (fun vMerkleTree i =>
        let i2 := min (i + 1) (l.length - 1)
        vMerkleTree ++ [P.hash (vMerkleTree.getD (below.length + i) 0)
          (vMerkleTree.getD (below.length + i2) 0)]) (below ++ l) =
        below ++ l ++ (row P.hash l).take n := by
    intro n hn
    induction n with
    | zero => simp
    | succ n ih =>
      have hget : ∀ k < l.length, ∀ m : List Uint256,
          (below ++ l ++ m).getD (below.length + k) 0 = l.getD k 0 := by
        intro k hk m
        simp [List.getD_eq_getElem?_getD, List.getElem?_append, hk]
      have hrow : n < (row P.hash l).length := by rw [length_row]; omega
      rw [List.range'_concat, List.foldl_append, ih (by omega), List.foldl_cons, List.foldl_nil,
        List.take_succ_eq_append_getElem hrow, ← List.append_assoc _ _ [_]]
      have hval := getD_row P.hash 0 (l := l) (k := n) (by omega)
      simp only [zero_add]
      rw [hget _ (by omega), hget _ (by omega), ← hval, List.getD_eq_getElem _ _ hrow]
  rw [pairHashes, hloop _ le_rfl, List.take_of_length_le (by rw [length_row])]

/-- The outer loop puts all rows one after the other. -/
theorem buildMerkleLoop_eq {n : ℕ} {l : List Uint256} (h : l.length ≤ n + 1) (below : List Uint256) :
    buildMerkleLoop P n l.length below.length (below ++ l) = below ++ (rows P.hash l).flatten := by
  induction n generalizing l below with
  | zero => simp [buildMerkleLoop, rows_of_le _ h]
  | succ n ih =>
    rw [buildMerkleLoop]
    split
    next hl =>
      have hrow : (row P.hash l).length = (l.length + 1) / 2 := length_row P.hash l
      rw [pairHashes_eq, ← List.length_append, ← hrow, ih (by omega), rows_of_lt _ hl,
        List.flatten_cons, List.append_assoc]
    next hl => simp [rows_of_le P.hash (show l.length ≤ 1 by omega)]

/-- The vector of `BuildMerkleTree` holds the rows of the tree. -/
theorem CBlock.flatMerkleTree_eq (block : CBlock) :
    block.flatMerkleTree P = (rows P.hash (block.txHashes P)).flatten := by
  have hlen : (block.txHashes P).length = block.vtx.length := by rw [txHashes, List.length_map]
  have h := buildMerkleLoop_eq (P := P) (show (block.txHashes P).length ≤ block.vtx.length + 1 by
    omega) []
  rwa [List.nil_append, List.nil_append, List.length_nil, hlen] at h

/-- The flat vector and the rows have the same root. -/
theorem CBlockMerkle.buildMerkleTree_eq (b : CBlockMerkle P) :
    b.buildMerkleTree.1 = b.block.buildMerkleTree P := by
  rw [CBlock.buildMerkleTree, CBlock.vMerkleTree_eq, ← CBlock.flatMerkleTree_eq]
  rfl

/-! ## Branches -/

theorem merkleBranchLoop_eq {n : ℕ} {l : List Uint256} (h : l.length ≤ n + 1)
    (below : List Uint256) (i : ℕ) :
    merkleBranchLoop (below ++ (rows P.hash l).flatten) n l.length below.length i =
      branch 0 (rows P.hash l) i := by
  induction n generalizing l below i with
  | zero => simp [merkleBranchLoop, rows_of_le _ h, branch, show l.length ≤ 1 by omega]
  | succ n ih =>
    rw [merkleBranchLoop]
    split
    next hl =>
      have hrow : (row P.hash l).length = (l.length + 1) / 2 := length_row P.hash l
      have hget : (below ++ (l ++ (rows P.hash (row P.hash l)).flatten)).getD
          (below.length + min (i ^^^ 1) (l.length - 1)) 0 =
          l.getD (min (i ^^^ 1) (l.length - 1)) 0 := by
        have hi : min (i ^^^ 1) (l.length - 1) < l.length := by omega
        simp [List.getD_eq_getElem?_getD, List.getElem?_append, hi]
      rw [rows_of_lt _ hl, branch, if_neg (by omega), List.flatten_cons]
      simp only [hget]
      rw [← hrow, ← List.length_append, ← List.append_assoc, ih (by omega)]
    next hl =>
      rw [rows_of_le P.hash (show l.length ≤ 1 by omega), branch, if_pos (by omega)]

theorem merkleBranch_eq (rows : List (List Uint256)) (i : ℕ) : merkleBranch rows i = branch 0 rows i := by
  induction rows generalizing i with
  | nil => rfl
  | cons l rows ih => rw [merkleBranch, branch, ih]

/-- `GetMerkleBranch` finds the same hashes in the vector as in the rows. -/
theorem CBlockMerkle.getMerkleBranch_eq (b : CBlockMerkle P) (nIndex : ℕ) :
    (b.getMerkleBranch nIndex).1 = branch 0 (rows P.hash (b.block.txHashes P)) nIndex := by
  have hlen : (b.block.txHashes P).length = b.block.vtx.length := by
    rw [CBlock.txHashes, List.length_map]
  have hbuilt : (b.getMerkleBranch nIndex).1 = merkleBranchLoop (b.block.flatMerkleTree P)
      b.block.vtx.length b.block.vtx.length 0 nIndex := by
    obtain hnil | htree := b.built
    · simp [getMerkleBranch, hnil, buildMerkleTree]
    · rw [getMerkleBranch, ← htree]
      split
      next hempty =>
        simp [buildMerkleTree, ← htree]
      next => rfl
  have hloop := merkleBranchLoop_eq (P := P)
    (show (b.block.txHashes P).length ≤ b.block.vtx.length + 1 by omega) [] nIndex
  rw [List.nil_append, hlen, List.length_nil] at hloop
  rw [hbuilt, CBlock.flatMerkleTree_eq, hloop]

theorem CBlock.getMerkleBranch_eq (block : CBlock) (nIndex : ℕ) :
    block.getMerkleBranch P nIndex = branch 0 (rows P.hash (block.txHashes P)) nIndex := by
  rw [CBlock.getMerkleBranch, merkleBranch_eq, merkleRows_eq]
  rw [CBlock.txHashes, List.length_map]
  omega

theorem checkMerkleBranch_eq (hash : Uint256) (vMerkleBranch : List Uint256) (nIndex : ℕ) :
    checkMerkleBranch P hash vMerkleBranch nIndex = climb P.hash hash vMerkleBranch nIndex := by
  rw [checkMerkleBranch, if_neg (by omega)]
  induction vMerkleBranch generalizing hash nIndex with
  | nil => rfl
  | cons otherside vMerkleBranch ih =>
    have hodd : (nIndex : ℤ) % 2 ≠ 0 ↔ nIndex % 2 = 1 := by omega
    rw [List.foldl_cons, climb, ← ih]
    simp only [hodd]
    rfl

theorem CBlock.getD_txHashes (block : CBlock) {i : ℕ} (h : i < block.vtx.length) :
    (block.txHashes P).getD i 0 = block.vtx[i].getHash P := by
  simp [CBlock.txHashes, List.getD_eq_getElem?_getD, h]

/-- A block that passes `CheckBlock` names its merkle root. -/
theorem CBlock.hashMerkleRoot_of_checkBlock {t : ℤ} {block : CBlock} {u : Unit}
    (h : block.checkBlock P t = .ok u) : block.hashMerkleRoot = block.buildMerkleTree P := by
  simp only [checkBlock, bind_eq_ok, ensure_eq_ok, exists_and_left, exists_and_right,
    exists_const, decide_eq_true_eq, Bool.and_eq_true] at h
  obtain ⟨-, -, -, -, -, -, -, -, hroot⟩ := h
  exact hroot

/-- **A branch verifies against the root**, and so does the branch that a wallet transaction
keeps. -/
theorem checkMerkleBranch_getMerkleBranch (b : CBlockMerkle P) {nIndex : ℕ}
    (h : nIndex < b.block.vtx.length) :
    checkMerkleBranch P (b.block.vtx[nIndex].getHash P) (b.getMerkleBranch nIndex).1 nIndex =
        b.buildMerkleTree.1 ∧
      ∀ wtx : CWalletTx, wtx.tx ∈ b.block.vtx →
        let stored := wtx.setMerkleBranch P b.block
        checkMerkleBranch P (stored.tx.getHash P) stored.vMerkleBranch stored.nIndex =
          b.buildMerkleTree.1 := by
  have hbranch : ∀ i (hi : i < b.block.vtx.length),
      checkMerkleBranch P (b.block.vtx[i].getHash P) (branch 0 (rows P.hash (b.block.txHashes P)) i) i =
        b.buildMerkleTree.1 := by
    intro i hi
    have hlen : i < (b.block.txHashes P).length := by rwa [CBlock.txHashes, List.length_map]
    rw [checkMerkleBranch_eq, ← CBlock.getD_txHashes _ hi, climb_branch _ _ hlen,
      b.buildMerkleTree_eq, CBlock.buildMerkleTree_eq]
  refine ⟨by rw [b.getMerkleBranch_eq]; exact hbranch nIndex h, fun wtx hwtx => ?_⟩
  obtain ⟨i, hi⟩ : ∃ i, b.block.txIndex wtx.tx = some i := by
    rw [CBlock.txIndex, ← Option.isSome_iff_exists, List.findIdx?_isSome, List.any_eq_true]
    exact ⟨wtx.tx, hwtx, by simp⟩
  obtain ⟨hlt, htx, -⟩ := List.findIdx?_eq_some_iff_getElem.mp hi
  simp only [CWalletTx.setMerkleBranch, hi, CBlock.getMerkleBranch_eq]
  rw [← eq_of_beq htx]
  exact hbranch i hlt

/-- A block with three transactions. -/
def exampleThree (nNonce : ℕ) : CBlock where
  nVersion := 1
  hashPrevBlock := 0
  hashMerkleRoot := 0
  nTime := 0
  nBits := 0
  nNonce := nNonce
  vtx := [exampleTx 1 [⟨5, 0⟩] [], exampleTx 2 [⟨5, 0⟩] [], exampleTx 3 [⟨5, 0⟩] []]

/-- The branch of the last of three transactions starts with its own hash. -/
theorem checkMerkleBranch_exampleThree :
    let b : CBlockMerkle exampleParams := ⟨exampleThree 1, [], .inl rfl⟩
    (b.getMerkleBranch 2).1 = [exampleHash 3, exampleHash 1 + exampleHash 2] ∧
      checkMerkleBranch exampleParams (exampleHash 3) (b.getMerkleBranch 2).1 2 =
        b.buildMerkleTree.1 :=
  ⟨by decide, (checkMerkleBranch_getMerkleBranch ⟨exampleThree 1, [], .inl rfl⟩
    (show 2 < (exampleThree 1).vtx.length by decide)).1⟩

/-! ## The root -/

/-- **The merkle root determines the transactions' hashes**: two blocks without repeated hashes have
the same root only when they have the same hashes, if the pairs of the two trees have different
hashes, none of which is the hash of a transaction. Blocks that pass `CheckBlock` are such
blocks. -/
theorem txHashes_eq_of_buildMerkleTree_eq {block block' : CBlock}
    (hinj : Set.InjOn (Function.uncurry P.hash)
      {p | Combined P.hash (block.txHashes P) p ∨ Combined P.hash (block'.txHashes P) p})
    (hrange : ∀ p, Combined P.hash (block.txHashes P) p ∨ Combined P.hash (block'.txHashes P) p →
      Function.uncurry P.hash p ∉ block.txHashes P ∧ Function.uncurry P.hash p ∉ block'.txHashes P) :
    (block.vtx ≠ [] → block'.vtx ≠ [] → (block.txHashes P).Nodup → (block'.txHashes P).Nodup →
        block.buildMerkleTree P = block'.buildMerkleTree P → block.txHashes P = block'.txHashes P) ∧
      ∀ t t', block.checkBlock P t = .ok () → block'.checkBlock P t' = .ok () →
        block.hashMerkleRoot = block'.hashMerkleRoot → block.txHashes P = block'.txHashes P := by
  have hroot : block.vtx ≠ [] → block'.vtx ≠ [] → (block.txHashes P).Nodup →
      (block'.txHashes P).Nodup → block.buildMerkleTree P = block'.buildMerkleTree P →
      block.txHashes P = block'.txHashes P := by
    intro hne hne' hnodup hnodup' heq
    rw [CBlock.buildMerkleTree_eq, CBlock.buildMerkleTree_eq] at heq
    exact root_inj 0 (by simpa [CBlock.txHashes] using hne) (by simpa [CBlock.txHashes] using hne')
      hnodup hnodup' hinj hrange heq
  refine ⟨hroot, fun t t' hcheck hcheck' heq => ?_⟩
  have hc := CBlock.checked_of_checkBlock hcheck
  have hc' := CBlock.checked_of_checkBlock hcheck'
  rw [CBlock.hashMerkleRoot_of_checkBlock hcheck, CBlock.hashMerkleRoot_of_checkBlock hcheck'] at heq
  exact hroot hc.vtx_ne_nil hc'.vtx_ne_nil hc.txHashes_nodup hc'.txHashes_nodup heq

/-- Parameters with an injective hash of pairs. -/
def pairingParams : Params := { exampleParams with hash := fun a b => Nat.pair a b + 1000 }

/-- Two blocks that differ in their header only. -/
theorem txHashes_eq_exampleThree :
    (exampleThree 1).buildMerkleTree pairingParams = (exampleThree 2).buildMerkleTree pairingParams ∧
      (exampleThree 1).txHashes pairingParams = (exampleThree 2).txHashes pairingParams := by
  have hroot : (exampleThree 1).buildMerkleTree pairingParams =
    (exampleThree 2).buildMerkleTree pairingParams := rfl
  have hinj : Function.Injective (Function.uncurry pairingParams.hash) := by
    rintro ⟨a, b⟩ ⟨c, d⟩ h
    have hpair : Nat.pair a b = Nat.pair c d := Nat.add_right_cancel h
    rw [Prod.mk.injEq]
    exact Nat.pair_eq_pair.mp hpair
  have hrange : ∀ p n, Function.uncurry pairingParams.hash p ∉ (exampleThree n).txHashes pairingParams := by
    intro p n hmem
    have hlarge : 1000 ≤ Function.uncurry pairingParams.hash p := Nat.le_add_left _ _
    have hsmall : ∀ a ∈ (exampleThree n).txHashes pairingParams, a < 1000 :=
      show ∀ a ∈ [257, 514, 771], a < 1000 by decide
    exact absurd (hsmall _ hmem) (Nat.not_lt.mpr hlarge)
  refine ⟨hroot, (txHashes_eq_of_buildMerkleTree_eq (hinj.injOn)
    fun p _ => ⟨hrange p 1, hrange p 2⟩).1 ?_ ?_ ?_ ?_ hroot⟩ <;> decide

end FoxCoin
