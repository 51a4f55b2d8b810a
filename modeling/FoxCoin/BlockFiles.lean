import FoxCoin.Block

/-! # The block files

`blk0001.dat`, `blk0002.dat`, … hold the blocks the node has stored, in append order. Each record is
an eight-byte index header (message start and size) followed by the block. Positions are byte
offsets, so they follow from the sizes of the records before: two records never overlap. -/

namespace FoxCoin

open Checked

/-- The block files: the blocks of each file in append order, the first file first. -/
structure BlockFiles where
  vFiles : List (List CBlock)

/-- A file number no file can have: zero, or the null file number. -/
def badFile (nFile : ℕ) : Bool := decide (nFile < 1) || decide (nFile = uintMax)

/-- `OpenBlockFile` for reading. -/
def BlockFiles.openBlockFile (files : BlockFiles) (nFile : ℕ) : Option (List CBlock) :=
  if badFile nFile then none else files.vFiles[nFile - 1]?

/-- The size of a record: the index header and the block. -/
def recordSize (block : CBlock) : ℕ := 8 + block.getSerializeSize

/-- The blocks of a file with their positions, from the offset `nPos` on. -/
def blockPositions : ℕ → List CBlock → List (ℕ × CBlock)
  | _, [] => []
  | nPos, block :: blocks => (nPos + 8, block) :: blockPositions (nPos + recordSize block) blocks

/-- The transactions of a list with their positions, from the offset `nTxPos` on. -/
def txPositions : ℕ → List CTransaction → List (ℕ × CTransaction)
  | _, [] => []
  | nTxPos, tx :: vtx => (nTxPos, tx) :: txPositions (nTxPos + tx.getSerializeSize) vtx

/-- The offset of the first transaction of a block stored at `nBlockPos`. -/
def firstTxPos (nBlockPos : ℕ) (vtx : List CTransaction) : ℕ :=
  nBlockPos + headerSize + getSizeOfCompactSize vtx.length

/-- The transactions of a file with their positions, from the offset `nPos` on. -/
def fileTxPositions (nPos : ℕ) (blocks : List CBlock) : List (ℕ × CTransaction) :=
  (blockPositions nPos blocks).flatMap fun p => txPositions (firstTxPos p.1 p.2.vtx) p.2.vtx

/-- The block record at an offset of a file. -/
def BlockFiles.block? (files : BlockFiles) (nFile nBlockPos : ℕ) : Option CBlock :=
  (files.openBlockFile nFile).bind fun blocks => (blockPositions 0 blocks).lookup nBlockPos

/-- `CBlock::ReadFromDisk(nFile, nBlockPos)`, which also checks the proof of work. -/
def BlockFiles.readBlock (P : Params) (files : BlockFiles) (nFile nBlockPos : ℕ) : Option CBlock :=
  (files.block? nFile nBlockPos).filter fun block =>
    (checkProofOfWork (block.getPoWHash P) block.nBits).isOk

/-- `CTransaction::ReadFromDisk(pos)`: the transaction at a byte offset of a file. -/
def BlockFiles.readTx (files : BlockFiles) (nFile nTxPos : ℕ) : Option CTransaction :=
  (files.openBlockFile nFile).bind fun blocks => (fileTxPositions 0 blocks).lookup nTxPos

/-! ## Appending -/

/-- The size a file must stay below to be appended to: `0x7F000000 - MAX_SIZE`. -/
def blockFileLimit : ℕ := 0x7F000000 - 0x02000000

/-- The size of a block file. -/
def blockFileSize (blocks : List CBlock) : ℕ := (blocks.map recordSize).sum

/-- `AppendBlockFile` and the write: append to the first file with room. The result is the index of
the file, the position of the block and the files afterwards. -/
def appendBlock (block : CBlock) : List (List CBlock) → ℕ × ℕ × List (List CBlock)
  | [] => (0, 8, [[block]])
  | blocks :: rest =>
    if blockFileSize blocks < blockFileLimit then
      (0, blockFileSize blocks + 8, (blocks ++ [block]) :: rest)
    else
      let (i, nBlockPos, rest') := appendBlock block rest
      (i + 1, nBlockPos, blocks :: rest')

/-- `CBlock::WriteToDisk`: the file number and position of the stored block, and the files. -/
def BlockFiles.writeToDisk (files : BlockFiles) (block : CBlock) : Option (ℕ × ℕ × BlockFiles) :=
  let (i, nBlockPos, vFiles) := appendBlock block files.vFiles
  if badFile (i + 1) then none else some (i + 1, nBlockPos, ⟨vFiles⟩)

/-! ## Positions are unique -/

/-- Looking up a key of a list with increasing keys gives the value listed with it. -/
theorem lookup_eq_some_of_pairwise {α : Type} {l : List (ℕ × α)}
    (h : l.Pairwise fun p q => p.1 < q.1) {k : ℕ} {a : α} (hmem : (k, a) ∈ l) :
    l.lookup k = some a := by
  obtain ⟨l₁, l₂, rfl⟩ := List.append_of_mem hmem
  refine List.lookup_eq_some_iff.mpr ⟨l₁, l₂, rfl, fun p hp => ?_⟩
  have hlt : p.1 < k := (List.pairwise_append.mp h).2.2 p hp (k, a) List.mem_cons_self
  simpa using hlt.ne'

/-- A value found by lookup is listed with its key. -/
theorem mem_of_lookup_eq_some {α : Type} {l : List (ℕ × α)} {k : ℕ} {a : α}
    (h : l.lookup k = some a) : (k, a) ∈ l := by
  obtain ⟨l₁, l₂, rfl, -⟩ := List.lookup_eq_some_iff.mp h
  simp

/-- The transactions of a list lie between its offset and the end of its last transaction. -/
theorem mem_txPositions_bounds {vtx : List CTransaction} {nTxPos k : ℕ} {tx : CTransaction}
    (h : (k, tx) ∈ txPositions nTxPos vtx) :
    nTxPos ≤ k ∧ k < nTxPos + (vtx.map CTransaction.getSerializeSize).sum := by
  induction vtx generalizing nTxPos with
  | nil => cases h
  | cons tx' vtx ih =>
    have hpos := tx'.getSerializeSize_pos
    rw [List.map_cons, List.sum_cons]
    rcases List.mem_cons.mp h with heq | htail
    · cases heq
      omega
    · have := ih htail
      omega

/-- Transaction positions increase along a list. -/
theorem txPositions_pairwise (nTxPos : ℕ) (vtx : List CTransaction) :
    (txPositions nTxPos vtx).Pairwise fun p q => p.1 < q.1 := by
  induction vtx generalizing nTxPos with
  | nil => exact List.Pairwise.nil
  | cons tx vtx ih =>
    refine List.pairwise_cons.mpr ⟨fun q hq => ?_, ih _⟩
    have hpos := tx.getSerializeSize_pos
    have := (mem_txPositions_bounds hq).1
    simp only at this ⊢
    omega

/-- The blocks listed from an offset start at or after its index header. -/
theorem mem_blockPositions_bounds {blocks : List CBlock} {nPos k : ℕ} {block : CBlock}
    (h : (k, block) ∈ blockPositions nPos blocks) : nPos + 8 ≤ k := by
  induction blocks generalizing nPos with
  | nil => cases h
  | cons block' blocks ih =>
    rcases List.mem_cons.mp h with heq | htail
    · cases heq
      exact le_rfl
    · have := ih htail
      unfold recordSize at this
      omega

/-- Block positions increase along a file. -/
theorem blockPositions_pairwise (nPos : ℕ) (blocks : List CBlock) :
    (blockPositions nPos blocks).Pairwise fun p q => p.1 < q.1 := by
  induction blocks generalizing nPos with
  | nil => exact List.Pairwise.nil
  | cons block blocks ih =>
    refine List.pairwise_cons.mpr ⟨fun q hq => ?_, ih _⟩
    have := mem_blockPositions_bounds hq
    unfold recordSize at this
    simp only
    omega

/-- A transaction of a file lies after the offset the file is listed from. -/
theorem mem_fileTxPositions_bound {blocks : List CBlock} {nPos k : ℕ} {tx : CTransaction}
    (h : (k, tx) ∈ fileTxPositions nPos blocks) : nPos < k := by
  obtain ⟨⟨p, block⟩, hblock, htx⟩ := List.mem_flatMap.mp h
  have h1 := mem_blockPositions_bounds hblock
  have h2 := (mem_txPositions_bounds htx).1
  simp only [firstTxPos] at h2
  omega

/-- Transaction positions increase along a file. -/
theorem fileTxPositions_pairwise (nPos : ℕ) (blocks : List CBlock) :
    (fileTxPositions nPos blocks).Pairwise fun p q => p.1 < q.1 := by
  induction blocks generalizing nPos with
  | nil => exact List.Pairwise.nil
  | cons block blocks ih =>
    rw [fileTxPositions, blockPositions, List.flatMap_cons, List.pairwise_append]
    refine ⟨txPositions_pairwise _ _, ih _, fun p hp q hq => ?_⟩
    have h1 := (mem_txPositions_bounds hp).2
    have h2 : nPos + recordSize block < q.1 := 
      mem_fileTxPositions_bound (show (q.1, q.2) ∈ _ from hq)
    simp only [firstTxPos, recordSize, CBlock.getSerializeSize] at h1 h2
    omega

/-- A block that can be read is a record of its file. -/
theorem BlockFiles.mem_of_block? {files : BlockFiles} {nFile nBlockPos : ℕ} {block : CBlock}
    (h : files.block? nFile nBlockPos = some block) :
    ∃ blocks, files.openBlockFile nFile = some blocks ∧
      (nBlockPos, block) ∈ blockPositions 0 blocks := by
  obtain ⟨blocks, hopen, hlookup⟩ := Option.bind_eq_some_iff.mp h
  exact ⟨blocks, hopen, mem_of_lookup_eq_some hlookup⟩

/-- The transactions of a stored block are read back from their positions in the file. -/
theorem BlockFiles.readTx_of_block? {files : BlockFiles} {nFile nBlockPos nTxPos : ℕ}
    {block : CBlock} {tx : CTransaction} (h : files.block? nFile nBlockPos = some block)
    (htx : (nTxPos, tx) ∈ txPositions (firstTxPos nBlockPos block.vtx) block.vtx) :
    files.readTx nFile nTxPos = some tx := by
  obtain ⟨blocks, hopen, hmem⟩ := mem_of_block? h
  rw [readTx, hopen, Option.bind_some]
  exact lookup_eq_some_of_pairwise (fileTxPositions_pairwise 0 blocks)
    (List.mem_flatMap.mpr ⟨_, hmem, htx⟩)

/-- A block can only be read from a proper file number. -/
theorem BlockFiles.file_ne_null {files : BlockFiles} {nFile nBlockPos : ℕ} {block : CBlock}
    (h : files.block? nFile nBlockPos = some block) : nFile ≠ uintMax := by
  rintro rfl
  rw [block?, openBlockFile, if_pos (by simp [badFile])] at h
  cases h

/-- A block can be read exactly when it is stored and its proof of work is valid. -/
theorem BlockFiles.readBlock_eq_some {P : Params} {files : BlockFiles} {nFile nBlockPos : ℕ}
    {block : CBlock} : files.readBlock P nFile nBlockPos = some block ↔
      files.block? nFile nBlockPos = some block ∧
        (checkProofOfWork (block.getPoWHash P) block.nBits).isOk = true := by
  rw [readBlock, Option.filter_eq_some_iff]

/-- A readable block is a stored block. -/
theorem BlockFiles.block?_of_readBlock {P : Params} {files : BlockFiles} {nFile nBlockPos : ℕ}
    {block : CBlock} (h : files.readBlock P nFile nBlockPos = some block) :
    files.block? nFile nBlockPos = some block := (BlockFiles.readBlock_eq_some.mp h).1

/-! ## Appending keeps what is stored -/

/-- The positions of a file with one more block. -/
theorem blockPositions_append (nPos : ℕ) (blocks : List CBlock) (block : CBlock) :
    blockPositions nPos (blocks ++ [block]) =
      blockPositions nPos blocks ++ [(nPos + blockFileSize blocks + 8, block)] := by
  induction blocks generalizing nPos with
  | nil => simp [blockPositions, blockFileSize]
  | cons b blocks ih =>
    rw [List.cons_append, blockPositions, ih, blockPositions, List.cons_append]
    simp only [blockFileSize, List.map_cons, List.sum_cons, add_assoc]

/-- A block is appended to one file, and the others stay as they are. -/
theorem appendBlock_spec {block : CBlock} {vFiles vFiles' : List (List CBlock)} {i nBlockPos : ℕ}
    (h : appendBlock block vFiles = (i, nBlockPos, vFiles')) :
    ∃ blocks, vFiles[i]?.getD [] = blocks ∧ vFiles'[i]? = some (blocks ++ [block]) ∧
      nBlockPos = blockFileSize blocks + 8 ∧ ∀ j ≠ i, vFiles'[j]? = vFiles[j]? := by
  induction vFiles generalizing i vFiles' with
  | nil =>
    cases h
    refine ⟨[], rfl, rfl, rfl, fun j hj => ?_⟩
    cases j with
    | zero => exact absurd rfl hj
    | succ j => rfl
  | cons blocks vFiles ih =>
    rw [appendBlock] at h
    split_ifs at h
    · cases h
      refine ⟨blocks, rfl, rfl, rfl, fun j hj => ?_⟩
      cases j with
      | zero => exact absurd rfl hj
      | succ j => rfl
    · cases hrest : appendBlock block vFiles with
      | mk i' p =>
        obtain ⟨nBlockPos', vFiles''⟩ := p
        rw [hrest] at h
        cases h
        obtain ⟨blocks', hget, hget', hpos, hkeep⟩ := ih hrest
        refine ⟨blocks', hget, hget', hpos, fun j hj => ?_⟩
        cases j with
        | zero => rfl
        | succ j => exact hkeep j (by omega)

/-- **A stored block can be read back, and so can every block stored before it.** -/
theorem BlockFiles.block?_of_writeToDisk {files files' : BlockFiles} {block : CBlock}
    {nFile nBlockPos : ℕ} (h : files.writeToDisk block = some (nFile, nBlockPos, files')) :
    files'.block? nFile nBlockPos = some block ∧
      ∀ f p b, files.block? f p = some b → files'.block? f p = some b := by
  unfold writeToDisk at h
  cases happend : appendBlock block files.vFiles with
  | mk i q =>
    obtain ⟨nPos, vFiles'⟩ := q
    simp only [happend, Option.ite_none_left_eq_some, Option.some.injEq, Prod.mk.injEq] at h
    obtain ⟨hbad, rfl, rfl, rfl⟩ := h
    obtain ⟨blocks, hget, hget', rfl, hkeep⟩ := appendBlock_spec happend
    constructor
    · rw [block?, openBlockFile, if_neg hbad, Nat.add_sub_cancel, hget', Option.bind_some]
      refine lookup_eq_some_of_pairwise (blockPositions_pairwise 0 _) ?_
      rw [blockPositions_append, zero_add]
      exact List.mem_append_right _ List.mem_cons_self
    · intro f p b hb
      obtain ⟨blocks', hopen, hmem⟩ := mem_of_block? hb
      unfold openBlockFile at hopen
      rw [Option.ite_none_left_eq_some] at hopen
      obtain ⟨hf, hfile⟩ := hopen
      rw [block?, openBlockFile, if_neg hf]
      by_cases hi : f - 1 = i
      · subst hi
        obtain rfl : blocks' = blocks := by rw [← hget, hfile, Option.getD_some]
        rw [hget', Option.bind_some]
        refine lookup_eq_some_of_pairwise (blockPositions_pairwise 0 _) ?_
        rw [blockPositions_append]
        exact List.mem_append_left _ hmem
      · show (vFiles'[f - 1]?).bind _ = _
        rw [hkeep _ hi, hfile, Option.bind_some]
        exact lookup_eq_some_of_pairwise (blockPositions_pairwise 0 _) hmem

/-- A stored block with valid proof of work can be read back, and so can every block that could be
read before. -/
theorem BlockFiles.readBlock_of_writeToDisk {P : Params} {files files' : BlockFiles} {block : CBlock}
    {nFile nBlockPos : ℕ} (h : files.writeToDisk block = some (nFile, nBlockPos, files')) :
    ((checkProofOfWork (block.getPoWHash P) block.nBits).isOk = true →
        files'.readBlock P nFile nBlockPos = some block) ∧
      ∀ f p b, files.readBlock P f p = some b → files'.readBlock P f p = some b := by
  obtain ⟨hnew, hkeep⟩ := block?_of_writeToDisk h
  refine ⟨fun hpow => readBlock_eq_some.mpr ⟨hnew, hpow⟩, fun f p b hb => ?_⟩
  obtain ⟨hstored, hpow⟩ := readBlock_eq_some.mp hb
  exact readBlock_eq_some.mpr ⟨hkeep f p b hstored, hpow⟩

end FoxCoin
