import FoxCoin.Unserialize
import FoxCoin.Disconnect

/-! # Transactions at their offsets

The block files as the bytes they are. `ConnectBlock` computes the offset of every transaction from
the sizes of the ones before, without reading the file; the transaction is read back from there. -/

namespace FoxCoin

open Wire Overlay Checked

/-! ## The files -/

/-- The files `blk0001.dat`, `blk0002.dat`, …, of which one that does not exist is empty, and the
file that is appended to. -/
structure DiskFiles where
  nCurrentBlockFile : ℕ
  blk : ℕ → List UInt8

namespace DiskFiles

/-- `AppendBlockFile`: go on to the next file while the current one has no room. -/
def appendBlockFile : ℕ → DiskFiles → Option DiskFiles
  | 0, _ => none
  | nFuel + 1, d =>
    if badFile d.nCurrentBlockFile then none
    else if (d.blk d.nCurrentBlockFile).length < blockFileLimit then some d
    else appendBlockFile nFuel { d with nCurrentBlockFile := d.nCurrentBlockFile + 1 }

/-- `CBlock::WriteToDisk`: the number of the file, the position of the block in it, and the files.
No file has the number `uintMax`, which bounds the search. -/
def writeToDisk (pchMessageStart : Vector UInt8 4) (d : DiskFiles) (block : CBlock) :
    Option (ℕ × ℕ × DiskFiles) :=
  (d.appendBlockFile (uintMax + 1)).map fun d =>
    let nFile := d.nCurrentBlockFile
    let nSize := (block.nSerSize serDisk).toNat
    let fileout := d.blk nFile ++ (pchMessageStart.toList ++ leBytes 4 nSize)
    (nFile, fileout.length,
      { d with blk := Function.update d.blk nFile (fileout ++ block.serialize serDisk) })

/-- `CTransaction::ReadFromDisk`. -/
def readTx (sizes : ElementSizes) (d : DiskFiles) (pos : CDiskTxPos) : Option CTransaction :=
  if badFile pos.nFile then none
  else (CTransaction.read sizes ((d.blk pos.nFile).drop pos.nTxPos)).map Prod.fst

/-- Bytes may have been appended to the files. -/
def Extends (d d' : DiskFiles) : Prop := ∀ nFile, d.blk nFile <+: d'.blk nFile

theorem appendBlockFile_eq_some {nFuel : ℕ} {d d' : DiskFiles}
    (h : d.appendBlockFile nFuel = some d') :
    d'.blk = d.blk ∧ badFile d'.nCurrentBlockFile = false ∧
      (d.blk d'.nCurrentBlockFile).length < blockFileLimit := by
  induction nFuel generalizing d with
  | zero => cases h
  | succ nFuel ih =>
    rw [appendBlockFile] at h
    split at h
    next => cases h
    next hgood =>
      split at h
      next hroom =>
        cases h
        exact ⟨rfl, by simpa using hgood, hroom⟩
      next =>
        have hnext := ih h
        exact hnext

/-- A block is written behind all that was in its file. -/
theorem writeToDisk_eq_some {pchMessageStart : Vector UInt8 4} {d d' : DiskFiles} {block : CBlock}
    {nFile nBlockPos : ℕ}
    (h : d.writeToDisk pchMessageStart block = some (nFile, nBlockPos, d')) :
    badFile nFile = false ∧ nBlockPos < blockFileLimit + 8 ∧ d.Extends d' ∧
      ∃ before, before.length = nBlockPos ∧ d'.blk nFile = before ++ block.serialize serDisk := by
  obtain ⟨d₁, hd₁, heq⟩ := Option.map_eq_some_iff.mp h
  obtain ⟨hblk, hgood, hroom⟩ := appendBlockFile_eq_some hd₁
  simp only [Prod.mk.injEq] at heq
  obtain ⟨rfl, rfl, rfl⟩ := heq
  refine ⟨hgood, ?_, fun n => ?_, _, rfl, Function.update_self _ _ _⟩
  · simp only [List.length_append, leBytes_length, Vector.length_toList, hblk]
    omega
  · rw [← hblk]
    dsimp only
    by_cases hn : n = d₁.nCurrentBlockFile
    · subst hn
      rw [Function.update_self, List.append_assoc]
      exact List.prefix_append _ _
    · rw [Function.update_of_ne hn]

/-- A current file with room is written to. -/
theorem exists_writeToDisk (pchMessageStart : Vector UInt8 4) (d : DiskFiles) (block : CBlock)
    (hgood : badFile d.nCurrentBlockFile = false)
    (hroom : (d.blk d.nCurrentBlockFile).length < blockFileLimit) :
    ∃ d', d.writeToDisk pchMessageStart block =
      some (d.nCurrentBlockFile, (d.blk d.nCurrentBlockFile).length + 8, d') := by
  have happend : d.appendBlockFile (uintMax + 1) = some d := by
    rw [appendBlockFile, if_neg (by simp [hgood]), if_pos hroom]
  rw [writeToDisk, happend, Option.map_some]
  refine ⟨_, congrArg some (Prod.ext rfl (Prod.ext ?_ rfl))⟩
  simp only [List.length_append, leBytes_length, Vector.length_toList]

end DiskFiles

/-! ## The offsets of `ConnectBlock` -/

variable {P : Params}

/-- A transaction that is not in the list keeps its place in the index. -/
theorem lookup_pos_foldl_next {v : ChainView} {c : ConnectContext} {vtx : List CTransaction}
    {h : Uint256} (hnot : h ∉ vtx.map (CTransaction.getHash P)) (s : IndexState) :
    ((vtx.foldl (IndexState.next P v c) s).index.lookup h).map CTxIndex.pos =
      (s.index.lookup h).map CTxIndex.pos := by
  induction vtx generalizing s with
  | nil => rfl
  | cons tx vtx ih =>
    rw [List.map_cons, List.mem_cons, not_or] at hnot
    rw [List.foldl_cons, ih hnot.2, IndexState.next, applyTx, lookup_insert_eq_ite, if_neg hnot.1,
      lookup_markOutputs, Option.map_map]
    simp [Function.comp_def]

/-- The place of every transaction follows from the sizes of those before it. -/
theorem lookup_pos_of_mem {v : ChainView} {c : ConnectContext} {vtx : List CTransaction}
    (hnodup : (vtx.map (CTransaction.getHash P)).Nodup) (s : IndexState) {i : ℕ}
    (hi : i < vtx.length) :
    ((vtx.foldl (IndexState.next P v c) s).index.lookup (vtx[i].getHash P)).map CTxIndex.pos =
      some (c.posThisTx (s.nTxPos + ((vtx.take i).map CTransaction.getSerializeSize).sum)) := by
  induction vtx generalizing s i with
  | nil => cases hi
  | cons tx vtx ih =>
    rw [List.map_cons, List.nodup_cons] at hnodup
    rw [List.foldl_cons]
    cases i with
    | zero =>
      rw [List.getElem_cons_zero, lookup_pos_foldl_next hnodup.1, IndexState.next, applyTx,
        lookup_insert_eq_ite, if_pos rfl]
      simp
    | succ i =>
      rw [List.getElem_cons_succ, ih hnodup.2 _ (by simpa using hi), IndexState.next]
      simp [add_assoc]

/-- The bytes of a block, cut before a transaction. -/
theorem CBlock.serialize_split (block : CBlock) {i : ℕ} (hi : i < block.vtx.length) :
    ∃ before after, block.serialize serDisk = before ++ block.vtx[i].serialize ++ after ∧
      before.length = headerSize + getSizeOfCompactSize block.vtx.length +
        ((block.vtx.take i).map CTransaction.getSerializeSize).sum := by
  refine ⟨block.toCBlockHeader.serialize ++ (writeCompactSize block.vtx.length ++
    (block.vtx.take i).flatMap CTransaction.serialize),
    (block.vtx.drop (i + 1)).flatMap CTransaction.serialize, ?_, ?_⟩
  · have hvtx : block.vtx = block.vtx.take i ++ block.vtx[i] :: block.vtx.drop (i + 1) := by
      rw [← List.drop_eq_getElem_cons hi, List.take_append_drop]
    have hbytes : block.vtx.flatMap CTransaction.serialize =
        (block.vtx.take i).flatMap CTransaction.serialize ++ (block.vtx[i].serialize ++
          (block.vtx.drop (i + 1)).flatMap CTransaction.serialize) := by
      rw [← List.flatMap_cons, ← List.flatMap_append, ← hvtx]
    rw [CBlock.serialize, if_pos (show withTransactions serDisk = true from rfl), hbytes]
    simp only [List.append_assoc]
  · have hsizes : ((block.vtx.take i).flatMap CTransaction.serialize).length =
        ((block.vtx.take i).map CTransaction.getSerializeSize).sum := by
      rw [List.length_flatMap]
      simp only [CTransaction.serialize_length]
    rw [List.length_append, List.length_append, CBlockHeader.serialize_length,
      writeCompactSize_length, hsizes, add_assoc]

/-- Vectors and scripts are not longer than the transaction they are in. -/
theorem CTransaction.bounded_of_size_le {tx : CTransaction} (h : tx.Representable)
    (hsize : tx.getSerializeSize ≤ maxSize) : tx.Bounded := by
  rw [CTransaction.getSerializeSize] at hsize
  have hvin : tx.vin.length ≤ (tx.vin.map CTxIn.getSerializeSize).sum := by
    rw [← List.length_map CTxIn.getSerializeSize]
    refine List.length_le_sum_of_one_le _ fun n hn => ?_
    obtain ⟨txin, -, rfl⟩ := List.mem_map.mp hn
    rw [CTxIn.getSerializeSize]
    omega
  have hvout : tx.vout.length ≤ (tx.vout.map CTxOut.getSerializeSize).sum := by
    rw [← List.length_map CTxOut.getSerializeSize]
    refine List.length_le_sum_of_one_le _ fun n hn => ?_
    obtain ⟨txout, -, rfl⟩ := List.mem_map.mp hn
    rw [CTxOut.getSerializeSize]
    omega
  refine ⟨h, by omega, fun txin hmem => ?_, by omega, fun txout hmem => ?_⟩
  · have hle := List.le_sum_of_mem (List.mem_map_of_mem (f := CTxIn.getSerializeSize) hmem)
    rw [CTxIn.getSerializeSize] at hle
    omega
  · have hle := List.le_sum_of_mem (List.mem_map_of_mem (f := CTxOut.getSerializeSize) hmem)
    rw [CTxOut.getSerializeSize] at hle
    omega

/-- **`ConnectBlock` finds the offsets of the transactions**: after a block was written to the files
and connected, each of its transactions is read from the place that its index entry names. -/
theorem readTx_of_connectBlock (sizes : ElementSizes) {pchMessageStart : Vector UInt8 4}
    {d d' d'' : DiskFiles} {block : CBlock} {nFile nBlockPos : ℕ} {v : ChainView} {io : Io}
    {db db' : CTxDB} {pindex : CBlockIndex} {vPrev : List CBlockIndex}
    (hwrite : d.writeToDisk pchMessageStart block = some (nFile, nBlockPos, d'))
    (hlater : d'.Extends d'') (hindex : pindex.nFile = nFile ∧ pindex.nBlockPos = nBlockPos)
    (hconnect : block.connectBlock P v io db pindex vPrev = .ok db')
    (htypes : ∀ tx ∈ block.vtx, tx.Representable) :
    ∀ i (hi : i < block.vtx.length), ∃ txindex,
      db'.mapTxIndex.lookup (block.vtx[i].getHash P) = some txindex ∧
      txindex.pos.nFile = nFile ∧ txindex.pos.nBlockPos = nBlockPos ∧ txindex.pos.nTxPos < 2 ^ 32 ∧
      (∃ before after, d''.blk nFile = before ++ block.vtx[i].serialize ++ after ∧
        before.length = txindex.pos.nTxPos) ∧
      d''.readTx sizes txindex.pos = some block.vtx[i] := by
  intro i hi
  obtain ⟨hcheck, -, -, rfl⟩ := connectBlock_eq_ok.mp hconnect
  have hchecked := CBlock.checked_of_checkBlock hcheck
  obtain ⟨hgood, hlimit, -, before, hbefore, hfile⟩ := DiskFiles.writeToDisk_eq_some hwrite
  obtain ⟨rest, hrest⟩ := hlater nFile
  obtain ⟨front, back, hblock, hfront⟩ := block.serialize_split hi
  obtain ⟨rfl, rfl⟩ := hindex
  have hne : pindex.nFile ≠ uintMax := by
    intro heq
    simp [badFile, heq] at hgood
  -- the entry that the transaction loop leaves
  have hpos := lookup_pos_of_mem (P := P) (v := v) (c := ConnectContext.ofIndex pindex vPrev)
    hchecked.txHashes_nodup (block.startState pindex db.mapTxIndex) hi
  obtain ⟨txindex, hlookup, htxpos⟩ := Option.map_eq_some_iff.mp hpos
  have hoffset : txindex.pos.nFile = pindex.nFile ∧ txindex.pos.nBlockPos = pindex.nBlockPos ∧
      txindex.pos.nTxPos = (before ++ front).length := by
    have hempty : emptyBlockSize - 1 = headerSize := rfl
    have hpos0 : 0 < emptyBlockSize := by decide
    rw [htxpos, ConnectContext.posThisTx, CDiskTxPos.ofFile, ConnectContext.ofIndex, dif_neg hne]
    refine ⟨rfl, rfl, ?_⟩
    simp only [CBlock.startState, List.length_append, hbefore, hfront]
    omega
  -- the bytes from the offset on
  have hbytes : d''.blk pindex.nFile =
      (before ++ front) ++ block.vtx[i].serialize ++ (back ++ rest) := by
    rw [← hrest, hfile, hblock]
    simp only [List.append_assoc]
  have hsize : (block.serialize serDisk).length ≤ maxBlockSize := by
    rw [CBlock.serialize_length rfl]
    exact hchecked.size_le
  rw [hblock, List.length_append, List.length_append, CTransaction.serialize_length] at hsize
  have hmax : maxBlockSize = 1000000 := rfl
  refine ⟨txindex, by rwa [CTxDB.writeNext_mapTxIndex], hoffset.1, hoffset.2.1, ?_,
    ⟨_, _, hbytes, hoffset.2.2.symm⟩, ?_⟩
  · rw [hoffset.2.2, List.length_append, hbefore]
    have hlim : blockFileLimit = 0x7D000000 := rfl
    omega
  · have hbounded : block.vtx[i].Bounded := by
      refine CTransaction.bounded_of_size_le (htypes _ (List.getElem_mem hi)) ?_
      have hlim : maxSize = 33554432 := rfl
      omega
    have hread := CTransaction.reads_read sizes hbounded (back ++ rest)
    rw [DiskFiles.readTx, hoffset.1, hgood, hoffset.2.2, hbytes, List.append_assoc, List.drop_left,
      hread]
    rfl

/-! ## A worked example -/

theorem representable_exampleTx (tag : UInt8) {prevouts : List COutPoint} {values : List ℤ}
    (hlen : prevouts.length < 256 ^ 8 ∧ values.length < 256 ^ 8)
    (h : ∀ o ∈ prevouts, o.hash < 256 ^ 32 ∧ o.n < 256 ^ 4)
    (h' : ∀ n ∈ values, -2 ^ 63 ≤ n ∧ n < 2 ^ 63) : (exampleTx tag prevouts values).Representable := by
  refine ⟨by norm_num [exampleTx], by simpa [exampleTx] using hlen.1, fun txin hmem => ?_,
    by simpa [exampleTx] using hlen.2, fun txout hmem => ?_, by norm_num [exampleTx]⟩
  · obtain ⟨o, ho, rfl⟩ := List.mem_map.mp hmem
    exact ⟨⟨(h o ho).1, (h o ho).2⟩, by norm_num, by norm_num [uintMax]⟩
  · obtain ⟨n, hn, rfl⟩ := List.mem_map.mp hmem
    exact ⟨h' n hn, by norm_num⟩

/-- Files with room for a block where `spendingIndex` says it is. -/
def spendingFiles : DiskFiles where
  nCurrentBlockFile := 1
  blk nFile := if nFile = 1 then List.replicate (recordSize fundingBlock) 0 else []

/-- The transactions of the example block are read back. -/
theorem readTx_spendingBlock :
    let sizes : ElementSizes := ⟨⟨72, by decide⟩, ⟨32, by decide⟩, ⟨72, by decide⟩⟩
    ∃ d' db', spendingFiles.writeToDisk #v[0xfc, 0xd9, 0xb7, 0xdd] spendingBlock =
        some (1, recordSize fundingBlock + 8, d') ∧
      spendingBlock.connectBlock exampleParams spendingView Io.reliable fundedDB spendingIndex [] =
        .ok db' ∧
      ∀ i (hi : i < spendingBlock.vtx.length), ∃ txindex,
        db'.mapTxIndex.lookup (spendingBlock.vtx[i].getHash exampleParams) = some txindex ∧
        d'.readTx sizes txindex.pos = some spendingBlock.vtx[i] := by
  intro sizes
  have hok : (spendingBlock.connectBlock exampleParams spendingView Io.reliable fundedDB
      spendingIndex []).isOk = true := by decide +kernel
  obtain ⟨db', hconnect⟩ := exists_of_isOk hok
  have hlen : (spendingFiles.blk 1).length = recordSize fundingBlock := List.length_replicate
  obtain ⟨d', hwrite⟩ := spendingFiles.exists_writeToDisk #v[0xfc, 0xd9, 0xb7, 0xdd] spendingBlock
    (show badFile 1 = false from rfl) (by rw [show spendingFiles.nCurrentBlockFile = 1 from rfl, hlen]; decide)
  rw [show spendingFiles.nCurrentBlockFile = 1 from rfl, hlen] at hwrite
  refine ⟨d', db', hwrite, hconnect, fun i hi => ?_⟩
  have htypes : ∀ tx ∈ spendingBlock.vtx, tx.Representable := by
    intro tx hmem
    obtain rfl | rfl | rfl : tx = exampleCoinbase 2 [10] ∨ tx = exampleTx 3 [⟨exampleHash 1, 0⟩] [20, 30] ∨
        tx = exampleTx 4 [⟨exampleHash 3, 0⟩, ⟨exampleHash 1, 1⟩] [75] := by
      simpa [spendingBlock, exampleBlock] using hmem
    all_goals exact representable_exampleTx _ (by decide) (by decide) (by decide)
  obtain ⟨txindex, hlookup, -, -, -, -, hread⟩ := readTx_of_connectBlock sizes hwrite
    (fun _ => List.prefix_rfl) (show spendingIndex.nFile = 1 ∧
      spendingIndex.nBlockPos = recordSize fundingBlock + 8 from ⟨rfl, rfl⟩) hconnect htypes i hi
  exact ⟨txindex, hlookup, hread⟩

end FoxCoin
