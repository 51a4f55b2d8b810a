import FoxCoin.AddrFile
import FoxCoin.Block

/-! # Transactions and blocks as bytes

What `Serialize` writes, `Unserialize` reads, and `GetSerializeSize` counts. The three walk through
the fields of an object in the same order; a vector is read in parts, so that a wrong size alone
does not use up the memory. -/

namespace FoxCoin

open Wire

/-! ## Reading -/

/-- The loop of `Unserialize_impl` over bytes, which are read in blocks. -/
def readBlocks (nSize : ℕ) : ℕ → List UInt8 → Reader (List UInt8)
  | 0, v => pure v
  | nFuel + 1, v =>
    if v.length < nSize then do
      let blk := min (nSize - v.length) (1 + 4999999)
      let bytes ← readBytes blk
      readBlocks nSize nFuel (v ++ bytes)
    else pure v

/-- `Unserialize` of a script. -/
def CScript.read : Reader CScript := do
  let nSize ← readCompactSize
  readBlocks nSize nSize []

/-- `sizeof` of the elements of a vector, which the compiler chooses. -/
abbrev ElementSize : Type := { n : ℕ // 0 < n ∧ n ≤ 5000000 }

/-- The loop of `Unserialize_impl` over other elements, for `5000000 / sizeof(T)` of which room is
made at a time. -/
def readElements {A : Type} (read : Reader A) (sizeofT : ElementSize) (nSize : ℕ) :
    ℕ → ℕ → List A → Reader (List A)
  | 0, _, v => pure v
  | nFuel + 1, nMid, v =>
    if nMid < nSize then do
      let nMid := min (nMid + 5000000 / sizeofT.1) nSize
      let v ← (List.range (nMid - v.length)).foldlM (fun v _ => (fun a => v ++ [a]) <$> read) v
      readElements read sizeofT nSize nFuel nMid v
    else pure v

/-- `Unserialize` of a vector. -/
def readVector {A : Type} (read : Reader A) (sizeofT : ElementSize) : Reader (List A) := do
  let nSize ← readCompactSize
  readElements read sizeofT nSize nSize 0 []

/-- The sizes in memory of the elements of the vectors in a block. -/
structure ElementSizes where
  txin : ElementSize
  txout : ElementSize
  tx : ElementSize

/-- `Unserialize` of an outpoint. -/
def COutPoint.read : Reader COutPoint := do
  let hash ← readLe 32
  let n ← readLe 4
  return ⟨hash, n⟩

/-- `Unserialize` of an input. -/
def CTxIn.read : Reader CTxIn := do
  let prevout ← COutPoint.read
  let scriptSig ← CScript.read
  let nSequence ← readLe 4
  return ⟨prevout, scriptSig, nSequence⟩

/-- `Unserialize` of an output. -/
def CTxOut.read : Reader CTxOut := do
  let nValue ← readInt 8
  let scriptPubKey ← CScript.read
  return ⟨nValue, scriptPubKey⟩

variable (sizes : ElementSizes)

/-- `Unserialize` of a transaction. -/
def CTransaction.read : Reader CTransaction := do
  let nVersion ← readInt 4
  let vin ← readVector CTxIn.read sizes.txin
  let vout ← readVector CTxOut.read sizes.txout
  let nLockTime ← readLe 4
  return ⟨nVersion, vin, vout, nLockTime⟩

/-! ## Blocks -/

/-- `SER_NETWORK`, `SER_DISK`, `SER_GETHASH` and `SER_BLOCKHEADERONLY`. -/
def serNetwork : ℕ := 1

def serDisk : ℕ := 2

def serGetHash : ℕ := 4

def serBlockHeaderOnly : ℕ := 2 ^ 17

/-- Whether the transactions of a block are part of it. -/
def withTransactions (nType : ℕ) : Bool := nType &&& (serGetHash ||| serBlockHeaderOnly) = 0

/-- `Serialize` of the fields of a header. -/
def CBlockHeader.serialize (header : CBlockHeader) : List UInt8 :=
  intBytes 4 header.nVersion ++ (leBytes 32 header.hashPrevBlock ++ (leBytes 32 header.hashMerkleRoot ++
    (leBytes 4 header.nTime ++ (leBytes 4 header.nBits ++ leBytes 4 header.nNonce))))

/-- `Unserialize` of the fields of a header. -/
def CBlockHeader.read : Reader CBlockHeader := do
  let nVersion ← readInt 4
  let hashPrevBlock ← readLe 32
  let hashMerkleRoot ← readLe 32
  let nTime ← readLe 4
  let nBits ← readLe 4
  let nNonce ← readLe 4
  return ⟨nVersion, hashPrevBlock, hashMerkleRoot, nTime, nBits, nNonce⟩

/-- `Serialize` of a block. -/
def CBlock.serialize (nType : ℕ) (block : CBlock) : List UInt8 :=
  block.toCBlockHeader.serialize ++
    if withTransactions nType then
      writeCompactSize block.vtx.length ++ block.vtx.flatMap CTransaction.serialize
    else []

/-- `Unserialize` of a block. -/
def CBlock.read (nType : ℕ) : Reader CBlock := do
  let header ← CBlockHeader.read
  let vtx ← if withTransactions nType then readVector (CTransaction.read sizes) sizes.tx else pure []
  return ⟨header, vtx⟩

/-! ## Sizes -/

/-- `GetSerializeSize` of a script. -/
def CScript.nSerSize (s : CScript) : UInt32 := .ofNat (getSizeOfCompactSize s.length + s.length)

/-- `GetSerializeSize` of a vector. -/
def vectorSerSize {A : Type} (nSerSize : A → UInt32) (v : List A) : UInt32 :=
  v.foldl (fun nSize a => nSize + nSerSize a) (.ofNat (getSizeOfCompactSize v.length))

/-- `GetSerializeSize` of an input. -/
def CTxIn.nSerSize (txin : CTxIn) : UInt32 := 36 + CScript.nSerSize txin.scriptSig + 4

/-- `GetSerializeSize` of an output. -/
def CTxOut.nSerSize (txout : CTxOut) : UInt32 := 8 + CScript.nSerSize txout.scriptPubKey

/-- `GetSerializeSize` of a transaction. -/
def CTransaction.nSerSize (tx : CTransaction) : UInt32 :=
  4 + vectorSerSize CTxIn.nSerSize tx.vin + vectorSerSize CTxOut.nSerSize tx.vout + 4

/-- `GetSerializeSize` of a block. -/
def CBlock.nSerSize (nType : ℕ) (block : CBlock) : UInt32 :=
  4 + 32 + 32 + 4 + 4 + 4 +
    if withTransactions nType then vectorSerSize CTransaction.nSerSize block.vtx else 0

theorem vectorSerSize_eq {A : Type} {nSerSize : A → UInt32} {serialize : A → List UInt8} {v : List A}
    (h : ∀ a ∈ v, nSerSize a = .ofNat (serialize a).length) :
    vectorSerSize nSerSize v =
      .ofNat (writeCompactSize v.length ++ v.flatMap serialize).length := by
  have hfold : ∀ (l : List A) (n : ℕ), (∀ a ∈ l, nSerSize a = .ofNat (serialize a).length) →
      l.foldl (fun nSize a => nSize + nSerSize a) (UInt32.ofNat n) =
        .ofNat (n + (l.flatMap serialize).length) := by
    intro l
    induction l with
    | nil => simp
    | cons a l ih =>
      intro n hl
      rw [List.forall_mem_cons] at hl
      rw [List.foldl_cons, hl.1, ← UInt32.ofNat_add, ih _ hl.2, List.flatMap_cons, List.length_append,
        add_assoc]
  rw [vectorSerSize, hfold v _ h, List.length_append, writeCompactSize_length]

theorem CScript.nSerSize_eq (s : CScript) :
    CScript.nSerSize s = .ofNat (CScript.serialize s).length := by
  rw [nSerSize, CScript.serialize_length]

theorem CTxIn.nSerSize_eq (txin : CTxIn) : txin.nSerSize = .ofNat txin.serialize.length := by
  rw [nSerSize, CScript.nSerSize_eq, serialize, COutPoint.serialize]
  simp only [List.length_append, leBytes_length, UInt32.ofNat_add]
  rfl

theorem CTxOut.nSerSize_eq (txout : CTxOut) : txout.nSerSize = .ofNat txout.serialize.length := by
  rw [nSerSize, CScript.nSerSize_eq, serialize, intBytes]
  simp only [List.length_append, leBytes_length, UInt32.ofNat_add]
  rfl

/-- `GetSerializeSize` is the number of bytes as far as an `unsigned int` tells it. -/
theorem CTransaction.nSerSize_eq (tx : CTransaction) :
    tx.nSerSize = .ofNat tx.serialize.length := by
  rw [nSerSize, vectorSerSize_eq fun a _ => a.nSerSize_eq, vectorSerSize_eq fun a _ => a.nSerSize_eq,
    serialize, intBytes]
  simp only [List.length_append, leBytes_length, UInt32.ofNat_add]
  rfl

theorem CBlockHeader.serialize_length (header : CBlockHeader) :
    header.serialize.length = headerSize := by
  simp only [serialize, intBytes, List.length_append, leBytes_length, headerSize]

theorem CBlock.nSerSize_eq (nType : ℕ) (block : CBlock) :
    block.nSerSize nType = .ofNat (block.serialize nType).length := by
  rw [nSerSize, serialize, List.length_append, UInt32.ofNat_add, CBlockHeader.serialize_length]
  split
  next => rw [vectorSerSize_eq fun a _ => a.nSerSize_eq]; rfl
  next => rfl

/-- The bytes of a block on disk or in a message. -/
theorem CBlock.serialize_length {nType : ℕ} (h : withTransactions nType = true) (block : CBlock) :
    (block.serialize nType).length = block.getSerializeSize := by
  rw [serialize, if_pos h, List.length_append, List.length_append, CBlockHeader.serialize_length,
    writeCompactSize_length, List.length_flatMap, getSerializeSize]
  simp only [CTransaction.serialize_length]

/-! ## Values that can be read back -/

/-- A transaction whose fields fit their types and whose vectors and scripts are not longer than
`MAX_SIZE`. -/
structure CTransaction.Bounded (tx : CTransaction) : Prop where
  representable : tx.Representable
  vin_length : tx.vin.length ≤ maxSize
  scriptSig_length : ∀ txin ∈ tx.vin, txin.scriptSig.length ≤ maxSize
  vout_length : tx.vout.length ≤ maxSize
  scriptPubKey_length : ∀ txout ∈ tx.vout, txout.scriptPubKey.length ≤ maxSize

/-- The fields of a header fit their types. -/
structure CBlockHeader.Representable (header : CBlockHeader) : Prop where
  nVersion : -2 ^ 31 ≤ header.nVersion ∧ header.nVersion < 2 ^ 31
  hashPrevBlock : header.hashPrevBlock < 256 ^ 32
  hashMerkleRoot : header.hashMerkleRoot < 256 ^ 32
  nTime : header.nTime < 256 ^ 4
  nBits : header.nBits < 256 ^ 4
  nNonce : header.nNonce < 256 ^ 4

/-- The same for a block. -/
structure CBlock.Bounded (block : CBlock) : Prop where
  header : block.toCBlockHeader.Representable
  vtx_length : block.vtx.length ≤ maxSize
  vtx : ∀ tx ∈ block.vtx, tx.Bounded

/-! ## Reading what was written -/

/-- The parts of a vector of bytes. -/
theorem reads_readBlocks {nSize nFuel : ℕ} {v bytes : List UInt8}
    (hsize : nSize = v.length + bytes.length) (hfuel : bytes.length ≤ nFuel) :
    Reads (readBlocks nSize nFuel v) bytes (v ++ bytes) := by
  induction nFuel generalizing v bytes with
  | zero =>
    obtain rfl : bytes = [] := List.length_eq_zero_iff.mp (by omega)
    rw [List.append_nil]
    exact .pure v
  | succ nFuel ih =>
    rw [readBlocks]
    split
    next hlt =>
      -- the next block is the front of what is left, and is not empty
      obtain ⟨blk, hblk⟩ : ∃ blk, blk = min (nSize - v.length) (1 + 4999999) := ⟨_, rfl⟩
      have hlen : (bytes.take blk).length = blk := by rw [List.length_take]; omega
      have hread : Reads (readBytes blk) (bytes.take blk) (bytes.take blk) := by
        have h := reads_readBytes (bytes.take blk)
        rwa [hlen] at h
      have hrest : Reads (readBlocks nSize nFuel (v ++ bytes.take blk)) (bytes.drop blk)
          (v ++ bytes.take blk ++ bytes.drop blk) := by
        apply ih
        · rw [List.length_append, hlen, List.length_drop]
          omega
        · rw [List.length_drop]
          omega
      rw [List.append_assoc, List.take_append_drop] at hrest
      have hboth : Reads (readBytes blk >>= fun part => readBlocks nSize nFuel (v ++ part))
          (bytes.take blk ++ bytes.drop blk) (v ++ bytes) := hread.bind hrest
      rw [List.take_append_drop] at hboth
      rw [← hblk]
      exact hboth
    next hle =>
      obtain rfl : bytes = [] := List.length_eq_zero_iff.mp (by omega)
      rw [List.append_nil]
      exact .pure v

theorem CScript.reads_read {s : CScript} (h : s.length ≤ maxSize) :
    Wire.Reads CScript.read (CScript.serialize s) s :=
  (reads_readCompactSize h).bind (reads_readBlocks (by simp) le_rfl)

/-- The parts of a vector of other elements. -/
theorem reads_readElements {A : Type} {read : Reader A} {serialize : A → List UInt8}
    {sizeofT : ElementSize} {nSize nFuel : ℕ} {v l : List A}
    (h : ∀ a ∈ l, Reads read (serialize a) a) (hsize : nSize = v.length + l.length)
    (hfuel : l.length ≤ nFuel) :
    Reads (readElements read sizeofT nSize nFuel v.length v) (l.flatMap serialize) (v ++ l) := by
  induction nFuel generalizing v l with
  | zero =>
    obtain rfl : l = [] := List.length_eq_zero_iff.mp (by omega)
    rw [List.append_nil]
    exact .pure v
  | succ nFuel ih =>
    have hpos : 0 < 5000000 / sizeofT.1 := Nat.div_pos sizeofT.2.2 sizeofT.2.1
    rw [readElements]
    split
    next hlt =>
      -- this round reads `l₁`, the others read `l₂`
      obtain ⟨nMid, hmid⟩ : ∃ nMid, nMid = min (v.length + 5000000 / sizeofT.1) nSize := ⟨_, rfl⟩
      obtain ⟨l₁, l₂, rfl, hlen⟩ : ∃ l₁ l₂, l = l₁ ++ l₂ ∧ l₁.length = nMid - v.length :=
        ⟨l.take (nMid - v.length), l.drop (nMid - v.length), (List.take_append_drop _ _).symm, by
          rw [List.length_take]; omega⟩
      rw [List.length_append] at hsize hfuel
      have hfold : ∀ (m v : List A), m.foldl (fun v a => v ++ [a]) v = v ++ m := by
        intro m
        induction m with
        | nil => simp
        | cons a m ih => intro v; rw [List.foldl_cons, ih, List.append_assoc, List.singleton_append]
      have hread : Reads ((List.range (nMid - v.length)).foldlM
          (fun v _ => (fun a => v ++ [a]) <$> read) v) (l₁.flatMap serialize) (v ++ l₁) := by
        have hstep : ∀ a ∈ l₁, ∀ v : List A,
            Reads ((fun a => v ++ [a]) <$> read) (serialize a) (v ++ [a]) :=
          fun a ha v => (h a (List.mem_append_left _ ha)).map fun a => v ++ [a]
        have hloop := Reads.foldlM_range hstep v
        rwa [hfold, hlen] at hloop
      have hrest : Reads (readElements read sizeofT nSize nFuel (v ++ l₁).length (v ++ l₁))
          (l₂.flatMap serialize) (v ++ l₁ ++ l₂) := by
        apply ih
        · exact fun a ha => h a (List.mem_append_right _ ha)
        · rw [List.length_append]
          omega
        · omega
      rw [List.length_append, show v.length + l₁.length = nMid by omega, List.append_assoc] at hrest
      rw [← hmid, List.flatMap_append]
      exact hread.bind hrest
    next hle =>
      obtain rfl : l = [] := List.length_eq_zero_iff.mp (by omega)
      rw [List.append_nil]
      exact .pure v

theorem reads_readVector {A : Type} {read : Reader A} {serialize : A → List UInt8}
    {sizeofT : ElementSize} {l : List A} (h : ∀ a ∈ l, Reads read (serialize a) a)
    (hlen : l.length ≤ maxSize) :
    Reads (readVector read sizeofT) (writeCompactSize l.length ++ l.flatMap serialize) l :=
  (reads_readCompactSize hlen).bind (reads_readElements h (List.length_nil ▸ (Nat.zero_add _).symm) le_rfl)

theorem COutPoint.reads_read {o : COutPoint} (h : o.Representable) :
    Reads COutPoint.read o.serialize o :=
  (reads_readLe h.hash).bind ((reads_readLe h.n).map _)

theorem CTxIn.reads_read {txin : CTxIn} (h : txin.Representable)
    (hlen : txin.scriptSig.length ≤ maxSize) : Reads CTxIn.read txin.serialize txin := by
  rw [serialize, List.append_assoc]
  exact (COutPoint.reads_read h.prevout).bind
    ((CScript.reads_read hlen).bind ((reads_readLe h.nSequence).map _))

theorem CTxOut.reads_read {txout : CTxOut} (h : txout.Representable)
    (hlen : txout.scriptPubKey.length ≤ maxSize) : Reads CTxOut.read txout.serialize txout :=
  (reads_readInt (m := 2 ^ 63) (by norm_num) h.nValue.1 h.nValue.2).bind
    ((CScript.reads_read hlen).map _)

/-- **A transaction is read as it was written.** -/
theorem CTransaction.reads_read {tx : CTransaction} (h : tx.Bounded) :
    Reads (CTransaction.read sizes) tx.serialize tx := by
  have hvin : ∀ txin ∈ tx.vin, Reads CTxIn.read txin.serialize txin := fun txin hmem =>
    CTxIn.reads_read (h.representable.vin txin hmem) (h.scriptSig_length txin hmem)
  have hvout : ∀ txout ∈ tx.vout, Reads CTxOut.read txout.serialize txout := fun txout hmem =>
    CTxOut.reads_read (h.representable.vout txout hmem) (h.scriptPubKey_length txout hmem)
  rw [serialize, List.append_assoc, List.append_assoc]
  exact (reads_readInt (m := 2 ^ 31) (by norm_num) h.representable.nVersion.1
      h.representable.nVersion.2).bind
    ((reads_readVector hvin h.vin_length).bind
      ((reads_readVector hvout h.vout_length).bind ((reads_readLe h.representable.nLockTime).map _)))

theorem CBlockHeader.reads_read {header : CBlockHeader} (h : header.Representable) :
    Reads CBlockHeader.read header.serialize header :=
  (reads_readInt (m := 2 ^ 31) (by norm_num) h.nVersion.1 h.nVersion.2).bind
    ((reads_readLe h.hashPrevBlock).bind ((reads_readLe h.hashMerkleRoot).bind
      ((reads_readLe h.nTime).bind ((reads_readLe h.nBits).bind ((reads_readLe h.nNonce).map _)))))

/-- **A block is read as it was written**, on disk and in a message. -/
theorem CBlock.reads_read {nType : ℕ} (hType : withTransactions nType = true) {block : CBlock}
    (h : block.Bounded) : Reads (CBlock.read sizes nType) (block.serialize nType) block := by
  rw [serialize, if_pos hType, CBlock.read]
  refine (CBlockHeader.reads_read h.header).bind ?_
  rw [if_pos hType]
  exact (reads_readVector (fun tx hmem => CTransaction.reads_read sizes (h.vtx tx hmem)) h.vtx_length).map _

/-- **Transactions and blocks come back from their bytes**, with what follows left over, and
`GetSerializeSize` counts the bytes as far as an `unsigned int` can. -/
theorem unserialize_serialize :
    (∀ tx : CTransaction, tx.Bounded → ∀ rest,
        CTransaction.read sizes (tx.serialize ++ rest) = some (tx, rest)) ∧
      (∀ nType ∈ [serNetwork, serDisk], ∀ block : CBlock, block.Bounded → ∀ rest,
        CBlock.read sizes nType (block.serialize nType ++ rest) = some (block, rest)) ∧
      (∀ tx : CTransaction, tx.nSerSize.toNat = tx.serialize.length % 2 ^ 32) ∧
      ∀ nType ∈ [serNetwork, serDisk], ∀ block : CBlock,
        (block.nSerSize nType).toNat = (block.serialize nType).length % 2 ^ 32 := by
  refine ⟨fun tx h => CTransaction.reads_read sizes h, fun nType hType block h => ?_, fun tx => ?_,
    fun nType _ block => ?_⟩
  · refine CBlock.reads_read sizes ?_ h
    fin_cases hType <;> rfl
  · rw [tx.nSerSize_eq, UInt32.toNat_ofNat']
  · rw [block.nSerSize_eq, UInt32.toNat_ofNat']

/-- A transaction with a coinbase's input, and the bytes of two of them. -/
theorem unserialize_serialize_exampleCoinbase :
    let tx := exampleCoinbase 1 [50]
    let sizes : ElementSizes := ⟨⟨72, by decide⟩, ⟨32, by decide⟩, ⟨72, by decide⟩⟩
    CTransaction.read sizes (tx.serialize ++ tx.serialize) = some (tx, tx.serialize) := by
  intro tx sizes
  refine (unserialize_serialize sizes).1 tx ⟨⟨by decide, by decide, ?_, by decide, ?_, by decide⟩,
    by decide, by decide, by decide, by decide⟩ tx.serialize
  · intro txin hmem
    obtain rfl : txin = ⟨COutPoint.setNull, [1, 1], uintMax⟩ := by
      simpa [tx, exampleCoinbase, exampleTx] using hmem
    exact ⟨⟨by decide, by decide⟩, by decide, by decide⟩
  · intro txout hmem
    obtain rfl : txout = ⟨50, []⟩ := by simpa [tx, exampleCoinbase, exampleTx] using hmem
    exact ⟨by decide, by decide⟩

/-- The size of a transaction of more than four gigabytes does not fit. -/
theorem not_forall_nSerSize :
    ¬ ∀ tx : CTransaction, tx.Bounded → tx.nSerSize.toNat = tx.serialize.length := by
  intro h
  obtain ⟨n, hn⟩ : ∃ n, n = maxSize := ⟨_, rfl⟩
  have hmax : maxSize = 33554432 := rfl
  let txin : CTxIn := ⟨COutPoint.setNull, List.replicate n 0, 0⟩
  let tx : CTransaction := ⟨1, List.replicate 128 txin, [], 0⟩
  have hscript : txin.scriptSig.length = n := List.length_replicate
  have hvin : tx.vin.length = 128 := List.length_replicate
  have hnull : COutPoint.setNull.Representable := ⟨by decide, by decide⟩
  have hversion : -2 ^ 31 ≤ (1 : ℤ) ∧ (1 : ℤ) < 2 ^ 31 := by norm_num
  have htxin : txin.Representable := ⟨hnull, by omega, Nat.pos_of_ne_zero (by norm_num)⟩
  have hbounded : tx.Bounded := by
    refine ⟨⟨hversion, by omega, ?_, Nat.pos_of_ne_zero (by norm_num), ?_,
      Nat.pos_of_ne_zero (by norm_num)⟩, by omega, ?_, Nat.zero_le _, ?_⟩
    · exact fun a ha => List.eq_of_mem_replicate ha ▸ htxin
    · exact fun a ha => absurd ha List.not_mem_nil
    · intro a ha
      rw [List.eq_of_mem_replicate ha, hscript, hn]
    · exact fun a ha => absurd ha List.not_mem_nil
  have hlarge : 2 ^ 32 ≤ tx.serialize.length := by
    have hsize : txin.getSerializeSize = 36 + (getSizeOfCompactSize n + n) + 4 := by
      rw [CTxIn.getSerializeSize, hscript]
    have hsum : (tx.vin.map CTxIn.getSerializeSize).sum = 128 * txin.getSerializeSize := by
      rw [List.map_replicate, List.sum_replicate, smul_eq_mul]
    rw [CTransaction.serialize_length, CTransaction.getSerializeSize, hsum, hsize]
    omega
  have hlt : tx.nSerSize.toNat < 2 ^ 32 := tx.nSerSize.toNat_lt
  have heq := h tx hbounded
  omega

end FoxCoin
