import FoxCoin.Lib.Checked
import Mathlib.Data.Finmap
import Mathlib.Data.Finset.Sort

/-! # Transactions, block headers and the primitives the node is built on

The data types of `main.h` and the functions the model takes as parameters: the hash functions,
the script interpreter and the floating-point comparisons of the retarget rule. -/

namespace FoxCoin

open Checked

/-- A 256-bit hash: a map key everywhere, and a number where proof of work compares it. -/
abbrev Uint256 := ℕ

/-- `std::map<K, V>`: a finite map. -/
abbrev StdMap (K V : Type) := Finmap fun _ : K => V

/-- The elements of a `std::set<int>` in order. -/
def idsInOrder (s : Finset ℤ) : List ℤ := s.sort (· ≤ ·)

@[simp] theorem mem_idsInOrder {s : Finset ℤ} {n : ℤ} : n ∈ idsInOrder s ↔ n ∈ s := Finset.mem_sort _

theorem nodup_idsInOrder (s : Finset ℤ) : (idsInOrder s).Nodup := Finset.sort_nodup _ _

theorem length_idsInOrder (s : Finset ℤ) : (idsInOrder s).length = s.card := Finset.length_sort _

/-- A script: the serialized bytes. -/
abbrev CScript := List UInt8

/-- Why a routine returned `false`: the denial-of-service score it adds and its `error` format. -/
structure Reject where
  nDoS : ℕ
  strError : String
  deriving DecidableEq, Repr

/-- The result of a routine that reports failure by returning `false`. -/
abbrev Result (α : Type) := Except Reject α

/-! ## Amounts -/

/-- One coin in base units. -/
def coin : ℤ := 100000000

/-- `MAX_MONEY`, the largest amount any value or sum may have. -/
def maxMoney : ℤ := 1000000000 * coin

/-- Whether an amount is a valid money value. -/
def moneyRange (nValue : ℤ) : Bool := decide (0 ≤ nValue) && decide (nValue ≤ maxMoney)

theorem moneyRange_iff {n : ℤ} : moneyRange n = true ↔ 0 ≤ n ∧ n ≤ maxMoney := by
  simp [moneyRange]

/-- The value a 64-bit signed variable holds after being assigned `x`. -/
def int64 (x : ℤ) : ℤ := Int.bmod x (2 ^ 64)

/-- A value stored in a 32-bit signed variable. -/
def int32 (x : ℤ) : ℤ := Int.bmod x (2 ^ 32)

/-- A value that fits in 64 bits is stored unchanged. -/
theorem int64_eq_self {x : ℤ} (hlo : -(2 ^ 63) ≤ x) (hhi : x < 2 ^ 63) : int64 x = x := by
  rw [int64, Int.bmod_eq_of_le_mul_two] <;> omega

/-- A value that fits in 32 bits is stored unchanged. -/
theorem int32_eq_self {x : ℤ} (hlow : -2 ^ 31 ≤ x) (hhigh : x < 2 ^ 31) : int32 x = x :=
  Int.bmod_eq_of_le (by omega) (by omega)

/-! ## Limits -/

/-- `MAX_BLOCK_SIZE`. -/
def maxBlockSize : ℕ := 1000000

/-- `MAX_BLOCK_SIZE_GEN`, the size up to which the miner fills a block. -/
def maxBlockSizeGen : ℕ := maxBlockSize / 2

/-- `MAX_BLOCK_SIGOPS`. -/
def maxBlockSigops : ℕ := maxBlockSize / 50

/-- `COINBASE_MATURITY`. -/
def coinbaseMaturity : ℕ := 15

/-- `LOCKTIME_THRESHOLD`: lock times below it are block heights, others are timestamps. -/
def locktimeThreshold : ℤ := 500000000

/-- `(unsigned int) -1`: the null file number, the null output index and the final sequence. -/
def uintMax : ℕ := 4294967295

/-! ## Transactions -/

/-- A transaction hash and an index into its outputs. -/
structure COutPoint where
  hash : Uint256
  n : ℕ
  deriving DecidableEq, Repr

/-- The null outpoint marks the input of a coinbase. -/
def COutPoint.isNull (o : COutPoint) : Bool := o.hash == 0 && o.n == uintMax

/-- The outpoint `SetNull` leaves. -/
def COutPoint.setNull : COutPoint := ⟨0, uintMax⟩

/-- An input: the output it claims, and the script that claims it. -/
structure CTxIn where
  prevout : COutPoint
  scriptSig : CScript
  nSequence : ℕ
  deriving DecidableEq, Repr

/-- An input with the largest sequence number is final. -/
def CTxIn.isFinal (txin : CTxIn) : Bool := txin.nSequence == uintMax

/-- An output: an amount and the script that must be satisfied to claim it. -/
structure CTxOut where
  nValue : ℤ
  scriptPubKey : CScript
  deriving DecidableEq, Repr

/-- A transaction. -/
structure CTransaction where
  nVersion : ℤ
  vin : List CTxIn
  vout : List CTxOut
  nLockTime : ℕ
  deriving DecidableEq, Repr

/-- A coinbase has the null outpoint as its only input. -/
def CTransaction.isCoinBase (tx : CTransaction) : Bool :=
  match tx.vin with
  | [txin] => txin.prevout.isNull
  | _ => false

/-- The outpoints a transaction claims, in input order. -/
def CTransaction.prevouts (tx : CTransaction) : List COutPoint := tx.vin.map CTxIn.prevout

/-- The header fields of a block, which its hash and its proof of work commit to. -/
structure CBlockHeader where
  nVersion : ℤ
  hashPrevBlock : Uint256
  hashMerkleRoot : Uint256
  nTime : ℕ
  nBits : ℕ
  nNonce : ℕ
  deriving DecidableEq, Repr

/-- A block: its header and its transactions, the coinbase first. -/
structure CBlock extends CBlockHeader where
  vtx : List CTransaction
  deriving DecidableEq, Repr

/-- The functions the model is parametric in, and the network the node runs on. -/
structure Params where
  /-- `fTestNet`. -/
  fTestNet : Bool
  /-- `CTransaction::GetHash`: the double SHA-256 of the serialized transaction. -/
  getTxHash : CTransaction → Uint256
  /-- `CBlock::GetHash`: the double SHA-256 of the header. -/
  getBlockHash : CBlockHeader → Uint256
  /-- `CBlock::GetPoWHash`: the scrypt hash of the header. -/
  getPoWHash : CBlockHeader → Uint256
  /-- `Hash` of two concatenated hashes, the node function of the merkle tree. -/
  hash : Uint256 → Uint256 → Uint256
  /-- `VerifyScript` of a `scriptSig` and a `scriptPubKey` for one input of a transaction. -/
  verifyScript : CScript → CScript → CTransaction → ℕ → Bool → Bool
  /-- `IsStandard` of a `scriptPubKey`. -/
  isStandard : CScript → Bool
  /-- Whether the rate adjustment ratio of the given number of blocks, with these target and actual
  seconds, lies outside the event horizon: a comparison of `double` values. -/
  beyondEventHorizon : ℕ → ℤ → ℤ → Bool

/-- `CTransaction::GetHash`. -/
def CTransaction.getHash (P : Params) (tx : CTransaction) : Uint256 := P.getTxHash tx

/-- `CBlock::GetHash`. -/
def CBlock.getHash (P : Params) (block : CBlock) : Uint256 := P.getBlockHash block.toCBlockHeader

/-- `CBlock::GetPoWHash`. -/
def CBlock.getPoWHash (P : Params) (block : CBlock) : Uint256 := P.getPoWHash block.toCBlockHeader

/-- `CBlock::GetBlockTime`. -/
def CBlock.getBlockTime (block : CBlock) : ℤ := block.nTime

/-- `hashGenesisBlock`, which `LoadBlockIndex` replaces on the test network. -/
def Params.hashGenesisBlock (P : Params) : Uint256 :=
  if P.fTestNet then 0x8aa240aa215f8bc1661ca27f093bade0573c042fa3da49033d2f6378c4331047
  else 0x351c6703813172725c6d660aa539ee6a3d7a9fe784c87fae7f36582e3b797058

/-! ## Worked examples -/

/-- Parameters for worked examples: hashes are the tags given to the transactions and blocks, every
proof of work is valid, and every script verifies. -/
def exampleParams : Params where
  fTestNet := true
  getTxHash tx := (tx.vin.headD ⟨COutPoint.setNull, [], 0⟩).scriptSig.foldl
    (fun h b => 256 * h + b.toNat) 0
  getBlockHash header := header.nNonce
  getPoWHash _ := 0
  hash a b := a + b
  verifyScript _ _ _ _ _ := true
  isStandard _ := true
  beyondEventHorizon _ _ _ := false

/-- A transaction with the given tag, inputs and output values. -/
def exampleTx (tag : UInt8) (prevouts : List COutPoint) (values : List ℤ) : CTransaction where
  nVersion := 1
  vin := prevouts.map fun o => ⟨o, [tag, tag], uintMax⟩
  vout := values.map fun n => ⟨n, []⟩
  nLockTime := 0

/-- The hash of the example transaction with the given tag. -/
def exampleHash (tag : UInt8) : Uint256 := 257 * tag.toNat

/-- A coinbase with the given tag and output values. -/
def exampleCoinbase (tag : UInt8) (values : List ℤ) : CTransaction :=
  exampleTx tag [COutPoint.setNull] values

end FoxCoin
