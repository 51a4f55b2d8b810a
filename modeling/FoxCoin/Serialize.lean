import FoxCoin.Transaction
import FoxCoin.Lib.Wire

/-! # Serialized transactions

The bytes a transaction is hashed and sent as. Vectors and scripts stand behind their compact size
and numbers are little-endian, so that no transaction is the start of another one. -/

namespace FoxCoin

open Wire

/-! ## Serialization -/

/-- `WriteCompactSize`. -/
def writeCompactSize (nSize : ℕ) : List UInt8 :=
  if nSize < 253 then [UInt8.ofNat nSize]
  else if nSize ≤ 0xffff then 253 :: leBytes 2 nSize
  else if nSize ≤ 0xffffffff then 254 :: leBytes 4 nSize
  else 255 :: leBytes 8 nSize

/-- The bytes of an `int` of `k` bytes, in two's complement. -/
def intBytes (k : ℕ) (n : ℤ) : List UInt8 := leBytes k (n % 256 ^ k).toNat

/-- `Serialize` of a script: its size and its bytes. -/
def CScript.serialize (s : CScript) : List UInt8 := writeCompactSize s.length ++ s

/-- `Serialize` of an outpoint, which is written as it lies in memory. -/
def COutPoint.serialize (o : COutPoint) : List UInt8 := leBytes 32 o.hash ++ leBytes 4 o.n

/-- `Serialize` of an input. -/
def CTxIn.serialize (txin : CTxIn) : List UInt8 :=
  txin.prevout.serialize ++ CScript.serialize txin.scriptSig ++ leBytes 4 txin.nSequence

/-- `Serialize` of an output. -/
def CTxOut.serialize (txout : CTxOut) : List UInt8 :=
  intBytes 8 txout.nValue ++ CScript.serialize txout.scriptPubKey

/-- `Serialize` of a transaction. -/
def CTransaction.serialize (tx : CTransaction) : List UInt8 :=
  intBytes 4 tx.nVersion ++ (writeCompactSize tx.vin.length ++ tx.vin.flatMap CTxIn.serialize) ++
    (writeCompactSize tx.vout.length ++ tx.vout.flatMap CTxOut.serialize) ++ leBytes 4 tx.nLockTime

/-! ## Sizes -/

theorem writeCompactSize_length (n : ℕ) : (writeCompactSize n).length = getSizeOfCompactSize n := by
  unfold writeCompactSize getSizeOfCompactSize
  split_ifs <;> simp

theorem CScript.serialize_length (s : CScript) :
    (CScript.serialize s).length = getSizeOfCompactSize s.length + s.length := by
  rw [serialize, List.length_append, writeCompactSize_length]

theorem CTxIn.serialize_length (txin : CTxIn) : txin.serialize.length = txin.getSerializeSize := by
  simp only [serialize, COutPoint.serialize, List.length_append, leBytes_length,
    CScript.serialize_length, getSerializeSize]

theorem CTxOut.serialize_length (txout : CTxOut) :
    txout.serialize.length = txout.getSerializeSize := by
  simp only [serialize, intBytes, List.length_append, leBytes_length, CScript.serialize_length,
    getSerializeSize]

/-- **`GetSerializeSize` is the number of bytes that `Serialize` writes.** -/
theorem CTransaction.serialize_length (tx : CTransaction) :
    tx.serialize.length = tx.getSerializeSize := by
  simp only [serialize, intBytes, List.length_append, leBytes_length, writeCompactSize_length,
    List.length_flatMap, CTxIn.serialize_length, CTxOut.serialize_length, getSerializeSize]

/-! ## Values that the fields can hold -/

/-- The fields of an outpoint are a 256-bit hash and a 32-bit number. -/
structure COutPoint.Representable (o : COutPoint) : Prop where
  hash : o.hash < 256 ^ 32
  n : o.n < 256 ^ 4

/-- The fields of an input fit their types, and no vector is longer than a size can tell. -/
structure CTxIn.Representable (txin : CTxIn) : Prop where
  prevout : txin.prevout.Representable
  scriptSig : txin.scriptSig.length < 256 ^ 8
  nSequence : txin.nSequence < 256 ^ 4

/-- The fields of an output fit their types. -/
structure CTxOut.Representable (txout : CTxOut) : Prop where
  nValue : -2 ^ 63 ≤ txout.nValue ∧ txout.nValue < 2 ^ 63
  scriptPubKey : txout.scriptPubKey.length < 256 ^ 8

/-- The fields of a transaction fit their types, as the types in the source ensure. -/
structure CTransaction.Representable (tx : CTransaction) : Prop where
  nVersion : -2 ^ 31 ≤ tx.nVersion ∧ tx.nVersion < 2 ^ 31
  vin_length : tx.vin.length < 256 ^ 8
  vin : ∀ txin ∈ tx.vin, txin.Representable
  vout_length : tx.vout.length < 256 ^ 8
  vout : ∀ txout ∈ tx.vout, txout.Representable
  nLockTime : tx.nLockTime < 256 ^ 4

/-! ## Prefix-freeness -/

/-- The first byte of a compact size, and the number of bytes after it. -/
def sizeTag (nSize : ℕ) : ℕ :=
  if nSize < 253 then nSize else if nSize ≤ 0xffff then 253 else if nSize ≤ 0xffffffff then 254 else 255

def sizeWidth (tag : ℕ) : ℕ :=
  if tag < 253 then 0 else if tag = 253 then 2 else if tag = 254 then 4 else 8

theorem writeCompactSize_eq (nSize : ℕ) :
    writeCompactSize nSize =
      UInt8.ofNat (sizeTag nSize) :: leBytes (sizeWidth (sizeTag nSize)) nSize := by
  unfold writeCompactSize sizeTag
  split_ifs with h
  · simp [sizeWidth, h, leBytes]
  all_goals rfl

theorem sizeTag_lt (n : ℕ) : sizeTag n < 256 := by
  unfold sizeTag
  split_ifs <;> omega

/-- A size that is not its own first byte fits into the bytes after it. -/
theorem lt_pow_sizeWidth {n : ℕ} (h : n < 256 ^ 8) :
    sizeTag n < 253 ∧ sizeTag n = n ∨ ¬sizeTag n < 253 ∧ n < 256 ^ sizeWidth (sizeTag n) := by
  unfold sizeTag
  by_cases h1 : n < 253
  · rw [if_pos h1]
    exact .inl ⟨h1, rfl⟩
  rw [if_neg h1]
  by_cases h2 : n ≤ 0xffff
  · rw [if_pos h2]
    exact .inr ⟨by decide, show n < 256 ^ 2 by omega⟩
  rw [if_neg h2]
  by_cases h3 : n ≤ 0xffffffff
  · rw [if_pos h3]
    exact .inr ⟨by decide, show n < 256 ^ 4 by omega⟩
  · rw [if_neg h3]
    exact .inr ⟨by decide, h⟩

/-- Compact sizes are prefix-free: the first byte tells how many bytes follow. -/
theorem prefixFree_writeCompactSize : PrefixFree (fun n => n < 256 ^ 8) writeCompactSize := by
  intro a b r s ha hb h
  rw [writeCompactSize_eq, writeCompactSize_eq, List.cons_append, List.cons_append,
    List.cons.injEq] at h
  have htag : sizeTag a = sizeTag b := by
    have := congrArg UInt8.toNat h.1
    rwa [UInt8.toNat_ofNat_of_lt' (sizeTag_lt a), UInt8.toNat_ofNat_of_lt' (sizeTag_lt b)] at this
  rcases lt_pow_sizeWidth ha with ⟨hsmall, hself⟩ | ⟨hbig, hfit⟩
  · -- the byte is the size itself
    rcases lt_pow_sizeWidth hb with ⟨-, hself'⟩ | ⟨hbig', -⟩
    · have hwidth : sizeWidth (sizeTag a) = 0 := if_pos hsmall
      rw [← htag, hwidth] at h
      exact ⟨by rw [← hself, htag, hself'], h.2⟩
    · exact absurd (htag ▸ hsmall) hbig'
  · rcases lt_pow_sizeWidth hb with ⟨hsmall', -⟩ | ⟨-, hfit'⟩
    · exact absurd (htag ▸ hsmall') hbig
    · rw [← htag] at h hfit'
      exact prefixFree_leBytes _ hfit hfit' h.2

/-- Signed numbers that fit are encoded prefix-free. -/
theorem prefixFree_intBytes {k : ℕ} {m : ℤ} (hm : 2 * m = 256 ^ k) :
    PrefixFree (fun n => -m ≤ n ∧ n < m) (intBytes k) := by
  refine prefixFree_of_length k (fun n => leBytes_length _ _) fun a b ha hb h => ?_
  have hpos : (0 : ℤ) < 256 ^ k := by positivity
  have hmod := leBytes_injective h
  have hcast : ∀ n : ℤ, (((n % 256 ^ k).toNat % 256 ^ k : ℕ) : ℤ) = n % 256 ^ k := by
    intro n
    rw [Int.natCast_mod, Int.toNat_of_nonneg (Int.emod_nonneg n hpos.ne')]
    push_cast
    exact Int.emod_emod_of_dvd n dvd_rfl
  have hmod' : a % 256 ^ k = b % 256 ^ k := by rw [← hcast a, ← hcast b, hmod]
  -- the numbers differ by less than the modulus, which divides their difference
  have hzero : a - b = 0 := by
    refine Int.eq_zero_of_abs_lt_dvd (Int.ModEq.dvd hmod'.symm) ?_
    rw [← hm, abs_lt]
    omega
  omega

theorem prefixFree_script :
    PrefixFree (fun s : CScript => s.length < 256 ^ 8) CScript.serialize := by
  intro a b r s ha hb h
  have hbytes : ∀ s : CScript, CScript.serialize s =
      writeCompactSize s.length ++ s.flatMap fun b => [b] := by
    intro s
    rw [CScript.serialize, List.flatMap_singleton']
  rw [hbytes, hbytes] at h
  exact prefixFree_writeCompactSize.counted prefixFree_byte ⟨ha, fun _ _ => trivial⟩
    ⟨hb, fun _ _ => trivial⟩ h

theorem prefixFree_outpoint : PrefixFree COutPoint.Representable COutPoint.serialize := by
  intro a b r s ha hb h
  simp only [COutPoint.serialize, List.append_assoc] at h
  obtain ⟨hhash, hn, hrest⟩ := (prefixFree_leBytes 32).append (prefixFree_leBytes 4) ha.hash hb.hash
    ha.n hb.n h
  cases a
  cases b
  exact ⟨by rw [COutPoint.mk.injEq]; exact ⟨hhash, hn⟩, hrest⟩

theorem prefixFree_txin : PrefixFree CTxIn.Representable CTxIn.serialize := by
  intro a b r s ha hb h
  simp only [CTxIn.serialize, List.append_assoc] at h
  obtain ⟨hprevout, h⟩ := prefixFree_outpoint ha.prevout hb.prevout h
  obtain ⟨hscript, hsequence, hrest⟩ := prefixFree_script.append (prefixFree_leBytes 4) ha.scriptSig
    hb.scriptSig ha.nSequence hb.nSequence h
  cases a
  cases b
  exact ⟨by rw [CTxIn.mk.injEq]; exact ⟨hprevout, hscript, hsequence⟩, hrest⟩

theorem prefixFree_txout : PrefixFree CTxOut.Representable CTxOut.serialize := by
  intro a b r s ha hb h
  simp only [CTxOut.serialize, List.append_assoc] at h
  obtain ⟨hvalue, hscript, hrest⟩ := (prefixFree_intBytes (k := 8) (m := 2 ^ 63) (by norm_num)).append
    prefixFree_script ha.nValue hb.nValue ha.scriptPubKey hb.scriptPubKey h
  cases a
  cases b
  exact ⟨by rw [CTxOut.mk.injEq]; exact ⟨hvalue, hscript⟩, hrest⟩

/-- **Serialized transactions are prefix-free**: equal bytes come from equal transactions. -/
theorem prefixFree_transaction : PrefixFree CTransaction.Representable CTransaction.serialize := by
  intro a b r s ha hb h
  simp only [CTransaction.serialize, List.append_assoc] at h
  have hvector := prefixFree_writeCompactSize.counted prefixFree_txin
  obtain ⟨hversion, h⟩ :=
    prefixFree_intBytes (k := 4) (m := 2 ^ 31) (by norm_num) ha.nVersion hb.nVersion h
  rw [← List.append_assoc, ← List.append_assoc (writeCompactSize b.vin.length)] at h
  obtain ⟨hvin, h⟩ := hvector ⟨ha.vin_length, ha.vin⟩ ⟨hb.vin_length, hb.vin⟩ h
  rw [← List.append_assoc, ← List.append_assoc (writeCompactSize b.vout.length)] at h
  obtain ⟨hvout, hlock, hrest⟩ := (prefixFree_writeCompactSize.counted prefixFree_txout).append
    (prefixFree_leBytes 4) ⟨ha.vout_length, ha.vout⟩ ⟨hb.vout_length, hb.vout⟩ ha.nLockTime
    hb.nLockTime h
  cases a
  cases b
  exact ⟨by rw [CTransaction.mk.injEq]; exact ⟨hversion, hvin, hvout, hlock⟩, hrest⟩

end FoxCoin
