import FoxCoin.Key
import FoxCoin.Lib.Overlay
import FoxCoin.Lib.Runs
import Mathlib.Data.Finset.Sort

/-! # Encrypted key stores

`CCryptoKeyStore` holds keys as secrets or, from `EncryptKeys` on, as secrets that are encrypted
under a master key. While it is locked the master key is empty. The hashes and the cipher are
parameters. -/

namespace FoxCoin

open Overlay

/-! ## Stores -/

/-- The curve library, the hashes of public keys, and the cipher. -/
structure KeyEnv (Point : Type) where
  ops : ECOps Point
  /-- `CPubKey::GetID`. -/
  getID : CPubKey → ℕ
  /-- `CPubKey::GetHash`. -/
  getHash : CPubKey → Uint256
  /-- `CCrypter::Encrypt` with a key and an initialization vector. -/
  encrypt : List UInt8 → Uint256 → CSecret → Option (List UInt8)
  /-- `CCrypter::Decrypt`. -/
  decrypt : List UInt8 → Uint256 → List UInt8 → Option CSecret

/-- `CCryptoKeyStore`, with the keys of `CBasicKeyStore`. -/
structure CCryptoKeyStore where
  mapKeys : StdMap ℕ (CSecret × Bool)
  mapCryptedKeys : StdMap ℕ (CPubKey × List UInt8)
  vMasterKey : List UInt8
  fUseCrypto : Bool

variable {Point : Type} (env : KeyEnv Point)

/-- `EncryptSecret`. `CCrypter::SetKey` takes keys of `WALLET_CRYPTO_KEY_SIZE` only. -/
def KeyEnv.encryptSecret (vMasterKey : List UInt8) (vchPlaintext : CSecret) (nIV : Uint256) :
    Option (List UInt8) :=
  if vMasterKey.length ≠ 32 then none else env.encrypt vMasterKey nIV vchPlaintext

/-- `DecryptSecret`. -/
def KeyEnv.decryptSecret (vMasterKey : List UInt8) (vchCiphertext : List UInt8) (nIV : Uint256) :
    Option CSecret :=
  if vMasterKey.length ≠ 32 then none else env.decrypt vMasterKey nIV vchCiphertext

/-- The addresses of a map in its order. -/
def addressesInOrder (s : Finset ℕ) : List ℕ := s.sort (· ≤ ·)

theorem mem_addressesInOrder {s : Finset ℕ} {a : ℕ} : a ∈ addressesInOrder s ↔ a ∈ s :=
  Finset.mem_sort _

theorem nodup_addressesInOrder (s : Finset ℕ) : (addressesInOrder s).Nodup := Finset.sort_nodup _ _

namespace CCryptoKeyStore

/-- A new store. -/
def empty : CCryptoKeyStore := ⟨∅, ∅, [], false⟩

variable (keystore : CCryptoKeyStore)

/-- `IsLocked`. -/
def isLocked : Bool := keystore.fUseCrypto && keystore.vMasterKey.isEmpty

/-- `SetCrypted`: whether it succeeds, and the store after it. -/
def setCrypted : Bool × CCryptoKeyStore :=
  if keystore.fUseCrypto then (true, keystore)
  else if keystore.mapKeys.keys ≠ ∅ then (false, keystore)
  else (true, { keystore with fUseCrypto := true })

/-- `Lock`. -/
def lock : Bool × CCryptoKeyStore :=
  let (fCrypted, keystore) := keystore.setCrypted
  if !fCrypted then (false, keystore) else (true, { keystore with vMasterKey := [] })

/-- `AddCryptedKey`. -/
def addCryptedKey (vchPubKey : CPubKey) (vchCryptedSecret : List UInt8) : Bool × CCryptoKeyStore :=
  let (fCrypted, keystore) := keystore.setCrypted
  if !fCrypted then (false, keystore)
  else (true, { keystore with
    mapCryptedKeys := keystore.mapCryptedKeys.insert (env.getID vchPubKey)
      (vchPubKey, vchCryptedSecret) })

/-- `AddKey`. It throws for a key without a secret or a public key. -/
def addKey (key : CKey Point) : Bool × CCryptoKeyStore :=
  match key.getSecret, key.getPubKey env.ops with
  | some (secret, fCompressed), some vchPubKey =>
    if !keystore.fUseCrypto then
      -- `CBasicKeyStore::AddKey`
      (true, { keystore with
        mapKeys := keystore.mapKeys.insert (env.getID vchPubKey) (secret, fCompressed) })
    else if keystore.isLocked then (false, keystore)
    else
      match env.encryptSecret keystore.vMasterKey secret (env.getHash vchPubKey) with
      | none => (false, keystore)
      | some vchCryptedSecret => keystore.addCryptedKey env vchPubKey vchCryptedSecret
  | _, _ => (false, keystore)

/-- The loop of `EncryptKeys`. -/
def encryptLoop (vMasterKeyIn : List UInt8) :
    List (CSecret × Bool) → CCryptoKeyStore → Bool × CCryptoKeyStore
  | [], keystore => (true, keystore)
  | (secret, fCompr) :: mapKeys, keystore =>
    let (fSet, key) := (CKey.reset : CKey Point).setSecret env.ops secret fCompr
    if !fSet then (false, keystore)
    else
      match key.getPubKey env.ops, key.getSecret with
      | some vchPubKey, some (vchSecret, _) =>
        match env.encryptSecret vMasterKeyIn vchSecret (env.getHash vchPubKey) with
        | none => (false, keystore)
        | some vchCryptedSecret =>
          let (fAdded, keystore) := keystore.addCryptedKey env vchPubKey vchCryptedSecret
          if !fAdded then (false, keystore) else encryptLoop vMasterKeyIn mapKeys keystore
      | _, _ => (false, keystore)

/-- `EncryptKeys`. -/
def encryptKeys (vMasterKeyIn : List UInt8) : Bool × CCryptoKeyStore :=
  if keystore.mapCryptedKeys.keys ≠ ∅ ∨ keystore.fUseCrypto then (false, keystore)
  else
    let mapKeys := (addressesInOrder keystore.mapKeys.keys).filterMap keystore.mapKeys.lookup
    let (fEncrypted, keystore) :=
      encryptLoop env vMasterKeyIn mapKeys { keystore with fUseCrypto := true }
    if !fEncrypted then (false, keystore) else (true, { keystore with mapKeys := ∅ })

/-- The entry that `mapCryptedKeys` begins with. -/
def firstEntry : Option (CPubKey × List UInt8) :=
  (addressesInOrder keystore.mapCryptedKeys.keys).head?.bind keystore.mapCryptedKeys.lookup

/-- `Unlock`. The first entry decides. -/
def unlock (vMasterKeyIn : List UInt8) : Bool × CCryptoKeyStore :=
  let (fCrypted, keystore) := keystore.setCrypted
  if !fCrypted then (false, keystore)
  else
    match keystore.firstEntry with
    | none => (true, { keystore with vMasterKey := vMasterKeyIn })
    | some (vchPubKey, vchCryptedSecret) =>
      match env.decryptSecret vMasterKeyIn vchCryptedSecret (env.getHash vchPubKey) with
      | none => (false, keystore)
      | some vchSecret =>
        if vchSecret.length ≠ 32 then (false, keystore)
        else
          let key := ((CKey.reset : CKey Point).setPubKey env.ops vchPubKey).2
          let key := (key.setSecret env.ops vchSecret false).2
          if key.getPubKey env.ops = some vchPubKey then
            (true, { keystore with vMasterKey := vMasterKeyIn })
          else (false, keystore)

/-- `HaveKey`. -/
def haveKey (address : ℕ) : Bool :=
  if !keystore.fUseCrypto then (keystore.mapKeys.lookup address).isSome
  else (keystore.mapCryptedKeys.lookup address).isSome

/-- `GetKey`: whether it succeeds, and the key object that is given to it afterwards. -/
def getKey (address : ℕ) (keyOut : CKey Point) : Bool × CKey Point :=
  if !keystore.fUseCrypto then
    -- `CBasicKeyStore::GetKey`
    match keystore.mapKeys.lookup address with
    | none => (false, keyOut)
    | some (secret, fCompressed) => (CKey.reset : CKey Point).setSecret env.ops secret fCompressed
  else
    match keystore.mapCryptedKeys.lookup address with
    | none => (false, keyOut)
    | some (vchPubKey, vchCryptedSecret) =>
      match env.decryptSecret keystore.vMasterKey vchCryptedSecret (env.getHash vchPubKey) with
      | none => (false, keyOut)
      | some vchSecret =>
        if vchSecret.length ≠ 32 then (false, keyOut)
        else (keyOut.setPubKey env.ops vchPubKey).2.setSecret env.ops vchSecret false

/-- `GetPubKey`. -/
def getPubKey (address : ℕ) : Option CPubKey :=
  if !keystore.fUseCrypto then
    -- `CKeyStore::GetPubKey`
    let (fFound, key) := keystore.getKey env address CKey.reset
    if !fFound then none else key.getPubKey env.ops
  else (keystore.mapCryptedKeys.lookup address).map Prod.fst

/-! ## What every store satisfies -/

/-- The mode of a store: keys are kept in one map only, and a master key only where they are
encrypted. -/
structure Moded : Prop where
  crypted : keystore.fUseCrypto = true → keystore.mapKeys = ∅
  plain : keystore.fUseCrypto = false → keystore.mapCryptedKeys = ∅ ∧ keystore.vMasterKey = []
  secrets : ∀ a e, keystore.mapKeys.lookup a = some e → e.1.length = 32

variable {env} {keystore}

theorem keys_eq_empty {V : Type} {m : StdMap ℕ V} : m.keys = ∅ ↔ m = ∅ := by
  constructor
  · intro h
    refine Finmap.ext_lookup fun a => ?_
    rw [Finmap.lookup_empty, Finmap.lookup_eq_none, ← Finmap.mem_keys, h]
    exact Finset.notMem_empty a
  · rintro rfl
    rfl

theorem setCrypted_crypted (h : keystore.fUseCrypto = true) : keystore.setCrypted = (true, keystore) := by
  rw [setCrypted, if_pos h]

/-- Where `SetCrypted` succeeds only the mode has changed, and no key is plain. -/
theorem Moded.setCrypted (h : keystore.Moded) (hset : keystore.setCrypted.1 = true) :
    keystore.setCrypted.2 = { keystore with fUseCrypto := true } ∧ keystore.mapKeys = ∅ := by
  rw [CCryptoKeyStore.setCrypted] at hset ⊢
  split
  next hcrypto =>
    refine ⟨?_, h.crypted hcrypto⟩
    rw [← hcrypto]
  next hplain =>
    rw [if_neg hplain] at hset
    split at hset
    next => cases hset
    next hkeys =>
      rw [if_neg hkeys]
      exact ⟨rfl, keys_eq_empty.mp (not_not.mp hkeys)⟩

theorem setCrypted_failed (hset : keystore.setCrypted.1 = false) : keystore.setCrypted.2 = keystore := by
  rw [CCryptoKeyStore.setCrypted] at hset ⊢
  split
  next => rfl
  next hplain =>
    rw [if_neg hplain] at hset
    split
    next => rfl
    next hkeys =>
      rw [if_neg hkeys] at hset
      cases hset

/-- A store without plain keys, in the mode for encrypted ones. -/
theorem moded_of_crypted (hcrypto : keystore.fUseCrypto = true) (hkeys : keystore.mapKeys = ∅) :
    keystore.Moded := by
  refine ⟨fun _ => hkeys, fun hplain => ?_, fun a e he => ?_⟩
  · rw [hcrypto] at hplain
    cases hplain
  · rw [hkeys, Finmap.lookup_empty] at he
    cases he

theorem moded_empty : empty.Moded :=
  ⟨fun h => (by cases h), fun _ => ⟨rfl, rfl⟩, fun a e he => (by cases he)⟩

theorem Moded.lock (h : keystore.Moded) : keystore.lock.2.Moded := by
  rw [CCryptoKeyStore.lock]
  cases hset : keystore.setCrypted.1 with
  | false => simpa [hset, setCrypted_failed hset] using h
  | true =>
    obtain ⟨heq, hkeys⟩ := h.setCrypted hset
    simp only [hset, heq, Bool.not_true, Bool.false_eq_true, if_false]
    exact moded_of_crypted rfl hkeys

theorem Moded.addCryptedKey (h : keystore.Moded) (vchPubKey : CPubKey) (vchCryptedSecret : List UInt8) :
    (keystore.addCryptedKey env vchPubKey vchCryptedSecret).2.Moded := by
  rw [CCryptoKeyStore.addCryptedKey]
  cases hset : keystore.setCrypted.1 with
  | false => simpa [hset, setCrypted_failed hset] using h
  | true =>
    obtain ⟨heq, hkeys⟩ := h.setCrypted hset
    simp only [hset, heq, Bool.not_true, Bool.false_eq_true, if_false]
    exact moded_of_crypted rfl hkeys

theorem Moded.addKey (h : keystore.Moded) (key : CKey Point) : (keystore.addKey env key).2.Moded := by
  rw [CCryptoKeyStore.addKey]
  split
  next secret fCompressed vchPubKey hsecret hpub =>
    split
    next hplain =>
      rw [Bool.not_eq_true'] at hplain
      refine ⟨fun hcrypto => ?_, fun _ => h.plain hplain, fun a e he => ?_⟩
      · rw [hplain] at hcrypto
        cases hcrypto
      · rw [lookup_insert_eq_ite] at he
        split at he
        next =>
          obtain rfl := Option.some.inj he
          obtain ⟨v, -, hv⟩ := Option.map_eq_some_iff.mp hsecret
          rw [← (Prod.mk.inj hv).1]
          exact Vector.length_toList
        next => exact h.secrets a e he
    next =>
      split
      next => exact h
      next =>
        split
        next => exact h
        next => exact h.addCryptedKey _ _
  next => exact h

/-- `Unlock` changes the mode and the master key at most. -/
theorem Moded.unlock (h : keystore.Moded) (vMasterKeyIn : List UInt8) :
    (keystore.unlock env vMasterKeyIn).2.Moded := by
  rw [CCryptoKeyStore.unlock]
  cases hset : keystore.setCrypted.1 with
  | false => simpa [hset, setCrypted_failed hset] using h
  | true =>
    obtain ⟨heq, hkeys⟩ := h.setCrypted hset
    have hmoded : ∀ vMasterKey, (⟨keystore.mapKeys, keystore.mapCryptedKeys, vMasterKey, true⟩ :
        CCryptoKeyStore).Moded := fun _ => moded_of_crypted rfl hkeys
    simp only [hset, heq, Bool.not_true, Bool.false_eq_true, if_false]
    split
    next => exact hmoded _
    next =>
      split
      next => exact hmoded _
      next =>
        split
        next => exact hmoded _
        next =>
          split
          next => exact hmoded _
          next => exact hmoded _

/-! ## Encrypting -/

/-- An encrypted entry for a plain one. -/
def Encrypts (env : KeyEnv Point) (vMasterKey : List UInt8) (e : CSecret × Bool)
    (e' : CPubKey × List UInt8) : Prop :=
  CKey.pubKeyOf env.ops e.1 e.2 = some e'.1 ∧
    env.encryptSecret vMasterKey e.1 (env.getHash e'.1) = some e'.2

/-- A round of the loop of `EncryptKeys`. -/
theorem encryptLoop_cons {k : List UInt8} (hk : ∀ s iv, (env.encryptSecret k s iv).isSome)
    (hcrypto : keystore.fUseCrypto = true) {e : CSecret × Bool} (hlen : e.1.length = 32)
    (mapKeys : List (CSecret × Bool)) :
    ∃ e', Encrypts env k e e' ∧ encryptLoop env k (e :: mapKeys) keystore =
      encryptLoop env k mapKeys { keystore with
        mapCryptedKeys := keystore.mapCryptedKeys.insert (env.getID e'.1) e' } := by
  obtain ⟨secret, fCompr⟩ := e
  have hkey := @CKey.setSecret_eq _ env.ops CKey.reset _ hlen fCompr
  have hpub := @CKey.pubKeyOf_eq _ env.ops _ hlen fCompr
  have hget : (CKey.reset.setSecret env.ops secret fCompr).2.getSecret =
      some (secret, fCompr || false) := by rw [hkey]; rfl
  obtain ⟨c, hc⟩ := Option.isSome_iff_exists.mp (hk secret (env.getHash
    (env.ops.point2oct (env.ops.mul ⟨secret.toArray, hlen⟩) (CKey.convForm fCompr))))
  have hset : (CKey.reset.setSecret env.ops secret fCompr).1 = true := by rw [hkey]
  have hpub' : (CKey.reset.setSecret env.ops secret fCompr).2.getPubKey env.ops =
      some (env.ops.point2oct (env.ops.mul ⟨secret.toArray, hlen⟩) (CKey.convForm fCompr)) := hpub
  refine ⟨(_, c), ⟨hpub, hc⟩, ?_⟩
  rw [encryptLoop]
  simp only [hset, hpub', hget, hc, addCryptedKey, setCrypted_crypted hcrypto, Bool.not_true,
    Bool.false_eq_true, if_false]

/-- Plain keys under their addresses, with public keys of a proper length. -/
def ProperKeys (env : KeyEnv Point) (mapKeys : StdMap ℕ (CSecret × Bool)) : Prop :=
  ∀ a e, mapKeys.lookup a = some e → e.1.length = 32 ∧
    ∃ vchPubKey, CKey.pubKeyOf env.ops e.1 e.2 = some vchPubKey ∧ a = env.getID vchPubKey ∧
      (vchPubKey.length = 33 ∨ vchPubKey.length = 65)

/-- The loop of `EncryptKeys` encrypts the keys of the addresses it goes through. -/
theorem encryptLoop_spec {k : List UInt8} (hk : ∀ s iv, (env.encryptSecret k s iv).isSome)
    {mapKeys : StdMap ℕ (CSecret × Bool)} (hproper : ProperKeys env mapKeys) {addresses : List ℕ}
    (hnodup : addresses.Nodup) (hcrypto : keystore.fUseCrypto = true) :
    ∃ mapCryptedKeys, encryptLoop env k (addresses.filterMap mapKeys.lookup) keystore =
        (true, { keystore with mapCryptedKeys }) ∧
      (∀ a ∉ addresses, mapCryptedKeys.lookup a = keystore.mapCryptedKeys.lookup a) ∧
      ∀ a ∈ addresses, ∀ e, mapKeys.lookup a = some e →
        ∃ e', mapCryptedKeys.lookup a = some e' ∧ Encrypts env k e e' := by
  induction addresses generalizing keystore with
  | nil => exact ⟨keystore.mapCryptedKeys, rfl, fun _ _ => rfl, fun a ha => (by cases ha)⟩
  | cons a addresses ih =>
    obtain ⟨hnot, hnodup⟩ := List.nodup_cons.mp hnodup
    cases hlookup : mapKeys.lookup a with
    | none =>
      obtain ⟨m, hloop, hframe, hmem⟩ := ih hnodup hcrypto
      refine ⟨m, ?_, fun b hb => hframe b (List.not_mem_of_not_mem_cons hb), fun b hb e he => ?_⟩
      · rw [List.filterMap_cons_none (f := fun a => mapKeys.lookup a) hlookup]
        exact hloop
      · obtain rfl | hb := List.mem_cons.mp hb
        · rw [hlookup] at he
          cases he
        · exact hmem b hb e he
    | some e =>
      obtain ⟨hlen, vchPubKey, hpub, haddr, -⟩ := hproper a e hlookup
      obtain ⟨e', henc, hround⟩ := encryptLoop_cons hk hcrypto hlen
        (addresses.filterMap mapKeys.lookup)
      have hid : env.getID e'.1 = a := by
        have heq := henc.1.symm.trans hpub
        rw [Option.some.inj heq, haddr]
      rw [hid] at hround
      have hrest := fun m => @ih { keystore with
        mapCryptedKeys := m } hnodup hcrypto
      obtain ⟨m, hloop, hframe, hmem⟩ := hrest (keystore.mapCryptedKeys.insert a e')
      refine ⟨m, ?_, fun b hb => ?_, fun b hb e₁ he₁ => ?_⟩
      · rw [List.filterMap_cons_some (f := fun a => mapKeys.lookup a) hlookup, hround]
        exact hloop
      · rw [List.mem_cons, not_or] at hb
        rw [hframe b hb.2, lookup_insert_eq_ite, if_neg hb.1]
      · obtain rfl | hb := List.mem_cons.mp hb
        · obtain rfl := Option.some.inj (hlookup.symm.trans he₁)
          exact ⟨e', by rw [hframe b hnot, lookup_insert_eq_ite, if_pos rfl], henc⟩
        · exact hmem b hb e₁ he₁

/-- The loop of `EncryptKeys` goes through every list of secrets. -/
theorem encryptLoop_eq {k : List UInt8} (hk : ∀ s iv, (env.encryptSecret k s iv).isSome)
    {mapKeys : List (CSecret × Bool)} (hlen : ∀ e ∈ mapKeys, e.1.length = 32)
    (hcrypto : keystore.fUseCrypto = true) :
    ∃ mapCryptedKeys, encryptLoop env k mapKeys keystore = (true, { keystore with mapCryptedKeys }) := by
  induction mapKeys generalizing keystore with
  | nil => exact ⟨keystore.mapCryptedKeys, rfl⟩
  | cons e mapKeys ih =>
    rw [List.forall_mem_cons] at hlen
    obtain ⟨e', -, hround⟩ := encryptLoop_cons hk hcrypto hlen.1 mapKeys
    have hrest := fun m => @ih { keystore with mapCryptedKeys := m } hlen.2 hcrypto
    rw [hround]
    exact hrest _

theorem Moded.encryptKeys (h : keystore.Moded) {k : List UInt8}
    (hk : ∀ s iv, (env.encryptSecret k s iv).isSome) : (keystore.encryptKeys env k).2.Moded := by
  rw [CCryptoKeyStore.encryptKeys]
  split
  next => exact h
  next =>
    have hlen : ∀ e ∈ (addressesInOrder keystore.mapKeys.keys).filterMap
        fun a => keystore.mapKeys.lookup a, e.1.length = 32 := by
      intro e he
      obtain ⟨a, -, ha⟩ := List.mem_filterMap.mp he
      exact h.secrets a e ha
    have hloop := @encryptLoop_eq _ env { keystore with fUseCrypto := true } k hk _ hlen rfl
    obtain ⟨m, hm⟩ := hloop
    simp only [hm, Bool.not_true, Bool.false_eq_true, if_false]
    exact moded_of_crypted rfl rfl

/-- The encrypted entries for plain keys. -/
structure EncryptsAll (env : KeyEnv Point) (k : List UInt8) (mapKeys : StdMap ℕ (CSecret × Bool))
    (mapCryptedKeys : StdMap ℕ (CPubKey × List UInt8)) : Prop where
  of_none : ∀ a, mapKeys.lookup a = none → mapCryptedKeys.lookup a = none
  of_some : ∀ a e, mapKeys.lookup a = some e →
    ∃ e', mapCryptedKeys.lookup a = some e' ∧ Encrypts env k e e'

/-- `EncryptKeys` on a store of proper keys. -/
theorem encryptKeys_spec {k : List UInt8} (hk : ∀ s iv, (env.encryptSecret k s iv).isSome)
    (hmoded : keystore.Moded) (hplain : keystore.fUseCrypto = false)
    (hproper : ProperKeys env keystore.mapKeys) :
    ∃ mapCryptedKeys, keystore.encryptKeys env k = (true, ⟨∅, mapCryptedKeys, [], true⟩) ∧
      EncryptsAll env k keystore.mapKeys mapCryptedKeys := by
  obtain ⟨hnone, hkey⟩ := hmoded.plain hplain
  obtain ⟨m, hloop, hframe, hmem⟩ := @encryptLoop_spec _ env { keystore with fUseCrypto := true } k hk
    _ hproper _ (nodup_addressesInOrder keystore.mapKeys.keys) rfl
  refine ⟨m, ?_, fun a ha => ?_, fun a e he => hmem a ?_ e he⟩
  · rw [encryptKeys, if_neg (by simp [hnone, hplain])]
    simp only [hloop, Bool.not_true, Bool.false_eq_true, if_false]
    rw [hkey]
  · have hframe' := hframe a (by
      rw [mem_addressesInOrder, Finmap.mem_keys, ← Finmap.lookup_eq_none]
      exact ha)
    simp only [hnone, Finmap.lookup_empty] at hframe'
    exact hframe'
  · rw [mem_addressesInOrder, Finmap.mem_keys, ← Finmap.lookup_isSome, he]
    rfl

/-! ## Locking and unlocking -/

/-- A call of `Lock` or `Unlock`. -/
inductive LockEvent where
  | lock
  | unlock (vMasterKeyIn : List UInt8)

variable (env) in
/-- The store after a call of `Lock` or `Unlock`. -/
def lockStep (keystore : CCryptoKeyStore) : LockEvent → CCryptoKeyStore
  | .lock => keystore.lock.2
  | .unlock vMasterKeyIn => (keystore.unlock env vMasterKeyIn).2

/-- An encrypted store changes its master key only. -/
theorem lockStep_crypted (hcrypto : keystore.fUseCrypto = true) (event : LockEvent) :
    ∃ vMasterKey, lockStep env keystore event = { keystore with vMasterKey } := by
  cases event with
  | lock =>
    refine ⟨[], ?_⟩
    simp only [lockStep, lock, setCrypted_crypted hcrypto, Bool.not_true, Bool.false_eq_true, if_false]
  | unlock vMasterKeyIn =>
    simp only [lockStep, unlock, setCrypted_crypted hcrypto, Bool.not_true, Bool.false_eq_true, if_false]
    split
    next => exact ⟨_, rfl⟩
    next =>
      split
      next => exact ⟨keystore.vMasterKey, rfl⟩
      next =>
        split
        next => exact ⟨keystore.vMasterKey, rfl⟩
        next =>
          split
          next => exact ⟨_, rfl⟩
          next => exact ⟨keystore.vMasterKey, rfl⟩

theorem foldl_lockStep (hcrypto : keystore.fUseCrypto = true) (events : List LockEvent) :
    ∃ vMasterKey, events.foldl (lockStep env) keystore = { keystore with vMasterKey } := by
  induction events generalizing keystore with
  | nil => exact ⟨keystore.vMasterKey, rfl⟩
  | cons event events ih =>
    obtain ⟨k, hk⟩ := @lockStep_crypted _ env _ hcrypto event
    rw [List.foldl_cons, hk]
    exact @ih { keystore with vMasterKey := k } hcrypto

/-- A locked store gives no key away. -/
theorem getKey_of_isLocked (h : keystore.isLocked = true) (address : ℕ) (keyOut : CKey Point) :
    (keystore.getKey env address keyOut).1 = false := by
  rw [isLocked, Bool.and_eq_true, List.isEmpty_iff] at h
  rw [getKey, h.1]
  simp only [Bool.not_true, Bool.false_eq_true, if_false, KeyEnv.decryptSecret, h.2, List.length_nil]
  split
  next => rfl
  next => rfl

/-- A master key that decrypts an entry: to a secret of the entry's public key. -/
def Decrypts (env : KeyEnv Point) (vMasterKey : List UInt8) (e : CPubKey × List UInt8) : Prop :=
  ∃ secret, env.decryptSecret vMasterKey e.2 (env.getHash e.1) = some secret ∧ secret.length = 32 ∧
    CKey.pubKeyOf env.ops secret (decide (e.1.length = 33)) = some e.1

/-- `Unlock` is refused when the key does not decrypt the first entry. -/
theorem unlock_refused (hops : env.ops.Lawful) (h : keystore.Moded) {k : List UInt8}
    {e : CPubKey × List UInt8} (hfirst : keystore.firstEntry = some e) (hk : ¬Decrypts env k e) :
    keystore.unlock env k = (false, keystore) := by
  have hcrypto : keystore.fUseCrypto = true := by
    rw [← Bool.not_eq_false]
    intro hplain
    obtain ⟨a, -, ha⟩ := Option.bind_eq_some_iff.mp hfirst
    rw [(h.plain hplain).1, Finmap.lookup_empty] at ha
    cases ha
  obtain ⟨vchPubKey, vchCryptedSecret⟩ := e
  rw [unlock]
  simp only [setCrypted_crypted hcrypto, hfirst, Bool.not_true, Bool.false_eq_true, if_false]
  split
  next => rfl
  next secret hsecret =>
    split
    next => rfl
    next hlen =>
      rw [not_not] at hlen
      rw [if_neg]
      -- the key that was set has the entry's public key only when the entry decrypts
      intro hpub
      obtain ⟨fCompressed, hflag⟩ : ∃ f, f =
        ((CKey.reset : CKey Point).setPubKey env.ops vchPubKey).2.fCompressedPubKey := ⟨_, rfl⟩
      rw [CKey.setSecret_eq _ hlen, ← hflag, Bool.false_or] at hpub
      have hpub' : CKey.pubKeyOf env.ops secret fCompressed = some vchPubKey := by
        rw [CKey.pubKeyOf_eq hlen]
        exact hpub
      have hpoint := (CKey.oct2point_of_pubKeyOf hops hlen hpub').1
      rw [CKey.fCompressedPubKey_setPubKey _ hpoint] at hflag
      refine hk ⟨secret, hsecret, hlen, ?_⟩
      rw [hflag] at hpub'
      simpa [CKey.reset] using hpub'

/-! ## Keys that stay -/

/-- A store of keys that were added one after the other. -/
theorem addKey_foldl (keys : List (CKey Point)) (hkeys : ∀ key ∈ keys, key.Proper env.ops)
    (hplain : keystore.fUseCrypto = false) (hproper : ProperKeys env keystore.mapKeys) :
    (keys.foldl (fun keystore key => (keystore.addKey env key).2) keystore).fUseCrypto = false ∧
      ProperKeys env
        (keys.foldl (fun keystore key => (keystore.addKey env key).2) keystore).mapKeys := by
  induction keys generalizing keystore with
  | nil => exact ⟨hplain, hproper⟩
  | cons key keys ih =>
    rw [List.forall_mem_cons] at hkeys
    obtain ⟨secret, fCompressed, vchPubKey, hsecret, hpub, hlen, heq, hvalid⟩ := hkeys.1.spec
    have hadd : (keystore.addKey env key).2 = { keystore with
        mapKeys := keystore.mapKeys.insert (env.getID vchPubKey) (secret, fCompressed) } := by
      rw [addKey, hsecret, hpub]
      simp only [hplain, Bool.not_false, if_true]
    rw [List.foldl_cons, hadd]
    refine @ih { keystore with mapKeys := _ } hkeys.2 hplain fun a e he => ?_
    rw [lookup_insert_eq_ite] at he
    split at he
    next ha =>
      obtain rfl := Option.some.inj he
      exact ⟨hlen, vchPubKey, heq, ha, hvalid⟩
    next => exact hproper a e he

theorem Moded.addKey_foldl (h : keystore.Moded) (keys : List (CKey Point)) :
    (keys.foldl (fun keystore key => (keystore.addKey env key).2) keystore).Moded := by
  induction keys generalizing keystore with
  | nil => exact h
  | cons key keys ih => exact ih (h.addKey key)

/-- An operation on a store. -/
inductive KeyStoreEvent (Point : Type) where
  | addKey (key : CKey Point)
  | addCryptedKey (vchPubKey : CPubKey) (vchCryptedSecret : List UInt8)
  | encryptKeys (vMasterKeyIn : List UInt8)
  | lock
  | unlock (vMasterKeyIn : List UInt8)

variable (env) in
/-- The stores that operations lead to, when `EncryptSecret` succeeds for the keys of
`EncryptKeys`. -/
def keyStoreSystem : Runs.System CCryptoKeyStore (KeyStoreEvent Point) where
  start keystore := keystore = empty
  legal _ event := ∀ k, event = .encryptKeys k → ∀ s iv, (env.encryptSecret k s iv).isSome
  next keystore event :=
    match event with
    | .addKey key => (keystore.addKey env key).2
    | .addCryptedKey vchPubKey vchCryptedSecret =>
      (keystore.addCryptedKey env vchPubKey vchCryptedSecret).2
    | .encryptKeys k => (keystore.encryptKeys env k).2
    | .lock => keystore.lock.2
    | .unlock k => (keystore.unlock env k).2

/-- Every store is in one of the two modes. -/
theorem moded_of_reachable (h : Runs.Reachable (keyStoreSystem env) keystore) : keystore.Moded := by
  refine h.invariant ?_ ?_
  · rintro s rfl
    exact moded_empty
  intro s event hs hlegal _
  cases event with
  | addKey key => exact hs.addKey key
  | addCryptedKey vchPubKey vchCryptedSecret => exact hs.addCryptedKey _ _
  | encryptKeys k => exact hs.encryptKeys (hlegal k rfl)
  | lock => exact hs.lock
  | unlock k => exact hs.unlock k

/-- What the cipher and a key make of an encrypted entry. -/
theorem Encrypts.spec (hops : env.ops.Lawful)
    (hcipher : ∀ k iv s c, env.encrypt k iv s = some c → env.decrypt k iv c = some s) {k : List UInt8}
    {e : CSecret × Bool} {e' : CPubKey × List UInt8} (h : Encrypts env k e e') (hlen : e.1.length = 32)
    (hvalid : e'.1.length = 33 ∨ e'.1.length = 65) :
    env.decryptSecret k e'.2 (env.getHash e'.1) = some e.1 ∧
      ((CKey.reset : CKey Point).setPubKey env.ops e'.1).2.setSecret env.ops e.1 false =
        (CKey.reset : CKey Point).setSecret env.ops e.1 e.2 := by
  refine ⟨?_, ?_⟩
  · have henc := h.2
    rw [KeyEnv.encryptSecret] at henc
    rw [KeyEnv.decryptSecret]
    split at henc
    next => cases henc
    next hsize => rw [if_neg hsize, hcipher _ _ _ _ henc]
  · have hset := CKey.setPubKey_setSecret hops CKey.reset hlen h.1 hvalid
    rwa [show (CKey.reset : CKey Point).fCompressedPubKey = false from rfl, Bool.or_false] at hset

section Encrypted

variable {k vMasterKey : List UInt8} {m : StdMap ℕ (CPubKey × List UInt8)}

/-- A plain store and the encrypted one answer alike. -/
theorem EncryptsAll.getters (hops : env.ops.Lawful)
    (hcipher : ∀ k iv s c, env.encrypt k iv s = some c → env.decrypt k iv c = some s)
    (hall : EncryptsAll env k keystore.mapKeys m) (hplain : keystore.fUseCrypto = false)
    (hproper : ProperKeys env keystore.mapKeys) (a : ℕ) :
    haveKey ⟨∅, m, vMasterKey, true⟩ a = keystore.haveKey a ∧
      getPubKey env ⟨∅, m, vMasterKey, true⟩ a = keystore.getPubKey env a ∧
      (vMasterKey = k → getKey env ⟨∅, m, vMasterKey, true⟩ a CKey.reset =
        keystore.getKey env a CKey.reset) := by
  simp only [haveKey, getPubKey, getKey, hplain, Bool.not_true, Bool.not_false, Bool.false_eq_true,
    if_false, if_true]
  cases hlookup : keystore.mapKeys.lookup a with
  | none => simp [hall.of_none a hlookup]
  | some e =>
    obtain ⟨e', he', henc⟩ := hall.of_some a e hlookup
    obtain ⟨hlen, vchPubKey, hpub, -, hvalid⟩ := hproper a e hlookup
    obtain rfl : e'.1 = vchPubKey := Option.some.inj (henc.1.symm.trans hpub)
    obtain ⟨hdecrypt, hset⟩ := henc.spec hops hcipher hlen hvalid
    have hfound : ((CKey.reset : CKey Point).setSecret env.ops e.1 e.2).1 = true := by
      rw [CKey.setSecret_eq _ hlen]
    have hkey : ((CKey.reset : CKey Point).setSecret env.ops e.1 e.2).2.getPubKey env.ops = some e'.1 :=
      hpub
    refine ⟨by simp [he'], ?_, fun hk => ?_⟩
    · simp [he', hfound, hkey]
    · subst hk
      simp only [he', hdecrypt, hset, ne_eq, hlen, not_true_eq_false, if_false]

/-- The master key unlocks. -/
theorem EncryptsAll.unlock (hops : env.ops.Lawful)
    (hcipher : ∀ k iv s c, env.encrypt k iv s = some c → env.decrypt k iv c = some s)
    (hall : EncryptsAll env k keystore.mapKeys m) (hproper : ProperKeys env keystore.mapKeys) :
    (CCryptoKeyStore.unlock env ⟨∅, m, vMasterKey, true⟩ k).1 = true := by
  rw [CCryptoKeyStore.unlock]
  simp only [setCrypted_crypted, Bool.not_true, Bool.false_eq_true, if_false]
  cases hfirst : firstEntry ⟨∅, m, vMasterKey, true⟩ with
  | none => rfl
  | some e' =>
    obtain ⟨a, -, ha⟩ := Option.bind_eq_some_iff.mp hfirst
    cases hlookup : keystore.mapKeys.lookup a with
    | none =>
      rw [hall.of_none a hlookup] at ha
      cases ha
    | some e =>
      obtain ⟨e₁, he₁, henc⟩ := hall.of_some a e hlookup
      obtain rfl : e₁ = e' := Option.some.inj (he₁.symm.trans ha)
      obtain ⟨hlen, vchPubKey, hpub, -, hvalid⟩ := hproper a e hlookup
      obtain rfl : e₁.1 = vchPubKey := Option.some.inj (henc.1.symm.trans hpub)
      obtain ⟨hdecrypt, hset⟩ := henc.spec hops hcipher hlen hvalid
      have hkey : ((CKey.reset : CKey Point).setSecret env.ops e.1 e.2).2.getPubKey env.ops =
        some e₁.1 := hpub
      simp only [hdecrypt, hset, hkey, ne_eq, hlen, not_true_eq_false, if_false, if_true]

end Encrypted

/-- **Encrypting keeps the keys, and the modes keep them apart.** Keys that `IsValid` accepts are
found after `EncryptKeys` and any calls of `Lock` and `Unlock` as before, and are decrypted under
the master key. In every store no key is plain where keys are encrypted, a wrong key is refused, and
nothing is decrypted while it is locked. -/
theorem cryptoKeyStore_of_encryptKeys (hops : env.ops.Lawful)
    (hcipher : ∀ k iv s c, env.encrypt k iv s = some c → env.decrypt k iv c = some s) :
    (∀ (keys : List (CKey Point)) (k : List UInt8) (events : List LockEvent),
      (∀ key ∈ keys, key.Proper env.ops) → (∀ s iv, (env.encryptSecret k s iv).isSome) →
        let keystore₀ := keys.foldl (fun keystore key => (keystore.addKey env key).2) empty
        let keystore := events.foldl (lockStep env) (keystore₀.encryptKeys env k).2
        (keystore₀.encryptKeys env k).1 = true ∧ (keystore.unlock env k).1 = true ∧
          ∀ a, keystore.haveKey a = keystore₀.haveKey a ∧
            keystore.getPubKey env a = keystore₀.getPubKey env a ∧
            (keystore.vMasterKey = k →
              keystore.getKey env a CKey.reset = keystore₀.getKey env a CKey.reset)) ∧
      ∀ keystore, Runs.Reachable (keyStoreSystem env) keystore →
        (keystore.fUseCrypto = true → keystore.mapKeys = ∅) ∧
          (∀ k e, keystore.firstEntry = some e → ¬Decrypts env k e →
            keystore.unlock env k = (false, keystore)) ∧
          (keystore.isLocked = true → ∀ a keyOut, (keystore.getKey env a keyOut).1 = false) := by
  refine ⟨fun keys k events hkeys hk => ?_, fun keystore h => ?_⟩
  · intro keystore₀ keystore
    obtain ⟨hplain, hproper⟩ := @addKey_foldl _ env empty keys hkeys rfl
      (fun a e he => (by cases he))
    have hmoded : keystore₀.Moded := moded_empty.addKey_foldl keys
    obtain ⟨m, hencrypt, hall⟩ := encryptKeys_spec hk hmoded hplain hproper
    obtain ⟨vMasterKey, hrun⟩ := @foldl_lockStep _ env ⟨∅, m, [], true⟩ rfl events
    have hkeystore : keystore = ⟨∅, m, vMasterKey, true⟩ := by
      show events.foldl (lockStep env) (keystore₀.encryptKeys env k).2 = _
      rw [hencrypt]
      exact hrun
    rw [hkeystore, hencrypt]
    exact ⟨rfl, hall.unlock hops hcipher hproper,
      fun a => hall.getters hops hcipher hplain hproper a⟩
  · have hmoded := moded_of_reachable h
    exact ⟨hmoded.crypted, fun k e hfirst hk => unlock_refused hops hmoded hfirst hk,
      fun hlocked a keyOut => getKey_of_isLocked hlocked a keyOut⟩

/-- The secret of the generator, encrypted under `exampleMasterKey`. -/
def exampleCiphertext : List UInt8 :=
  [139, 57, 163, 69, 3, 213, 59, 246, 255, 72, 203, 182, 10, 168, 69, 132, 15, 201, 78, 183, 225, 79,
    173, 68, 222, 178, 233, 47, 56, 102, 198, 115, 22, 214, 246, 135, 30, 20, 181, 59, 54, 100, 22,
    120, 92, 236, 9, 186]

/-- The environment of the generator, its addresses and one ciphertext of its secret. -/
def exampleEnv : KeyEnv Unit where
  ops := generatorOps
  getID vchPubKey :=
    if vchPubKey.length = 33 then 1223045687501595792205745683362443889418129776245
    else 942878075129102777698470684497994080148316205713
  getHash vchPubKey :=
    if vchPubKey.length = 33 then
      102010380356281104186683337071875603944133987436775007560324361388352462310833
    else 43007053632778598122933001642895820437575799734470937594933622483938492899512
  encrypt _ _ vchSecret :=
    some (if vchSecret = generatorSecret.toList then exampleCiphertext else 0 :: vchSecret)
  decrypt _ _ vchCiphertext :=
    if vchCiphertext = exampleCiphertext then some generatorSecret.toList else vchCiphertext.tail?

/-- A new compressed key of the generator's secret. -/
def exampleKey : CKey Unit := (CKey.reset : CKey Unit).makeNewKey generatorOps true generatorSecret

/-- The example's master key. -/
def exampleMasterKey : List UInt8 := List.replicate 32 7

theorem exampleEnv_decrypt (k : List UInt8) (iv : Uint256) (s : CSecret) (c : List UInt8)
    (h : exampleEnv.encrypt k iv s = some c) : exampleEnv.decrypt k iv c = some s := by
  obtain rfl := Option.some.inj h
  show ite _ _ _ = _
  by_cases hs : s = generatorSecret.toList
  · rw [if_pos hs, if_pos rfl, hs]
  · rw [if_neg hs, if_neg]
    · rfl
    · intro heq
      exact absurd (List.cons.inj heq).1 (by decide)

theorem exampleEnv_encryptSecret (s : CSecret) (iv : Uint256) :
    (exampleEnv.encryptSecret exampleMasterKey s iv).isSome := by
  rw [KeyEnv.encryptSecret, if_neg (by decide)]
  rfl

theorem exampleKey_proper : exampleKey.Proper exampleEnv.ops :=
  ⟨by decide, 2 :: generatorX, rfl, .inl rfl⟩

/-- The example's key, after its store has been encrypted, locked, and unlocked. -/
theorem cryptoKeyStore_exampleKey :
    let keystore₀ := (empty.addKey exampleEnv exampleKey).2
    let keystore := ((keystore₀.encryptKeys exampleEnv exampleMasterKey).2.lock.2.unlock exampleEnv
      exampleMasterKey).2
    (keystore₀.encryptKeys exampleEnv exampleMasterKey).1 = true ∧
      (keystore.unlock exampleEnv exampleMasterKey).1 = true ∧
      ∀ a, keystore.haveKey a = keystore₀.haveKey a ∧
        keystore.getPubKey exampleEnv a = keystore₀.getPubKey exampleEnv a ∧
        (keystore.vMasterKey = exampleMasterKey → keystore.getKey exampleEnv a CKey.reset =
          keystore₀.getKey exampleEnv a CKey.reset) :=
  (cryptoKeyStore_of_encryptKeys generatorOps_lawful exampleEnv_decrypt).1 [exampleKey]
    exampleMasterKey [.lock, .unlock exampleMasterKey]
    (List.forall_mem_singleton.mpr exampleKey_proper) exampleEnv_encryptSecret

/-- A key that was assigned to keeps its own flag, so that it is encrypted under another address. -/
theorem not_forall_haveKey_encryptKeys :
    ¬∀ (keys : List (CKey Unit)) (k : List UInt8) (events : List LockEvent),
      (∀ s iv, (exampleEnv.encryptSecret k s iv).isSome) →
        let keystore₀ := keys.foldl (fun keystore key => (keystore.addKey exampleEnv key).2) empty
        let keystore := events.foldl (lockStep exampleEnv) (keystore₀.encryptKeys exampleEnv k).2
        ∀ a, keystore.haveKey a = keystore₀.haveKey a := by
  intro h
  have hhave := h [(CKey.reset : CKey Unit).assign exampleKey] exampleMasterKey []
    exampleEnv_encryptSecret (exampleEnv.getID (2 :: generatorX))
  have hadd : (empty.addKey exampleEnv ((CKey.reset : CKey Unit).assign exampleKey)).2 =
      ⟨(∅ : StdMap ℕ _).insert (exampleEnv.getID (2 :: generatorX))
        (generatorSecret.toList, false), ∅, [], false⟩ := rfl
  have hkeys : ∀ (a : ℕ) (e : CSecret × Bool), addressesInOrder ((∅ : StdMap ℕ _).insert a e).keys =
      [a] := by
    intro a e
    exact Finset.sort_singleton _ _
  rw [List.foldl_cons, List.foldl_nil, List.foldl_nil, hadd, encryptKeys, if_neg (by decide)] at hhave
  simp only [hkeys, List.filterMap_cons, Finmap.lookup_insert, List.filterMap_nil] at hhave
  revert hhave
  decide

end CCryptoKeyStore

end FoxCoin
