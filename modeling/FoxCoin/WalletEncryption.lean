import FoxCoin.CryptoKeyStore

/-! # Encrypting a wallet and changing its passphrase

A wallet keeps its master key encrypted under each passphrase record of `mapMasterKeys`.
`EncryptWallet` adds the first record, `ChangeWalletPassphrase` rewrites the one that the old
passphrase opens. Both change the wallet in stages and return `false` between them. -/

namespace FoxCoin

open Overlay

/-! ## Passphrases -/

/-- `CMasterKey`. -/
structure CMasterKey where
  vchCryptedKey : List UInt8
  vchSalt : List UInt8
  nDerivationMethod : ℕ
  nDeriveIterations : ℕ
  vchOtherDerivationParameters : List UInt8
  deriving DecidableEq

/-- A key store's environment, with the derivation of keys from passphrases. -/
structure PassphraseEnv (Point : Type) extends KeyEnv Point where
  /-- `EVP_BytesToKey` of a passphrase, a salt and a number of rounds: `chKey` and `chIV`, or
  nothing where it does not give 32 bytes. -/
  bytesToKey : List UInt8 → List UInt8 → ℕ → Option (List UInt8 × Uint256)
  /-- The vector that is left where `CCrypter::Encrypt` fails in the cipher. -/
  failedCiphertext : List UInt8 → Uint256 → List UInt8 → List UInt8

/-- `CCrypter`. -/
structure CCrypter where
  chKey : List UInt8
  chIV : Uint256
  fKeySet : Bool

variable {Point : Type} (env : PassphraseEnv Point)

namespace CCrypter

/-- A new crypter. What its key holds is never read. -/
def new : CCrypter := ⟨List.replicate 32 0, 0, false⟩

/-- `SetKeyFromPassphrase`, with the salt, rounds and method of a record. -/
def setKeyFromPassphrase (crypter : CCrypter) (strKeyData : List UInt8) (kMasterKey : CMasterKey) :
    Bool × CCrypter :=
  if kMasterKey.nDeriveIterations < 1 ∨ kMasterKey.vchSalt.length ≠ 8 then (false, crypter)
  else
    let derived :=
      if kMasterKey.nDerivationMethod = 0 then
        env.bytesToKey strKeyData kMasterKey.vchSalt kMasterKey.nDeriveIterations
      else none
    match derived with
    | none => (false, { crypter with chKey := List.replicate 32 0, chIV := 0 })
    | some (chKey, chIV) => (true, ⟨chKey, chIV, true⟩)

/-- `Encrypt`: whether it succeeds, and the ciphertext vector after it. -/
def encrypt (crypter : CCrypter) (vchPlaintext vchCiphertext : List UInt8) : Bool × List UInt8 :=
  if !crypter.fKeySet then (false, vchCiphertext)
  else
    match env.encrypt crypter.chKey crypter.chIV vchPlaintext with
    | none => (false, env.failedCiphertext crypter.chKey crypter.chIV vchPlaintext)
    | some vchCiphertext => (true, vchCiphertext)

/-- `Decrypt`. -/
def decrypt (crypter : CCrypter) (vchCiphertext : List UInt8) : Option (List UInt8) :=
  if !crypter.fKeySet then none else env.decrypt crypter.chKey crypter.chIV vchCiphertext

/-- The steps that both calls begin a record with. The rounds of the record are measured twice, to
`nMeasured`, and are `25000` at least. -/
def setMeasuredKey (crypter : CCrypter) (strPassphrase : List UInt8) (kMasterKey : CMasterKey)
    (nMeasured : ℕ × ℕ) : Bool × CCrypter × CMasterKey :=
  let crypter := (crypter.setKeyFromPassphrase env strPassphrase kMasterKey).2
  let kMasterKey := { kMasterKey with nDeriveIterations := nMeasured.1 }
  let crypter := (crypter.setKeyFromPassphrase env strPassphrase kMasterKey).2
  let kMasterKey := { kMasterKey with nDeriveIterations := nMeasured.2 }
  let kMasterKey :=
    if kMasterKey.nDeriveIterations < 25000 then { kMasterKey with nDeriveIterations := 25000 }
    else kMasterKey
  let (fSet, crypter) := crypter.setKeyFromPassphrase env strPassphrase kMasterKey
  (fSet, crypter, kMasterKey)

end CCrypter

/-! ## Wallets -/

/-- The part of `CWallet` that passphrases concern. A database handle is a number. -/
structure CryptoWallet extends CCryptoKeyStore where
  mapMasterKeys : StdMap ℕ CMasterKey
  nMasterKeyMaxID : ℕ
  pwalletdbEncryption : Option ℕ
  nWalletVersion : ℕ
  nWalletMaxVersion : ℕ
  fFileBacked : Bool

/-- How a call ends. -/
inductive WalletOutcome where
  | returned (result : Bool)
  /-- `exit(1)`. -/
  | exited
  | threw
  deriving DecidableEq

/-- What a call of `EncryptWallet` draws, measures and meets. -/
structure EncryptCall (Point : Type) where
  vMasterKey : Vector UInt8 32
  vchSalt : Vector UInt8 8
  nMeasured : ℕ × ℕ
  /-- The handle of the new `CWalletDB`. -/
  pwalletdb : ℕ
  fTxnBegin : Bool
  /-- Whether every encrypted key is written. -/
  fKeysWritten : Bool
  fTxnCommit : Bool
  /-- The keys that `NewKeyPool` makes. -/
  poolKeys : List (CKey Point)

namespace CryptoWallet

variable (wallet : CryptoWallet)

/-- `Lock`. -/
def lock : CryptoWallet := { wallet with toCCryptoKeyStore := wallet.toCCryptoKeyStore.lock.2 }

/-- The records in the order of the map. -/
def masterKeys : List (ℕ × CMasterKey) :=
  (addressesInOrder wallet.mapMasterKeys.keys).filterMap fun id =>
    (wallet.mapMasterKeys.lookup id).map fun kMasterKey => (id, kMasterKey)

/-- `mapMasterKeys[id] = kMasterKey`. -/
def setMasterKey (id : ℕ) (kMasterKey : CMasterKey) : CryptoWallet :=
  { wallet with mapMasterKeys := wallet.mapMasterKeys.insert id kMasterKey }

/-- The loop of `Unlock`. -/
def unlockLoop (strWalletPassphrase : List UInt8) :
    CCrypter → List (ℕ × CMasterKey) → CryptoWallet → Bool × CryptoWallet
  | _, [], wallet => (false, wallet)
  | crypter, (_, kMasterKey) :: masterKeys, wallet =>
    let (fSet, crypter) := crypter.setKeyFromPassphrase env strWalletPassphrase kMasterKey
    if !fSet then (false, wallet)
    else
      match crypter.decrypt env kMasterKey.vchCryptedKey with
      | none => (false, wallet)
      | some vMasterKey =>
        let (fUnlocked, keystore) := wallet.toCCryptoKeyStore.unlock env.toKeyEnv vMasterKey
        let wallet := { wallet with toCCryptoKeyStore := keystore }
        if fUnlocked then (true, wallet)
        else unlockLoop strWalletPassphrase crypter masterKeys wallet

/-- `Unlock`. -/
def unlock (strWalletPassphrase : List UInt8) : Bool × CryptoWallet :=
  if !wallet.isLocked then (false, wallet)
  else unlockLoop env strWalletPassphrase CCrypter.new wallet.masterKeys wallet

/-- The part of `ChangeWalletPassphrase` from the record on that unlocks the key store. -/
def reencrypt (strNewWalletPassphrase : List UInt8) (nMeasured : ℕ × ℕ) (fWasLocked : Bool)
    (crypter : CCrypter) (id : ℕ) (kMasterKey : CMasterKey) (vMasterKey : List UInt8) :
    Bool × CryptoWallet :=
  let (fSet, crypter, kMasterKey) :=
    crypter.setMeasuredKey env strNewWalletPassphrase kMasterKey nMeasured
  if !fSet then (false, wallet.setMasterKey id kMasterKey)
  else
    let (fEncrypted, vchCryptedKey) := crypter.encrypt env vMasterKey kMasterKey.vchCryptedKey
    let wallet := wallet.setMasterKey id { kMasterKey with vchCryptedKey := vchCryptedKey }
    if !fEncrypted then (false, wallet)
    else (true, if fWasLocked then wallet.lock else wallet)

/-- The loop of `ChangeWalletPassphrase`. -/
def changeLoop (strOldWalletPassphrase strNewWalletPassphrase : List UInt8) (nMeasured : ℕ × ℕ)
    (fWasLocked : Bool) : CCrypter → List (ℕ × CMasterKey) → CryptoWallet → Bool × CryptoWallet
  | _, [], wallet => (false, wallet)
  | crypter, (id, kMasterKey) :: masterKeys, wallet =>
    let (fSet, crypter) := crypter.setKeyFromPassphrase env strOldWalletPassphrase kMasterKey
    if !fSet then (false, wallet)
    else
      match crypter.decrypt env kMasterKey.vchCryptedKey with
      | none => (false, wallet)
      | some vMasterKey =>
        let (fUnlocked, keystore) := wallet.toCCryptoKeyStore.unlock env.toKeyEnv vMasterKey
        let wallet := { wallet with toCCryptoKeyStore := keystore }
        if fUnlocked then
          wallet.reencrypt env strNewWalletPassphrase nMeasured fWasLocked crypter id kMasterKey
            vMasterKey
        else
          changeLoop strOldWalletPassphrase strNewWalletPassphrase nMeasured fWasLocked crypter
            masterKeys wallet

/-- `ChangeWalletPassphrase`. -/
def changeWalletPassphrase (strOldWalletPassphrase strNewWalletPassphrase : List UInt8)
    (nMeasured : ℕ × ℕ) : Bool × CryptoWallet :=
  let fWasLocked := wallet.isLocked
  let wallet := wallet.lock
  changeLoop env strOldWalletPassphrase strNewWalletPassphrase nMeasured fWasLocked CCrypter.new
    wallet.masterKeys wallet

/-- `SetMinVersion`. -/
def setMinVersion (nVersion : ℕ) (fExplicit : Bool) : CryptoWallet :=
  if wallet.nWalletVersion ≥ nVersion then wallet
  else
    -- an explicit upgrade past the maximum goes to `FEATURE_LATEST`
    let nVersion := if fExplicit && nVersion > wallet.nWalletMaxVersion then 60000 else nVersion
    { wallet with
      nWalletVersion := nVersion
      nWalletMaxVersion :=
        if nVersion > wallet.nWalletMaxVersion then nVersion else wallet.nWalletMaxVersion }

/-- The keys that `NewKeyPool` adds, each by `GenerateNewKey`, which throws where `AddKey` fails. -/
def newPoolKeys : List (CKey Point) → CryptoWallet → Bool × CryptoWallet
  | [], wallet => (true, wallet)
  | key :: keys, wallet =>
    -- compressed keys, where the wallet can support `FEATURE_COMPRPUBKEY`
    let wallet := if wallet.nWalletMaxVersion ≥ 60000 then wallet.setMinVersion 60000 false else wallet
    let (fAdded, keystore) := wallet.toCCryptoKeyStore.addKey env.toKeyEnv key
    let wallet := { wallet with toCCryptoKeyStore := keystore }
    if !fAdded then (false, wallet) else newPoolKeys keys wallet

/-- The part of `EncryptWallet` from `EncryptKeys` on. -/
def finishEncryption (strWalletPassphrase : List UInt8) (call : EncryptCall Point) :
    WalletOutcome × CryptoWallet :=
  let (fEncrypted, keystore) :=
    wallet.toCCryptoKeyStore.encryptKeys env.toKeyEnv call.vMasterKey.toList
  let wallet := { wallet with toCCryptoKeyStore := keystore }
  if !fEncrypted || wallet.fFileBacked && !call.fKeysWritten then (.exited, wallet)
  else
    -- `FEATURE_WALLETCRYPT`
    let wallet := wallet.setMinVersion 40000 true
    if wallet.fFileBacked && !call.fTxnCommit then (.exited, wallet)
    else
      let wallet :=
        if wallet.fFileBacked then { wallet with pwalletdbEncryption := none } else wallet
      let wallet := (wallet.lock.unlock env strWalletPassphrase).2
      if wallet.isLocked then (.returned true, wallet.lock)
      else
        let (fAdded, wallet) := newPoolKeys env call.poolKeys wallet
        if !fAdded then (.threw, wallet) else (.returned true, wallet.lock)

/-- The part of `EncryptWallet` from the new record on. -/
def addMasterKey (strWalletPassphrase : List UInt8) (call : EncryptCall Point)
    (kMasterKey : CMasterKey) : WalletOutcome × CryptoWallet :=
  let fFileBacked := wallet.fFileBacked
  let nMasterKeyMaxID := (wallet.nMasterKeyMaxID + 1) % 2 ^ 32
  let wallet := { wallet with nMasterKeyMaxID := nMasterKeyMaxID }
  let wallet := wallet.setMasterKey nMasterKeyMaxID kMasterKey
  if fFileBacked then
    let wallet := { wallet with pwalletdbEncryption := some call.pwalletdb }
    if !call.fTxnBegin then (.returned false, wallet)
    else wallet.finishEncryption env strWalletPassphrase call
  else wallet.finishEncryption env strWalletPassphrase call

/-- `EncryptWallet`. -/
def encryptWallet (strWalletPassphrase : List UInt8) (call : EncryptCall Point) :
    WalletOutcome × CryptoWallet :=
  if wallet.fUseCrypto then (.returned false, wallet)
  else
    let (fSet, crypter, kMasterKey) := CCrypter.new.setMeasuredKey env strWalletPassphrase
      ⟨[], call.vchSalt.toList, 0, 25000, []⟩ call.nMeasured
    if !fSet then (.returned false, wallet)
    else
      let (fEncrypted, vchCryptedKey) :=
        crypter.encrypt env call.vMasterKey.toList kMasterKey.vchCryptedKey
      if !fEncrypted then (.returned false, wallet)
      else
        wallet.addMasterKey env strWalletPassphrase call
          { kMasterKey with vchCryptedKey := vchCryptedKey }

end CryptoWallet

/-! ## What a record gives -/

variable {env}

/-- The key that a passphrase derives from a record. -/
def PassphraseEnv.derivedKey (env : PassphraseEnv Point) (strPassphrase : List UInt8)
    (kMasterKey : CMasterKey) : Option (List UInt8 × Uint256) :=
  if kMasterKey.nDeriveIterations < 1 ∨ kMasterKey.vchSalt.length ≠ 8 then none
  else if kMasterKey.nDerivationMethod = 0 then
    env.bytesToKey strPassphrase kMasterKey.vchSalt kMasterKey.nDeriveIterations
  else none

/-- The master key that a passphrase recovers from a record. -/
def PassphraseEnv.recovered (env : PassphraseEnv Point) (strPassphrase : List UInt8)
    (kMasterKey : CMasterKey) : Option (List UInt8) :=
  (env.derivedKey strPassphrase kMasterKey).bind fun (chKey, chIV) =>
    env.decrypt chKey chIV kMasterKey.vchCryptedKey

/-- Whether a master key is encrypted anew, and the record that is left. -/
def PassphraseEnv.reencrypted (env : PassphraseEnv Point) (strPassphrase : List UInt8)
    (kMasterKey : CMasterKey) (nMeasured : ℕ × ℕ) (vMasterKey : List UInt8) : Bool × CMasterKey :=
  let kMasterKey := { kMasterKey with nDeriveIterations := max nMeasured.2 25000 }
  match env.derivedKey strPassphrase kMasterKey with
  | none => (false, kMasterKey)
  | some (chKey, chIV) =>
    match env.encrypt chKey chIV vMasterKey with
    | none =>
      (false, { kMasterKey with vchCryptedKey := env.failedCiphertext chKey chIV vMasterKey })
    | some vchCryptedKey => (true, { kMasterKey with vchCryptedKey := vchCryptedKey })

/-- The record that a passphrase opens a key store with, and the master key it recovers. A record
from which it recovers nothing ends the search. -/
def PassphraseEnv.opened (env : PassphraseEnv Point) (keystore : CCryptoKeyStore)
    (strPassphrase : List UInt8) : List (ℕ × CMasterKey) → Option (ℕ × CMasterKey × List UInt8)
  | [] => none
  | (id, kMasterKey) :: masterKeys =>
    match env.recovered strPassphrase kMasterKey with
    | none => none
    | some vMasterKey =>
      if (keystore.unlock env.toKeyEnv vMasterKey).1 then some (id, kMasterKey, vMasterKey)
      else env.opened keystore strPassphrase masterKeys

namespace PassphraseEnv

variable {strPassphrase : List UInt8} {kMasterKey : CMasterKey} {chKey : List UInt8}
  {chIV : Uint256}

theorem recovered_eq_none (h : env.derivedKey strPassphrase kMasterKey = none) :
    env.recovered strPassphrase kMasterKey = none := by
  rw [recovered, h]
  rfl

theorem recovered_eq (h : env.derivedKey strPassphrase kMasterKey = some (chKey, chIV)) :
    env.recovered strPassphrase kMasterKey = env.decrypt chKey chIV kMasterKey.vchCryptedKey := by
  rw [recovered, h]
  rfl

end PassphraseEnv

namespace CCrypter

variable {crypter : CCrypter} {strPassphrase : List UInt8} {kMasterKey : CMasterKey}

theorem setKeyFromPassphrase_failed (h : env.derivedKey strPassphrase kMasterKey = none) :
    (crypter.setKeyFromPassphrase env strPassphrase kMasterKey).1 = false := by
  rw [PassphraseEnv.derivedKey] at h
  rw [setKeyFromPassphrase]
  split
  next => rfl
  next hrounds =>
    rw [if_neg hrounds] at h
    simp only [h]

theorem setKeyFromPassphrase_eq {chKey : List UInt8} {chIV : Uint256}
    (h : env.derivedKey strPassphrase kMasterKey = some (chKey, chIV)) :
    crypter.setKeyFromPassphrase env strPassphrase kMasterKey = (true, ⟨chKey, chIV, true⟩) := by
  rw [PassphraseEnv.derivedKey] at h
  rw [setKeyFromPassphrase]
  split
  next hrounds =>
    rw [if_pos hrounds] at h
    cases h
  next hrounds =>
    rw [if_neg hrounds] at h
    simp only [h]

/-- The measurements leave their number of rounds only. -/
theorem setMeasuredKey_eq (nMeasured : ℕ × ℕ) :
    ∃ crypter' : CCrypter, crypter.setMeasuredKey env strPassphrase kMasterKey nMeasured =
      ((crypter'.setKeyFromPassphrase env strPassphrase
          { kMasterKey with nDeriveIterations := max nMeasured.2 25000 }).1,
        (crypter'.setKeyFromPassphrase env strPassphrase
          { kMasterKey with nDeriveIterations := max nMeasured.2 25000 }).2,
        { kMasterKey with nDeriveIterations := max nMeasured.2 25000 }) := by
  have hrounds : (if nMeasured.2 < 25000 then
      { kMasterKey with nDeriveIterations := 25000 }
      else { kMasterKey with nDeriveIterations := nMeasured.2 } : CMasterKey) =
      { kMasterKey with nDeriveIterations := max nMeasured.2 25000 } := by
    split
    next hlt => rw [Nat.max_eq_right hlt.le]
    next hge => rw [Nat.max_eq_left (not_lt.mp hge)]
  rw [← hrounds]
  exact ⟨_, rfl⟩

end CCrypter

/-! ## Locking and unlocking -/

namespace CCryptoKeyStore

variable {keystore : CCryptoKeyStore}

/-- Stores whose mode `SetCrypted` leaves as it is. -/
def Settled (keystore : CCryptoKeyStore) : Prop :=
  keystore.fUseCrypto = true ∨ keystore.mapKeys.keys ≠ ∅

theorem Settled.setCrypted (h : keystore.Settled) :
    keystore.setCrypted = (keystore.fUseCrypto, keystore) := by
  rw [CCryptoKeyStore.setCrypted]
  split
  next hcrypto => rw [hcrypto]
  next hplain =>
    rw [if_pos (h.resolve_left hplain), Bool.eq_false_of_not_eq_true hplain]

/-- `Lock` by cases: an encrypted store, a plain one with keys, and a new one. -/
theorem lock_cases (keystore : CCryptoKeyStore) :
    keystore.fUseCrypto = true ∧ keystore.lock.2 = { keystore with vMasterKey := [] } ∨
      keystore.fUseCrypto = false ∧ keystore.mapKeys.keys ≠ ∅ ∧ keystore.lock.2 = keystore ∨
      keystore.fUseCrypto = false ∧ keystore.mapKeys.keys = ∅ ∧
        keystore.lock.2 = { keystore with vMasterKey := [], fUseCrypto := true } := by
  rw [CCryptoKeyStore.lock, CCryptoKeyStore.setCrypted]
  by_cases hcrypto : keystore.fUseCrypto = true
  · rw [if_pos hcrypto]
    exact .inl ⟨hcrypto, rfl⟩
  · rw [if_neg hcrypto]
    refine .inr ?_
    by_cases hkeys : keystore.mapKeys.keys = ∅
    · rw [if_neg (not_not.mpr hkeys)]
      exact .inr ⟨Bool.eq_false_of_not_eq_true hcrypto, hkeys, rfl⟩
    · rw [if_pos hkeys]
      exact .inl ⟨Bool.eq_false_of_not_eq_true hcrypto, hkeys, rfl⟩

/-- **`Lock` settles a store.** -/
theorem settled_lock (keystore : CCryptoKeyStore) : keystore.lock.2.Settled := by
  obtain ⟨hcrypto, hlock⟩ | ⟨-, hkeys, hlock⟩ | ⟨-, -, hlock⟩ := keystore.lock_cases
  · rw [hlock]
    exact .inl hcrypto
  · rw [hlock]
    exact .inr hkeys
  · rw [hlock]
    exact .inl rfl

/-- `Lock` changes nothing in a locked store and in one with plain keys that is not encrypted, and
in no other. -/
theorem lock_eq_self_iff : keystore.lock.2 = keystore ↔
    keystore.isLocked = true ∨ keystore.fUseCrypto = false ∧ keystore.mapKeys.keys ≠ ∅ := by
  obtain ⟨hcrypto, hlock⟩ | ⟨hplain, hkeys, hlock⟩ | ⟨hplain, hkeys, hlock⟩ := keystore.lock_cases
  · have hlocked : keystore.isLocked = true ↔ keystore.vMasterKey = [] := by
      rw [isLocked, hcrypto, Bool.true_and, List.isEmpty_iff]
    rw [hlock, hlocked]
    constructor
    · intro h
      exact .inl (congrArg vMasterKey h).symm
    · rintro (h | ⟨h, -⟩)
      · rw [← h]
      · rw [hcrypto] at h
        cases h
  · exact ⟨fun _ => .inr ⟨hplain, hkeys⟩, fun _ => hlock⟩
  · rw [hlock]
    constructor
    · intro h
      have := congrArg fUseCrypto h
      rw [hplain] at this
      cases this
    · rintro (h | ⟨-, h⟩)
      · rw [isLocked, hplain, Bool.false_and] at h
        cases h
      · exact absurd hkeys h

/-- `Unlock` sets the master key of an encrypted store, or changes nothing. -/
theorem Settled.unlock (h : keystore.Settled) (env : KeyEnv Point) (k : List UInt8) :
    keystore.unlock env k = (true, { keystore with vMasterKey := k }) ∧
        keystore.fUseCrypto = true ∨
      keystore.unlock env k = (false, keystore) := by
  rw [CCryptoKeyStore.unlock, h.setCrypted]
  by_cases hcrypto : keystore.fUseCrypto = true
  · simp only [hcrypto, Bool.not_true, Bool.false_eq_true, if_false]
    split
    next => exact .inl ⟨rfl, trivial⟩
    next =>
      split
      next => exact .inr rfl
      next =>
        split
        next => exact .inr rfl
        next =>
          split
          next => exact .inl ⟨rfl, trivial⟩
          next => exact .inr rfl
  · simp only [Bool.eq_false_of_not_eq_true hcrypto, Bool.not_false, if_true]
    exact .inr trivial

end CCryptoKeyStore

namespace CryptoWallet

variable {wallet : CryptoWallet}

/-! ## The calls -/

theorem reencrypt_eq (strNewWalletPassphrase : List UInt8) (nMeasured : ℕ × ℕ) (fWasLocked : Bool)
    (crypter : CCrypter) (id : ℕ) (kMasterKey : CMasterKey) (vMasterKey : List UInt8) :
    let r := env.reencrypted strNewWalletPassphrase kMasterKey nMeasured vMasterKey
    wallet.reencrypt env strNewWalletPassphrase nMeasured fWasLocked crypter id kMasterKey
      vMasterKey = (r.1, if r.1 && fWasLocked then (wallet.setMasterKey id r.2).lock
        else wallet.setMasterKey id r.2) := by
  intro r
  obtain ⟨crypter', hmeasured⟩ := @CCrypter.setMeasuredKey_eq _ env crypter strNewWalletPassphrase
    kMasterKey nMeasured
  rw [reencrypt, hmeasured]
  cases hderived : env.derivedKey strNewWalletPassphrase
      { kMasterKey with nDeriveIterations := max nMeasured.2 25000 } with
  | none =>
    have hr : r = (false, { kMasterKey with nDeriveIterations := max nMeasured.2 25000 }) := by
      simp only [r, PassphraseEnv.reencrypted, hderived]
    rw [hr, CCrypter.setKeyFromPassphrase_failed hderived]
    rfl
  | some key =>
    obtain ⟨chKey, chIV⟩ := key
    rw [CCrypter.setKeyFromPassphrase_eq hderived]
    cases hcipher : env.encrypt chKey chIV vMasterKey with
    | none =>
      simp [r, PassphraseEnv.reencrypted, hderived, hcipher, CCrypter.encrypt]
    | some vchCryptedKey =>
      simp [r, PassphraseEnv.reencrypted, hderived, hcipher, CCrypter.encrypt]

/-- **What the loop of `ChangeWalletPassphrase` does.** The record that the old passphrase opens is
the only one it changes. -/
theorem changeLoop_eq {strOldWalletPassphrase strNewWalletPassphrase : List UInt8}
    {nMeasured : ℕ × ℕ} {fWasLocked : Bool} (h : wallet.Settled) (crypter : CCrypter)
    (masterKeys : List (ℕ × CMasterKey)) :
    changeLoop env strOldWalletPassphrase strNewWalletPassphrase nMeasured fWasLocked crypter
        masterKeys wallet =
      match env.opened wallet.toCCryptoKeyStore strOldWalletPassphrase masterKeys with
      | none => (false, wallet)
      | some (id, kMasterKey, vMasterKey) =>
        let r := env.reencrypted strNewWalletPassphrase kMasterKey nMeasured vMasterKey
        let unlocked : CryptoWallet := { wallet with vMasterKey := vMasterKey }
        (r.1, if r.1 && fWasLocked then (unlocked.setMasterKey id r.2).lock
          else unlocked.setMasterKey id r.2) := by
  induction masterKeys generalizing crypter with
  | nil => rfl
  | cons entry masterKeys ih =>
    obtain ⟨id, kMasterKey⟩ := entry
    rw [changeLoop, PassphraseEnv.opened]
    cases hderived : env.derivedKey strOldWalletPassphrase kMasterKey with
    | none =>
      rw [PassphraseEnv.recovered_eq_none hderived]
      simp only [CCrypter.setKeyFromPassphrase_failed hderived, Bool.not_false, if_true]
    | some key =>
      obtain ⟨chKey, chIV⟩ := key
      simp only [CCrypter.setKeyFromPassphrase_eq hderived, CCrypter.decrypt, Bool.not_true,
        Bool.false_eq_true, if_false, PassphraseEnv.recovered_eq hderived]
      cases hplain : env.decrypt chKey chIV kMasterKey.vchCryptedKey with
      | none => rfl
      | some vMasterKey =>
        obtain ⟨hunlock, -⟩ | hunlock := h.unlock env.toKeyEnv vMasterKey
        · simp only [hunlock, if_true]
          exact reencrypt_eq _ _ _ _ _ _ _
        · simp only [hunlock, Bool.false_eq_true, if_false]
          exact ih _

theorem changeWalletPassphrase_eq (strOldWalletPassphrase strNewWalletPassphrase : List UInt8)
    (nMeasured : ℕ × ℕ) :
    wallet.changeWalletPassphrase env strOldWalletPassphrase strNewWalletPassphrase nMeasured =
      match env.opened wallet.toCCryptoKeyStore.lock.2 strOldWalletPassphrase wallet.masterKeys with
      | none => (false, wallet.lock)
      | some (id, kMasterKey, vMasterKey) =>
        let r := env.reencrypted strNewWalletPassphrase kMasterKey nMeasured vMasterKey
        let unlocked : CryptoWallet := { wallet.lock with vMasterKey := vMasterKey }
        (r.1, if r.1 && wallet.isLocked then (unlocked.setMasterKey id r.2).lock
          else unlocked.setMasterKey id r.2) :=
  changeLoop_eq (CCryptoKeyStore.settled_lock wallet.toCCryptoKeyStore) _ _

theorem mem_masterKeys {id : ℕ} {kMasterKey : CMasterKey} :
    (id, kMasterKey) ∈ wallet.masterKeys ↔ wallet.mapMasterKeys.lookup id = some kMasterKey := by
  rw [masterKeys, List.mem_filterMap]
  constructor
  · rintro ⟨id', -, h⟩
    obtain ⟨kMasterKey', hlookup, heq⟩ := Option.map_eq_some_iff.mp h
    obtain ⟨rfl, rfl⟩ := Prod.mk.inj heq
    exact hlookup
  · intro h
    refine ⟨id, mem_addressesInOrder.mpr ?_, by rw [h]; rfl⟩
    rw [Finmap.mem_keys, ← Finmap.lookup_isSome, h]
    rfl

/-- An opened record is one of the list, and the store it opens is encrypted. -/
theorem opened_spec {keystore : CCryptoKeyStore} (h : keystore.Settled) {strPassphrase : List UInt8}
    {masterKeys : List (ℕ × CMasterKey)} {id : ℕ} {kMasterKey : CMasterKey} {vMasterKey : List UInt8}
    (hopened : env.opened keystore strPassphrase masterKeys = some (id, kMasterKey, vMasterKey)) :
    (id, kMasterKey) ∈ masterKeys ∧ keystore.fUseCrypto = true := by
  induction masterKeys with
  | nil => cases hopened
  | cons entry masterKeys ih =>
    rw [PassphraseEnv.opened] at hopened
    split at hopened
    next => cases hopened
    next vMasterKey' _ =>
      obtain ⟨hunlock, hcrypto⟩ | hunlock := h.unlock env.toKeyEnv vMasterKey'
      · rw [if_pos (by rw [hunlock])] at hopened
        obtain ⟨rfl, hrest⟩ := Prod.mk.inj (Option.some.inj hopened)
        obtain ⟨rfl, -⟩ := Prod.mk.inj hrest
        exact ⟨List.mem_cons_self, hcrypto⟩
      · rw [if_neg (by rw [hunlock]; exact Bool.false_ne_true)] at hopened
        exact ⟨List.mem_cons_of_mem _ (ih hopened).1, (ih hopened).2⟩

/-- The wallet of a call that fails after it has opened a record. It is the wallet before the call
where that was open with the same master key and the record has not changed. -/
theorem setMasterKey_unlocked_eq_iff {id : ℕ} {kMasterKey kMasterKey' : CMasterKey}
    {vMasterKey : List UInt8} (hcrypto : wallet.lock.fUseCrypto = true)
    (hrecord : wallet.mapMasterKeys.lookup id = some kMasterKey) :
    ({ wallet.lock with vMasterKey := vMasterKey } : CryptoWallet).setMasterKey id kMasterKey' =
        wallet ↔
      wallet.fUseCrypto = true ∧ wallet.vMasterKey = vMasterKey ∧ kMasterKey' = kMasterKey := by
  constructor
  · intro h
    refine ⟨?_, (congrArg (fun w => w.vMasterKey) h).symm, ?_⟩
    · rw [← congrArg (fun w => w.fUseCrypto) h]
      exact hcrypto
    · have hmap : wallet.mapMasterKeys.insert id kMasterKey' = wallet.mapMasterKeys :=
        congrArg mapMasterKeys h
      rw [← hmap, Finmap.lookup_insert] at hrecord
      exact Option.some.inj hrecord
  · rintro ⟨hcrypto', rfl, rfl⟩
    obtain ⟨-, hlock⟩ | ⟨hplain, -⟩ | ⟨hplain, -⟩ := wallet.toCCryptoKeyStore.lock_cases
    · rw [setMasterKey, lock, hlock, insert_of_lookup hrecord]
    · rw [hplain] at hcrypto'
      cases hcrypto'
    · rw [hplain] at hcrypto'
      cases hcrypto'

theorem ite_ne_returned_false {c : Prop} [Decidable c] {x y : WalletOutcome × CryptoWallet}
    (hx : x.1 ≠ .returned false) (hy : y.1 ≠ .returned false) :
    (if c then x else y).1 ≠ .returned false := by
  split
  next => exact hx
  next => exact hy

/-- From `EncryptKeys` on a call returns `true` only. -/
theorem finishEncryption_ne (strWalletPassphrase : List UInt8) (call : EncryptCall Point) :
    (wallet.finishEncryption env strWalletPassphrase call).1 ≠ .returned false := by
  rw [finishEncryption]
  refine ite_ne_returned_false nofun (ite_ne_returned_false nofun (ite_ne_returned_false nofun ?_))
  exact ite_ne_returned_false nofun nofun

/-- The wallet of a call of `EncryptWallet` that fails in `TxnBegin`. -/
def begun (kMasterKey : CMasterKey) (pwalletdb : ℕ) (wallet : CryptoWallet) : CryptoWallet :=
  { wallet with
    nMasterKeyMaxID := (wallet.nMasterKeyMaxID + 1) % 2 ^ 32
    mapMasterKeys := wallet.mapMasterKeys.insert ((wallet.nMasterKeyMaxID + 1) % 2 ^ 32) kMasterKey
    pwalletdbEncryption := some pwalletdb }

theorem begun_ne (kMasterKey : CMasterKey) (pwalletdb : ℕ) : begun kMasterKey pwalletdb wallet ≠ wallet := by
  intro h
  have hid : (wallet.nMasterKeyMaxID + 1) % 2 ^ 32 = wallet.nMasterKeyMaxID :=
    congrArg nMasterKeyMaxID h
  omega

theorem addMasterKey_begun (strWalletPassphrase : List UInt8) (call : EncryptCall Point)
    (kMasterKey : CMasterKey) (h : wallet.fFileBacked = true ∧ call.fTxnBegin = false) :
    wallet.addMasterKey env strWalletPassphrase call kMasterKey =
      (.returned false, begun kMasterKey call.pwalletdb wallet) := by
  have hbegin : (!call.fTxnBegin) = true := by
    rw [h.2]
    rfl
  exact (if_pos h.1).trans (if_pos hbegin)

theorem addMasterKey_ne (strWalletPassphrase : List UInt8) (call : EncryptCall Point)
    (kMasterKey : CMasterKey) (h : ¬(wallet.fFileBacked = true ∧ call.fTxnBegin = false)) :
    (wallet.addMasterKey env strWalletPassphrase call kMasterKey).1 ≠ .returned false := by
  rw [addMasterKey]
  by_cases hbacked : wallet.fFileBacked = true
  · have hbegin : call.fTxnBegin = true := Bool.eq_true_of_not_eq_false fun hf => h ⟨hbacked, hf⟩
    simp only [hbacked, hbegin, Bool.not_true, Bool.false_eq_true, if_false, if_true]
    exact finishEncryption_ne _ _
  · simp only [hbacked, Bool.false_eq_true, if_false]
    exact finishEncryption_ne _ _

/-- The record of a new master key, before it is encrypted. -/
def newMasterKey (vchSalt : Vector UInt8 8) : CMasterKey := ⟨[], vchSalt.toList, 0, 25000, []⟩

/-- **How a call of `EncryptWallet` comes to its new record.** Where it does not, nothing has
changed. -/
theorem encryptWallet_eq (strWalletPassphrase : List UInt8) (call : EncryptCall Point) :
    let r := env.reencrypted strWalletPassphrase (newMasterKey call.vchSalt) call.nMeasured
      call.vMasterKey.toList
    wallet.encryptWallet env strWalletPassphrase call =
      if wallet.fUseCrypto = true ∨ r.1 = false then (.returned false, wallet)
      else wallet.addMasterKey env strWalletPassphrase call r.2 := by
  intro r
  obtain ⟨crypter, hmeasured⟩ := @CCrypter.setMeasuredKey_eq _ env CCrypter.new strWalletPassphrase
    (newMasterKey call.vchSalt) call.nMeasured
  by_cases hcrypto : wallet.fUseCrypto = true
  · rw [if_pos (.inl hcrypto), encryptWallet, if_pos hcrypto]
  rw [encryptWallet, if_neg hcrypto]
  rw [newMasterKey] at hmeasured
  simp only [hmeasured]
  cases hderived : env.derivedKey strWalletPassphrase
      { newMasterKey call.vchSalt with nDeriveIterations := max call.nMeasured.2 25000 } with
  | none =>
    have hr : r.1 = false := by
      simp only [r, PassphraseEnv.reencrypted, hderived]
    simp only [newMasterKey] at hderived
    rw [CCrypter.setKeyFromPassphrase_failed hderived,
      if_pos (show wallet.fUseCrypto = true ∨ r.1 = false from .inr hr)]
    rfl
  | some key =>
    obtain ⟨chKey, chIV⟩ := key
    have hset := hderived
    rw [newMasterKey] at hset
    simp only [CCrypter.setKeyFromPassphrase_eq hset, Bool.not_true, Bool.false_eq_true, if_false,
      CCrypter.encrypt]
    cases hcipher : env.encrypt chKey chIV call.vMasterKey.toList with
    | none =>
      have hr : r.1 = false := by
        simp only [r, PassphraseEnv.reencrypted, hderived, hcipher]
      rw [if_pos (show wallet.fUseCrypto = true ∨ r.1 = false from .inr hr)]
      rfl
    | some vchCryptedKey =>
      have hr : r = (true, { newMasterKey call.vchSalt with
          nDeriveIterations := max call.nMeasured.2 25000, vchCryptedKey := vchCryptedKey }) := by
        simp only [r, PassphraseEnv.reencrypted, hderived, hcipher]
      rw [hr, if_neg (not_or.mpr ⟨hcrypto, by simp⟩)]
      rfl

/-! ## Calls that fail -/

variable (wallet)

/-- A call of `EncryptWallet` does not end in `TxnBegin`. -/
def EncryptKeeps (env : PassphraseEnv Point) (strWalletPassphrase : List UInt8)
    (call : EncryptCall Point) : Prop :=
  wallet.fUseCrypto = true ∨
    (env.reencrypted strWalletPassphrase (newMasterKey call.vchSalt) call.nMeasured
      call.vMasterKey.toList).1 = false ∨
    wallet.fFileBacked = false ∨ call.fTxnBegin = true

/-- Where the old passphrase opens no record, `Lock` has nothing to change. Where it opens one, the
master key is encrypted anew, or the wallet was open with it and the record has not changed. -/
def ChangeKeeps (env : PassphraseEnv Point) (strOldWalletPassphrase strNewWalletPassphrase : List UInt8)
    (nMeasured : ℕ × ℕ) : Prop :=
  match env.opened wallet.toCCryptoKeyStore.lock.2 strOldWalletPassphrase wallet.masterKeys with
  | none => wallet.isLocked = true ∨ wallet.fUseCrypto = false ∧ wallet.mapKeys.keys ≠ ∅
  | some (_, kMasterKey, vMasterKey) =>
    let r := env.reencrypted strNewWalletPassphrase kMasterKey nMeasured vMasterKey
    r.1 = true ∨ wallet.fUseCrypto = true ∧ wallet.vMasterKey = vMasterKey ∧ r.2 = kMasterKey

variable {wallet}

theorem lock_eq_self_iff : wallet.lock = wallet ↔
    wallet.isLocked = true ∨ wallet.fUseCrypto = false ∧ wallet.mapKeys.keys ≠ ∅ := by
  rw [← CCryptoKeyStore.lock_eq_self_iff]
  constructor
  · exact congrArg toCCryptoKeyStore
  · intro h
    rw [lock, h]

/-- **A call that returns `false` leaves the wallet as it was, except where `EncryptWallet` fails in
`TxnBegin`, and where `ChangeWalletPassphrase` has locked or opened the key store or rewritten a
record.** -/
theorem unchanged_iff (env : PassphraseEnv Point) (wallet : CryptoWallet) :
    (∀ strWalletPassphrase call,
      ((wallet.encryptWallet env strWalletPassphrase call).1 = .returned false →
          (wallet.encryptWallet env strWalletPassphrase call).2 = wallet) ↔
        wallet.EncryptKeeps env strWalletPassphrase call) ∧
      ∀ strOldWalletPassphrase strNewWalletPassphrase nMeasured,
        ((wallet.changeWalletPassphrase env strOldWalletPassphrase strNewWalletPassphrase
            nMeasured).1 = false →
          (wallet.changeWalletPassphrase env strOldWalletPassphrase strNewWalletPassphrase
            nMeasured).2 = wallet) ↔
        wallet.ChangeKeeps env strOldWalletPassphrase strNewWalletPassphrase nMeasured := by
  refine ⟨fun strWalletPassphrase call => ?_, fun strOld strNew nMeasured => ?_⟩
  · rw [encryptWallet_eq, EncryptKeeps]
    split
    next hstop => exact ⟨fun _ => hstop.elim .inl fun hr => .inr (.inl hr), fun _ _ => rfl⟩
    next hstop =>
      obtain ⟨hcrypto, hr⟩ := not_or.mp hstop
      -- the only failure after the master key was added is that the transaction does not begin
      by_cases hbegin : wallet.fFileBacked = true ∧ call.fTxnBegin = false
      · rw [addMasterKey_begun _ _ _ hbegin]
        constructor
        · intro h
          exact absurd (h rfl) (begun_ne _ _)
        · rintro (h | h | h | h)
          · exact absurd h hcrypto
          · exact absurd h hr
          · rw [hbegin.1] at h
            cases h
          · rw [hbegin.2] at h
            cases h
      · refine ⟨fun _ => .inr (.inr ?_), fun _ h => absurd h (addMasterKey_ne _ _ _ hbegin)⟩
        rcases not_and_or.mp hbegin with h | h
        · exact .inl (Bool.eq_false_of_not_eq_true h)
        · exact .inr (Bool.eq_true_of_not_eq_false h)
  · rw [changeWalletPassphrase_eq, ChangeKeeps]
    have hsettled := CCryptoKeyStore.settled_lock wallet.toCCryptoKeyStore
    split
    next =>
      rw [← lock_eq_self_iff]
      exact ⟨fun h => h rfl, fun h _ => h⟩
    next id kMasterKey vMasterKey hopened =>
      obtain ⟨hmem, hcrypto⟩ := opened_spec hsettled hopened
      simp only
      cases hr : (env.reencrypted strNew kMasterKey nMeasured vMasterKey).1 with
      | true => exact ⟨fun _ => .inl rfl, fun _ h => by cases h⟩
      | false =>
        rw [Bool.false_and, if_neg Bool.false_ne_true,
          setMasterKey_unlocked_eq_iff hcrypto (mem_masterKeys.mp hmem)]
        exact ⟨fun h => .inr (h rfl), fun h _ => h.resolve_left Bool.false_ne_true⟩

/-! ## An unlocked wallet -/

/-- The environment of the example's key store. The passphrase `[1]` derives the key that the
example's record is encrypted under; what another key decrypts is not padded. -/
def examplePassphrases : PassphraseEnv Unit where
  toKeyEnv := { CCryptoKeyStore.exampleEnv with
    decrypt := fun chKey chIV vchCiphertext =>
      if chKey = List.replicate 32 2 then none
      else CCryptoKeyStore.exampleEnv.decrypt chKey chIV vchCiphertext }
  bytesToKey strPassphrase _ _ :=
    some (if strPassphrase = [1] then List.replicate 32 1 else List.replicate 32 2, 0)
  failedCiphertext _ _ vchPlaintext := List.replicate (vchPlaintext.length + 16) 0

/-- The example's record. -/
def exampleRecord : CMasterKey :=
  ⟨0 :: CCryptoKeyStore.exampleMasterKey, List.replicate 8 3, 0, 25000, []⟩

/-- A new wallet of the example's key. -/
def plainWallet : CryptoWallet :=
  ⟨⟨(∅ : StdMap ℕ _).insert 1 (generatorSecret.toList, true), ∅, [], false⟩, ∅, 0, none, 10500, 60000,
    true⟩

/-- The wallet after it has been encrypted under the passphrase `[1]`, and unlocked. -/
def openWallet : CryptoWallet :=
  ⟨⟨∅, (∅ : StdMap ℕ _).insert 1 (2 :: generatorX, CCryptoKeyStore.exampleCiphertext),
      CCryptoKeyStore.exampleMasterKey, true⟩, (∅ : StdMap ℕ _).insert 1 exampleRecord, 1, none, 60000,
    60000, true⟩

/-- A call whose transaction does not begin. -/
def exampleCall : EncryptCall Unit :=
  ⟨⟨⟨CCryptoKeyStore.exampleMasterKey⟩, by decide⟩, ⟨⟨List.replicate 8 3⟩, by decide⟩, (25000, 25000), 0,
    false, true, true, []⟩

theorem openWallet_masterKeys : openWallet.masterKeys = [(1, exampleRecord)] := by
  have hids : addressesInOrder openWallet.mapMasterKeys.keys = [1] := Finset.sort_singleton _ _
  rw [masterKeys, hids]
  rfl

/-- **A wrong passphrase locks an unlocked wallet, and a transaction that does not begin leaves the
record of a wallet that is not encrypted.** -/
theorem not_forall_unchanged :
    (¬∀ (wallet : CryptoWallet) strOldWalletPassphrase strNewWalletPassphrase nMeasured,
      (wallet.changeWalletPassphrase examplePassphrases strOldWalletPassphrase
          strNewWalletPassphrase nMeasured).1 = false →
        (wallet.changeWalletPassphrase examplePassphrases strOldWalletPassphrase
          strNewWalletPassphrase nMeasured).2.isLocked = wallet.isLocked) ∧
      ¬∀ (wallet : CryptoWallet) strWalletPassphrase call,
        (wallet.encryptWallet examplePassphrases strWalletPassphrase call).1 = .returned false →
          (wallet.encryptWallet examplePassphrases strWalletPassphrase call).2.nMasterKeyMaxID =
            wallet.nMasterKeyMaxID := by
  constructor
  · intro h
    have hlocked := h openWallet [7] [8] (25000, 25000)
    have hopened : examplePassphrases.opened openWallet.toCCryptoKeyStore.lock.2 [7]
        openWallet.masterKeys = none := by
      rw [openWallet_masterKeys]
      decide
    rw [changeWalletPassphrase_eq, hopened] at hlocked
    exact absurd (hlocked rfl) (by decide)
  · intro h
    have hid := h plainWallet [1] exampleCall
    revert hid
    decide

end CryptoWallet

end FoxCoin
