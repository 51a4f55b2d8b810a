import FoxCoin.WalletEncryption

/-! # Unlocking a wallet with several master keys

A passphrase is right for a record when it recovers a master key from it that opens the key store.
`Unlock` and `ChangeWalletPassphrase` try the records in the order of the map. They go on after a
master key that does not open the key store, and give up at a record from which the passphrase
recovers nothing. -/

namespace FoxCoin

variable {Point : Type} {env : PassphraseEnv Point}

/-- What the calls rely on for a new passphrase: a salt of eight bytes gives a key, and the cipher
encrypts. -/
structure PassphraseEnv.Derives (env : PassphraseEnv Point) (strPassphrase : List UInt8) : Prop where
  bytesToKey : ∀ vchSalt nRounds, vchSalt.length = 8 → 1 ≤ nRounds →
    (env.bytesToKey strPassphrase vchSalt nRounds).isSome
  encrypt : ∀ chKey chIV vchPlaintext, (env.encrypt chKey chIV vchPlaintext).isSome

/-- What a passphrase recovers from a record does not open the key store. -/
def PassphraseEnv.Rejected (env : PassphraseEnv Point) (keystore : CCryptoKeyStore)
    (strPassphrase : List UInt8) (kMasterKey : CMasterKey) : Prop :=
  ∃ vMasterKey, env.recovered strPassphrase kMasterKey = some vMasterKey ∧
    (keystore.unlock env.toKeyEnv vMasterKey).1 = false

/-- A passphrase recovers a master key from a record that opens the key store. -/
def PassphraseEnv.Accepted (env : PassphraseEnv Point) (keystore : CCryptoKeyStore)
    (strPassphrase : List UInt8) (kMasterKey : CMasterKey) (vMasterKey : List UInt8) : Prop :=
  env.recovered strPassphrase kMasterKey = some vMasterKey ∧
    (keystore.unlock env.toKeyEnv vMasterKey).1 = true

/-- **The record that is opened** is the first one of which all records before are rejected. -/
theorem PassphraseEnv.opened_eq_some_iff {keystore : CCryptoKeyStore} {strPassphrase : List UInt8}
    {masterKeys : List (ℕ × CMasterKey)} {id : ℕ} {kMasterKey : CMasterKey} {vMasterKey : List UInt8} :
    env.opened keystore strPassphrase masterKeys = some (id, kMasterKey, vMasterKey) ↔
      ∃ before after, masterKeys = before ++ (id, kMasterKey) :: after ∧
        (∀ entry ∈ before, env.Rejected keystore strPassphrase entry.2) ∧
        env.Accepted keystore strPassphrase kMasterKey vMasterKey := by
  induction masterKeys with
  | nil =>
    constructor
    · intro h
      cases h
    · rintro ⟨before, after, hsplit, -⟩
      simp at hsplit
  | cons entry masterKeys ih =>
    rw [opened]
    constructor
    · intro h
      split at h
      next => cases h
      next vMasterKey' hrecovered =>
        split at h
        next hunlock =>
          obtain ⟨rfl, hrest⟩ := Prod.mk.inj (Option.some.inj h)
          obtain ⟨rfl, rfl⟩ := Prod.mk.inj hrest
          exact ⟨[], masterKeys, rfl, by simp, hrecovered, hunlock⟩
        next hunlock =>
          -- this record is rejected like those before the one that is found
          obtain ⟨before, after, rfl, hbefore, haccepted⟩ := ih.mp h
          refine ⟨entry :: before, after, rfl, List.forall_mem_cons.mpr ⟨?_, hbefore⟩, haccepted⟩
          exact ⟨vMasterKey', hrecovered, Bool.eq_false_of_not_eq_true hunlock⟩
    · rintro ⟨before, after, hsplit, hbefore, haccepted⟩
      cases before with
      | nil =>
        obtain ⟨rfl, -⟩ := List.cons.inj hsplit
        simp only [haccepted.1, haccepted.2, if_true]
      | cons entry' before =>
        obtain ⟨rfl, rfl⟩ := List.cons.inj hsplit
        obtain ⟨⟨vMasterKey', hrecovered, hunlock⟩, hrest⟩ := List.forall_mem_cons.mp hbefore
        simp only [hrecovered, hunlock, Bool.false_eq_true, if_false]
        exact ih.mpr ⟨before, after, rfl, hrest, haccepted⟩

namespace CryptoWallet

variable {wallet : CryptoWallet} {strPassphrase strNewWalletPassphrase : List UInt8}

/-! ## The loop of `Unlock` -/

/-- What the loop of `Unlock` does. -/
theorem unlockLoop_eq (h : wallet.Settled) (crypter : CCrypter) (masterKeys : List (ℕ × CMasterKey)) :
    unlockLoop env strPassphrase crypter masterKeys wallet =
      match env.opened wallet.toCCryptoKeyStore strPassphrase masterKeys with
      | none => (false, wallet)
      | some (_, _, vMasterKey) => (true, { wallet with vMasterKey := vMasterKey }) := by
  induction masterKeys generalizing crypter with
  | nil => rfl
  | cons entry masterKeys ih =>
    obtain ⟨id, kMasterKey⟩ := entry
    rw [unlockLoop, PassphraseEnv.opened]
    cases hderived : env.derivedKey strPassphrase kMasterKey with
    | none =>
      rw [PassphraseEnv.recovered_eq_none hderived]
      simp only [CCrypter.setKeyFromPassphrase_failed hderived, Bool.not_false, if_true]
    | some key =>
      obtain ⟨chKey, chIV⟩ := key
      simp only [CCrypter.setKeyFromPassphrase_eq hderived, CCrypter.decrypt, Bool.not_true,
        Bool.false_eq_true, if_false, PassphraseEnv.recovered_eq hderived]
      cases hplain : env.decrypt chKey chIV kMasterKey.vchCryptedKey with
      | none => rfl
      | some vMasterKey =>
        -- a master key that does not open the key store leaves it alone
        obtain ⟨hunlock, -⟩ | hunlock := h.unlock env.toKeyEnv vMasterKey
        · simp only [hunlock, if_true]
        · simp only [hunlock, Bool.false_eq_true, if_false]
          exact ih _

/-- `Unlock` tries the records of a locked wallet. -/
theorem unlock_eq_unlockLoop (h : wallet.isLocked = true) : wallet.unlock env strPassphrase =
    unlockLoop env strPassphrase CCrypter.new wallet.masterKeys wallet := by
  have hlocked : (!wallet.isLocked) = false := by
    rw [h]
    rfl
  rw [unlock, hlocked, if_neg Bool.false_ne_true]

theorem settled_of_isLocked (h : wallet.isLocked = true) : wallet.Settled :=
  .inl (Bool.and_eq_true_iff.mp h).1

theorem unlock_of_opened (h : wallet.isLocked = true) {id : ℕ} {kMasterKey : CMasterKey}
    {vMasterKey : List UInt8}
    (hopened : env.opened wallet.toCCryptoKeyStore strPassphrase wallet.masterKeys =
      some (id, kMasterKey, vMasterKey)) :
    wallet.unlock env strPassphrase = (true, { wallet with vMasterKey := vMasterKey }) := by
  rw [unlock_eq_unlockLoop h, unlockLoop_eq (settled_of_isLocked h), hopened]

theorem unlock_of_not_opened (h : wallet.isLocked = true)
    (hopened : env.opened wallet.toCCryptoKeyStore strPassphrase wallet.masterKeys = none) :
    wallet.unlock env strPassphrase = (false, wallet) := by
  rw [unlock_eq_unlockLoop h, unlockLoop_eq (settled_of_isLocked h), hopened]

/-- `ChangeWalletPassphrase` succeeds where it opens a record and the record is encrypted anew. -/
theorem changeWalletPassphrase_of_opened {nMeasured : ℕ × ℕ} {id : ℕ} {kMasterKey : CMasterKey}
    {vMasterKey : List UInt8}
    (hopened : env.opened wallet.lock.toCCryptoKeyStore strPassphrase wallet.masterKeys =
      some (id, kMasterKey, vMasterKey)) :
    (wallet.changeWalletPassphrase env strPassphrase strNewWalletPassphrase nMeasured).1 =
      (env.reencrypted strNewWalletPassphrase kMasterKey nMeasured vMasterKey).1 := by
  rw [lock] at hopened
  rw [changeWalletPassphrase_eq, hopened]

/-! ## The right record -/

variable (wallet) in
/-- A passphrase is right for a record: it recovers the master key that opens the key store. -/
def Right (env : PassphraseEnv Point) (strPassphrase : List UInt8) (kMasterKey : CMasterKey) : Prop :=
  ∃ vMasterKey, vMasterKey ≠ [] ∧
    env.Accepted wallet.lock.toCCryptoKeyStore strPassphrase kMasterKey vMasterKey

variable (wallet) in
/-- Every record before some right one is tried and rejected: the passphrase derives a key from it
and the key decrypts it. -/
def RightReached (env : PassphraseEnv Point) (strPassphrase : List UInt8) : Prop :=
  ∃ before entry after, wallet.masterKeys = before ++ entry :: after ∧
    wallet.Right env strPassphrase entry.2 ∧
    ∀ entry' ∈ before, env.Rejected wallet.lock.toCCryptoKeyStore strPassphrase entry'.2

theorem rightReached_iff : wallet.RightReached env strPassphrase ↔
    ∃ id kMasterKey vMasterKey, vMasterKey ≠ [] ∧
      env.opened wallet.lock.toCCryptoKeyStore strPassphrase wallet.masterKeys =
        some (id, kMasterKey, vMasterKey) := by
  constructor
  · rintro ⟨before, ⟨id, kMasterKey⟩, after, hsplit, ⟨vMasterKey, hne, haccepted⟩, hbefore⟩
    exact ⟨id, kMasterKey, vMasterKey, hne,
      PassphraseEnv.opened_eq_some_iff.mpr ⟨before, after, hsplit, hbefore, haccepted⟩⟩
  · rintro ⟨id, kMasterKey, vMasterKey, hne, hopened⟩
    obtain ⟨before, after, hsplit, hbefore, haccepted⟩ := PassphraseEnv.opened_eq_some_iff.mp hopened
    exact ⟨before, (id, kMasterKey), after, hsplit, ⟨vMasterKey, hne, haccepted⟩, hbefore⟩

/-- A key store that some master key opens holds encrypted keys, and is locked after `Lock`. -/
theorem Right.isLocked {kMasterKey : CMasterKey} (h : wallet.Right env strPassphrase kMasterKey) :
    wallet.lock.isLocked = true := by
  obtain ⟨vMasterKey, -, -, hunlock⟩ := h
  have hsettled : wallet.lock.Settled := CCryptoKeyStore.settled_lock wallet.toCCryptoKeyStore
  have hcrypto : wallet.lock.fUseCrypto = true := by
    obtain ⟨-, hcrypto⟩ | hfail := hsettled.unlock env.toKeyEnv vMasterKey
    · exact hcrypto
    · rw [hfail] at hunlock
      cases hunlock
  -- a plain key store would still be plain
  obtain ⟨-, hlock⟩ | ⟨hplain, -, hlock⟩ | ⟨-, -, hlock⟩ := wallet.toCCryptoKeyStore.lock_cases
  · rw [CCryptoKeyStore.isLocked, hcrypto, lock, hlock]
    rfl
  · rw [lock, hlock, hplain] at hcrypto
    cases hcrypto
  · rw [CCryptoKeyStore.isLocked, hcrypto, lock, hlock]
    rfl

/-- A record that a passphrase recovers a master key from is encrypted anew for another one. -/
theorem reencrypted_eq_true {strPassphrase : List UInt8} {kMasterKey : CMasterKey}
    {vMasterKey : List UInt8} (hnew : env.Derives strNewWalletPassphrase)
    (h : env.recovered strPassphrase kMasterKey = some vMasterKey) (nMeasured : ℕ × ℕ) :
    (env.reencrypted strNewWalletPassphrase kMasterKey nMeasured vMasterKey).1 = true := by
  -- the new key is derived with the salt and the method of the record, which have worked before
  obtain ⟨key, hderived, -⟩ := Option.bind_eq_some_iff.mp h
  rw [PassphraseEnv.derivedKey] at hderived
  split at hderived
  next => cases hderived
  next hrounds =>
    obtain ⟨hone, hsalt⟩ := not_or.mp hrounds
    split at hderived
    next hmethod =>
      obtain ⟨newKey, hnewKey⟩ := Option.isSome_iff_exists.mp (hnew.bytesToKey kMasterKey.vchSalt
        (max nMeasured.2 25000) (not_not.mp hsalt) (by omega))
      obtain ⟨vchCryptedKey, hencrypt⟩ := Option.isSome_iff_exists.mp
        (hnew.encrypt newKey.1 newKey.2 vMasterKey)
      have hnewDerived : env.derivedKey strNewWalletPassphrase
          { kMasterKey with nDeriveIterations := max nMeasured.2 25000 } = some newKey := by
        rw [PassphraseEnv.derivedKey, if_neg (by simp [not_not.mp hsalt]), if_pos hmethod, hnewKey]
      rw [PassphraseEnv.reencrypted]
      simp only [hnewDerived, hencrypt]
    next => cases hderived

/-- **With a right passphrase, a locked wallet is unlocked and the passphrase is changed exactly when
no record before the right one stops the search.** A wallet that is not locked is locked first. -/
theorem unlock_and_change_iff (hnew : env.Derives strNewWalletPassphrase) (nMeasured : ℕ × ℕ)
    (hright : ∃ entry ∈ wallet.masterKeys, wallet.Right env strPassphrase entry.2) :
    ((wallet.lock.unlock env strPassphrase).1 = true ∧
        (wallet.lock.unlock env strPassphrase).2.isLocked = false ∧
        (wallet.changeWalletPassphrase env strPassphrase strNewWalletPassphrase nMeasured).1 = true) ↔
      wallet.RightReached env strPassphrase := by
  obtain ⟨entry, -, hentry⟩ := hright
  have hlocked := hentry.isLocked
  have hcrypto : wallet.lock.fUseCrypto = true := (Bool.and_eq_true_iff.mp hlocked).1
  rw [rightReached_iff]
  cases hopened : env.opened wallet.lock.toCCryptoKeyStore strPassphrase wallet.masterKeys with
  | none =>
    rw [unlock_of_not_opened hlocked hopened]
    simp
  | some opened =>
    obtain ⟨id, kMasterKey, vMasterKey⟩ := opened
    obtain ⟨-, -, -, -, hrecovered, -⟩ := PassphraseEnv.opened_eq_some_iff.mp hopened
    have hunlocked : ({ wallet.lock with vMasterKey := vMasterKey } : CryptoWallet).isLocked = false ↔
        vMasterKey ≠ [] := by
      rw [CCryptoKeyStore.isLocked, hcrypto, Bool.true_and, Bool.eq_false_iff, ne_eq,
        List.isEmpty_iff]
    rw [unlock_of_opened hlocked hopened, changeWalletPassphrase_of_opened hopened,
      reencrypted_eq_true hnew hrecovered, hunlocked]
    constructor
    · rintro ⟨-, hne, -⟩
      exact ⟨id, kMasterKey, vMasterKey, hne, rfl⟩
    · rintro ⟨id', kMasterKey', vMasterKey', hne, heq⟩
      obtain ⟨-, hrest⟩ := Prod.mk.inj (Option.some.inj heq)
      obtain ⟨-, rfl⟩ := Prod.mk.inj hrest
      exact ⟨rfl, hne, rfl⟩

/-! ## A wallet with two passphrases -/

/-- The environment of the example in which a passphrase derives the right key only with the salt of
its own record. -/
def twoPassphrases : PassphraseEnv Unit :=
  { examplePassphrases with
    bytesToKey := fun strPassphrase vchSalt _ =>
      some (if strPassphrase ++ vchSalt = 1 :: List.replicate 8 3 then List.replicate 32 1
        else List.replicate 32 2, 0) }

/-- The example's locked wallet with a record for another passphrase before the one of `[1]`. -/
def twoRecords : CryptoWallet :=
  { openWallet with
    vMasterKey := []
    mapMasterKeys := ((∅ : StdMap ℕ _).insert 2 exampleRecord).insert 1
      { exampleRecord with vchSalt := List.replicate 8 4 }
    nMasterKeyMaxID := 2 }

theorem twoRecords_masterKeys : twoRecords.masterKeys =
    [(1, { exampleRecord with vchSalt := List.replicate 8 4 }), (2, exampleRecord)] := by
  have hkeys : twoRecords.mapMasterKeys.keys = insert 1 {2} := by
    decide
  rw [masterKeys, addressesInOrder, hkeys, Finset.sort_insert _ (by decide) (by decide),
    Finset.sort_singleton]
  rfl

theorem twoPassphrases_derives (strPassphrase : List UInt8) : twoPassphrases.Derives strPassphrase :=
  ⟨fun _ _ _ _ => rfl, fun _ _ _ => rfl⟩

/-- The locked key store of the example opens with the example's master key. -/
theorem unlock_twoRecords : (twoRecords.lock.toCCryptoKeyStore.unlock twoPassphrases.toKeyEnv
    CCryptoKeyStore.exampleMasterKey).1 = true := by
  have hids : addressesInOrder twoRecords.lock.toCCryptoKeyStore.mapCryptedKeys.keys = [1] :=
    Finset.sort_singleton _ _
  have hfirst : twoRecords.lock.toCCryptoKeyStore.firstEntry =
      some (2 :: generatorX, CCryptoKeyStore.exampleCiphertext) := by
    rw [CCryptoKeyStore.firstEntry, hids]
    rfl
  have hcrypted : twoRecords.lock.toCCryptoKeyStore.setCrypted =
      (true, twoRecords.lock.toCCryptoKeyStore) := rfl
  rw [CCryptoKeyStore.unlock, hcrypted]
  simp only [hfirst]
  decide +kernel

/-- The passphrase `[1]` is right for its record. -/
theorem right_twoRecords : twoRecords.Right twoPassphrases [1] exampleRecord :=
  ⟨CCryptoKeyStore.exampleMasterKey, by decide, by decide +kernel, unlock_twoRecords⟩

/-- **The right passphrase is refused** where the record of another passphrase comes first. -/
theorem not_forall_unlock :
    ¬∀ (wallet : CryptoWallet) strPassphrase strNewWalletPassphrase nMeasured,
      wallet.isLocked = true →
      (∃ entry ∈ wallet.masterKeys, wallet.Right twoPassphrases strPassphrase entry.2) →
        (wallet.unlock twoPassphrases strPassphrase).1 = true ∧
        (wallet.unlock twoPassphrases strPassphrase).2.isLocked = false ∧
        (wallet.changeWalletPassphrase twoPassphrases strPassphrase strNewWalletPassphrase
          nMeasured).1 = true := by
  intro h
  have hunlock := (h twoRecords [1] [5] (25000, 25000) rfl
    ⟨(2, exampleRecord), by rw [twoRecords_masterKeys]; simp, right_twoRecords⟩).1
  -- the wrong key does not decrypt the first record, and the second one is not tried
  have hopened : twoPassphrases.opened twoRecords.toCCryptoKeyStore [1] twoRecords.masterKeys =
      none := by
    rw [twoRecords_masterKeys]
    decide +kernel
  rw [unlock_of_not_opened rfl hopened] at hunlock
  cases hunlock

/-- The same wallet without the other record. -/
def oneRecord : CryptoWallet :=
  { twoRecords with mapMasterKeys := (∅ : StdMap ℕ _).insert 2 exampleRecord }

theorem oneRecord_masterKeys : oneRecord.masterKeys = [(2, exampleRecord)] := by
  have hids : addressesInOrder oneRecord.mapMasterKeys.keys = [2] := Finset.sort_singleton _ _
  rw [masterKeys, hids]
  rfl

theorem right_oneRecord : oneRecord.Right twoPassphrases [1] exampleRecord := right_twoRecords

/-- Its right passphrase unlocks it, and is changed. -/
theorem unlock_and_change_oneRecord :
    (oneRecord.lock.unlock twoPassphrases [1]).1 = true ∧
      (oneRecord.lock.unlock twoPassphrases [1]).2.isLocked = false ∧
      (oneRecord.changeWalletPassphrase twoPassphrases [1] [5] (25000, 25000)).1 = true :=
  (unlock_and_change_iff (twoPassphrases_derives [5]) (25000, 25000)
    ⟨(2, exampleRecord), by rw [oneRecord_masterKeys]; simp, right_oneRecord⟩).mpr
    ⟨[], (2, exampleRecord), [], oneRecord_masterKeys, right_oneRecord, by simp⟩

end CryptoWallet

end FoxCoin
