import FoxCoin.Base58
import FoxCoin.CryptoKeyStore

/-! # Addresses and secret keys as text

`CBase58Data` is a version byte and data behind it. The version of a secret key is that of the
addresses of its net and 128, which for the main net does not fit into the byte: there no text is a
secret key, and what `dumpprivkey` writes cannot be imported. -/

namespace FoxCoin

open Base58 Wire

/-! ## Versions and data -/

/-- `CBase58Data`. -/
structure CBase58Data where
  nVersion : UInt8
  vchData : List UInt8
  deriving DecidableEq

variable (Hash : List UInt8 → Vector UInt8 32)

namespace CBase58Data

/-- `SetData`. The version is cut to a byte. -/
def setData (nVersionIn : ℕ) (pdata : List UInt8) : CBase58Data := ⟨UInt8.ofNat nVersionIn, pdata⟩

/-- `SetString`: whether it succeeds, and the object after it. -/
def setString (str : StdString) : Bool × CBase58Data :=
  match (decodeBase58Check Hash str).getD [] with
  | [] => (false, ⟨0, []⟩)
  | nVersion :: vchData => (true, ⟨nVersion, vchData⟩)

/-- `ToString`. -/
def toString (b58 : CBase58Data) : StdString :=
  Base58.encodeBase58Check Hash (b58.nVersion :: b58.vchData)

/-- **What was written is read back.** -/
theorem setString_toString (b58 : CBase58Data) :
    setString Hash (b58.toString Hash) = (true, b58) := by
  rw [setString, toString, decodeBase58Check_encodeBase58Check, Option.getD_some]

end CBase58Data

/-! ## Addresses -/

namespace CFoxcoinAddress

/-- `PUBKEY_ADDRESS`. -/
def pubkeyAddress : ℕ := 136
/-- `SCRIPT_ADDRESS`. -/
def scriptAddress : ℕ := 5
/-- `PUBKEY_ADDRESS_TEST`. -/
def pubkeyAddressTest : ℕ := 111
/-- `SCRIPT_ADDRESS_TEST`. -/
def scriptAddressTest : ℕ := 196

/-- `Set` for a `CKeyID`, as its bytes lie in memory. -/
def setKeyID (fTestNet : Bool) (id : ℕ) : CBase58Data :=
  .setData (if fTestNet then pubkeyAddressTest else pubkeyAddress) (leBytes 20 id)

/-- `IsValid`. -/
def isValid (fTestNet : Bool) (b58 : CBase58Data) : Bool :=
  let nExpectedSize := 20
  let nVersion := b58.nVersion.toNat
  if nVersion = pubkeyAddress ∨ nVersion = scriptAddress then
    false == fTestNet && b58.vchData.length == nExpectedSize
  else if nVersion = pubkeyAddressTest ∨ nVersion = scriptAddressTest then
    true == fTestNet && b58.vchData.length == nExpectedSize
  else false

/-- `GetKeyID`. -/
def getKeyID (fTestNet : Bool) (b58 : CBase58Data) : Option ℕ :=
  let nVersion := b58.nVersion.toNat
  if !isValid fTestNet b58 then none
  else if nVersion = pubkeyAddress ∨ nVersion = pubkeyAddressTest then
    some (readLE (b58.vchData.take 20))
  else none

/-- The address of a key refers to it. -/
theorem getKeyID_setKeyID (fTestNet : Bool) {id : ℕ} (h : id < 256 ^ 20) :
    getKeyID fTestNet (setKeyID fTestNet id) = some id := by
  have hread : readLE ((leBytes 20 id).take 20) = id := by
    rw [List.take_of_length_le (by simp), readLE_leBytes, Nat.mod_eq_of_lt h]
  have hvalid : isValid fTestNet (setKeyID fTestNet id) = true := by
    cases fTestNet <;>
      simp [isValid, setKeyID, CBase58Data.setData, pubkeyAddress, pubkeyAddressTest, scriptAddress]
  rw [getKeyID, hvalid]
  cases fTestNet <;>
    simpa [setKeyID, CBase58Data.setData, pubkeyAddress, pubkeyAddressTest] using hread

end CFoxcoinAddress

/-! ## Secret keys -/

namespace CFoxcoinSecret

/-- `PRIVKEY_ADDRESS`. -/
def privkeyAddress : ℕ := CFoxcoinAddress.pubkeyAddress + 128
/-- `PRIVKEY_ADDRESS_TEST`. -/
def privkeyAddressTest : ℕ := CFoxcoinAddress.pubkeyAddressTest + 128

/-- `SetSecret`. It asserts that the secret has 32 bytes. -/
def setSecret (fTestNet : Bool) (vchSecret : CSecret) (fCompressed : Bool) : Option CBase58Data :=
  if vchSecret.length = 32 then
    let b58 := CBase58Data.setData (if fTestNet then privkeyAddressTest else privkeyAddress) vchSecret
    some (if fCompressed then { b58 with vchData := b58.vchData ++ [1] } else b58)
  else none

/-- `GetSecret`: the secret, and `fCompressedOut`. -/
def getSecret (b58 : CBase58Data) : CSecret × Bool :=
  (b58.vchData.take 32, b58.vchData.length == 33)

/-- `IsValid`. -/
def isValid (fTestNet : Bool) (b58 : CBase58Data) : Bool :=
  let nVersion := b58.nVersion.toNat
  let fSize := b58.vchData.length == 32 ||
    (b58.vchData.length == 33 && b58.vchData.getD 32 0 == 1)
  if nVersion = privkeyAddress then false == fTestNet && fSize
  else if nVersion = privkeyAddressTest then true == fTestNet && fSize
  else false

/-- `SetString`: whether it succeeds, and the object after it. -/
def setString (fTestNet : Bool) (strSecret : StdString) : Bool × CBase58Data :=
  let (fRead, b58) := CBase58Data.setString Hash strSecret
  (fRead && isValid fTestNet b58, b58)

end CFoxcoinSecret

/-! ## The commands -/

variable {Point : Type} (env : KeyEnv Point) (fTestNet : Bool)

/-- How a command ends without a result. -/
inductive KeyCommandError where
  | jsonRpcError (code : ℤ) (message : String)
  /-- `key_error`. -/
  | keyError
  /-- A failed assertion. -/
  | abort
  deriving DecidableEq

/-- `CKeyStore::GetSecret`. -/
def CCryptoKeyStore.getSecret (keystore : CCryptoKeyStore) (address : ℕ) : Option (CSecret × Bool) :=
  let (fFound, key) := keystore.getKey env address CKey.reset
  if !fFound then none else key.getSecret

/-- `dumpprivkey`. -/
def dumpprivkey (keystore : CCryptoKeyStore) (strAddress : StdString) : Except KeyCommandError StdString :=
  let (fRead, address) := CBase58Data.setString Hash strAddress
  if !fRead then .error (.jsonRpcError (-5) "Invalid FoxCoin address")
  else
    match CFoxcoinAddress.getKeyID fTestNet address with
    | none => .error (.jsonRpcError (-3) "Address does not refer to a key")
    | some keyID =>
      match keystore.getSecret env keyID with
      | none => .error (.jsonRpcError (-4) ("Private key for address " ++
          String.ofList (strAddress.map fun c => Char.ofNat c.toNat) ++ " is not known"))
      | some (vchSecret, fCompressed) =>
        match CFoxcoinSecret.setSecret fTestNet vchSecret fCompressed with
        | none => .error .abort
        | some b58 => .ok (b58.toString Hash)

/-- `importprivkey`: the key store after it. -/
def importprivkey (keystore : CCryptoKeyStore) (strSecret : StdString) :
    Except KeyCommandError CCryptoKeyStore :=
  let (fGood, b58) := CFoxcoinSecret.setString Hash fTestNet strSecret
  if !fGood then .error (.jsonRpcError (-5) "Invalid private key")
  else
    let (secret, fCompressed) := CFoxcoinSecret.getSecret b58
    let (fSet, key) := (CKey.reset : CKey Point).setSecret env.ops secret fCompressed
    if !fSet then .error .keyError
    else
      let (fAdded, keystore) := keystore.addKey env key
      if !fAdded then .error (.jsonRpcError (-4) "Error adding key to FoxHole") else .ok keystore

/-! ## What is read back -/

variable {Hash env fTestNet}

/-- The text of a secret key is parsed back to it. -/
def ParsesBack (Hash : List UInt8 → Vector UInt8 32) (fTestNet : Bool) (vchSecret : CSecret)
    (fCompressed : Bool) : Prop :=
  ∃ b58 b58', CFoxcoinSecret.setSecret fTestNet vchSecret fCompressed = some b58 ∧
    CFoxcoinSecret.setString Hash fTestNet (b58.toString Hash) = (true, b58') ∧
    CFoxcoinSecret.isValid fTestNet b58' = true ∧
    CFoxcoinSecret.getSecret b58' = (vchSecret, fCompressed)

/-- The data of a secret key: the secret, and a one for the compressed form. -/
def secretData (vchSecret : CSecret) (fCompressed : Bool) : List UInt8 :=
  if fCompressed then vchSecret ++ [1] else vchSecret

theorem setSecret_eq_some {vchSecret : CSecret} (h : vchSecret.length = 32) (fCompressed : Bool) :
    CFoxcoinSecret.setSecret fTestNet vchSecret fCompressed =
      some ⟨if fTestNet then 239 else 8, secretData vchSecret fCompressed⟩ := by
  rw [CFoxcoinSecret.setSecret, if_pos h]
  cases fTestNet <;> cases fCompressed <;> rfl

theorem getSecret_secretData {vchSecret : CSecret} (h : vchSecret.length = 32) (fCompressed : Bool)
    (nVersion : UInt8) :
    CFoxcoinSecret.getSecret ⟨nVersion, secretData vchSecret fCompressed⟩ =
      (vchSecret, fCompressed) := by
  cases fCompressed with
  | false => simp [CFoxcoinSecret.getSecret, secretData, h, List.take_of_length_le]
  | true => simp [CFoxcoinSecret.getSecret, secretData, h]

/-- **No version byte is that of a secret key of the main net**, which does not fit into a byte. -/
theorem isValid_mainNet (b58 : CBase58Data) : CFoxcoinSecret.isValid false b58 = false := by
  have hlt := b58.nVersion.toNat_lt
  have hversion : b58.nVersion.toNat ≠ CFoxcoinSecret.privkeyAddress := by
    unfold CFoxcoinSecret.privkeyAddress CFoxcoinAddress.pubkeyAddress
    omega
  simp [CFoxcoinSecret.isValid, hversion]

/-- A secret key of the test net is valid. -/
theorem isValid_testNet {vchSecret : CSecret} (h : vchSecret.length = 32) (fCompressed : Bool) :
    CFoxcoinSecret.isValid true ⟨239, secretData vchSecret fCompressed⟩ = true := by
  have hversion : (239 : UInt8).toNat = CFoxcoinSecret.privkeyAddressTest := by decide
  have hne : CFoxcoinSecret.privkeyAddressTest ≠ CFoxcoinSecret.privkeyAddress := by decide
  unfold CFoxcoinSecret.isValid
  dsimp only
  rw [hversion, if_neg hne, if_pos rfl]
  cases fCompressed with
  | false => simp [secretData, h]
  | true => simp [secretData, h, List.getD_eq_getElem?_getD]

/-- **A secret key is parsed back exactly on the test net.** -/
theorem parsesBack_iff {vchSecret : CSecret} (h : vchSecret.length = 32) (fCompressed : Bool) :
    ParsesBack Hash fTestNet vchSecret fCompressed ↔ fTestNet = true := by
  constructor
  · rintro ⟨b58, b58', -, -, hvalid, -⟩
    cases fTestNet with
    | true => rfl
    | false =>
      rw [isValid_mainNet] at hvalid
      cases hvalid
  · rintro rfl
    refine ⟨_, _, setSecret_eq_some h fCompressed, ?_, isValid_testNet h fCompressed,
      getSecret_secretData h fCompressed 239⟩
    rw [CFoxcoinSecret.setString, CBase58Data.setString_toString]
    simp [isValid_testNet h fCompressed]

/-- **No text is both an address and a secret key**: their data differ in length. -/
theorem not_isValid_both (b58 : CBase58Data) :
    ¬(CFoxcoinAddress.isValid fTestNet b58 = true ∧ CFoxcoinSecret.isValid fTestNet b58 = true) := by
  rintro ⟨haddress, hsecret⟩
  have hlen : b58.vchData.length = 20 := by
    unfold CFoxcoinAddress.isValid at haddress
    dsimp only at haddress
    split_ifs at haddress <;> simp_all
  unfold CFoxcoinSecret.isValid at hsecret
  simp [hlen] at hsecret

/-! ## Dumping and importing -/

/-- `dumpprivkey` writes the key of an address. -/
def Dumps (Hash : List UInt8 → Vector UInt8 32) (env : KeyEnv Point) (fTestNet : Bool)
    (keystore : CCryptoKeyStore) (strAddress : StdString) (key : CKey Point)
    (strSecret : StdString) : Prop :=
  dumpprivkey Hash env fTestNet keystore strAddress = .ok strSecret ∧
    ∃ keyID, CFoxcoinAddress.getKeyID fTestNet (CBase58Data.setString Hash strAddress).2 =
      some keyID ∧ keystore.getKey env keyID CKey.reset = (true, key)

/-- `importprivkey` leaves a store that has the key under the id of its public key. -/
def Restores (Hash : List UInt8 → Vector UInt8 32) (env : KeyEnv Point) (fTestNet : Bool)
    (keystore : CCryptoKeyStore) (key : CKey Point) (strSecret : StdString) : Prop :=
  ∃ keystore' vchPubKey, importprivkey Hash env fTestNet keystore strSecret = .ok keystore' ∧
    key.getPubKey env.ops = some vchPubKey ∧
    keystore'.getKey env (env.getID vchPubKey) CKey.reset = (true, key)

/-- A store that a key can be added to: it is plain, or it is unlocked, and the cipher reads what it
wrote and the public key is a proper one. -/
def TakesKey (env : KeyEnv Point) (keystore : CCryptoKeyStore) (key : CKey Point) : Prop :=
  keystore.fUseCrypto = false ∨ keystore.isLocked = false ∧ env.ops.Lawful ∧
    (∀ s iv, (env.encryptSecret keystore.vMasterKey s iv).isSome) ∧
    (∀ k iv s c, env.encrypt k iv s = some c → env.decrypt k iv c = some s) ∧
    ∀ vchPubKey, key.getPubKey env.ops = some vchPubKey →
      vchPubKey.length = 33 ∨ vchPubKey.length = 65

/-- A key that a store gives is that of its secret. -/
theorem getKey_spec {keystore : CCryptoKeyStore} {keyID : ℕ} {key : CKey Point}
    (h : keystore.getKey env keyID CKey.reset = (true, key)) :
    ∃ vchSecret fCompressed, vchSecret.length = 32 ∧
      key.getSecret = some (vchSecret, fCompressed) ∧
      (CKey.reset : CKey Point).setSecret env.ops vchSecret fCompressed = (true, key) := by
  have hset : ∃ (key₀ : CKey Point) (vchSecret : CSecret) (fCompressed : Bool),
      key₀.setSecret env.ops vchSecret fCompressed = (true, key) := by
    rw [CCryptoKeyStore.getKey] at h
    split at h
    next =>
      cases hlookup : keystore.mapKeys.lookup keyID with
      | none => simp [hlookup] at h
      | some e =>
        simp only [hlookup] at h
        exact ⟨_, _, _, h⟩
    next =>
      cases hlookup : keystore.mapCryptedKeys.lookup keyID with
      | none => simp [hlookup] at h
      | some e =>
        simp only [hlookup] at h
        split at h
        next => cases h
        next =>
          split at h
          next => cases h
          next => exact ⟨_, _, _, h⟩
  obtain ⟨key₀, vchSecret, fCompressed, hset⟩ := hset
  have hlen : vchSecret.length = 32 := by
    by_contra hne
    rw [CKey.setSecret, dif_neg hne] at hset
    cases hset
  rw [CKey.setSecret_eq _ hlen] at hset
  obtain rfl := (Prod.mk.inj hset).2
  refine ⟨vchSecret, fCompressed || key₀.fCompressedPubKey, hlen, rfl, ?_⟩
  rw [CKey.setSecret_eq _ hlen]
  simp [CKey.reset]

/-- What is dumped is the text of the key's secret. -/
theorem Dumps.spec {keystore : CCryptoKeyStore} {strAddress strSecret : StdString}
    {key : CKey Point} (h : Dumps Hash env fTestNet keystore strAddress key strSecret) :
    ∃ vchSecret fCompressed b58, vchSecret.length = 32 ∧
      key.getSecret = some (vchSecret, fCompressed) ∧
      (CKey.reset : CKey Point).setSecret env.ops vchSecret fCompressed = (true, key) ∧
      CFoxcoinSecret.setSecret fTestNet vchSecret fCompressed = some b58 ∧
      strSecret = b58.toString Hash := by
  obtain ⟨hdump, keyID, hid, hkey⟩ := h
  obtain ⟨vchSecret, fCompressed, hlen, hsecret, hset⟩ := getKey_spec hkey
  have hget : keystore.getSecret env keyID = some (vchSecret, fCompressed) := by
    rw [CCryptoKeyStore.getSecret, hkey]
    exact hsecret
  have htext : CFoxcoinSecret.setSecret fTestNet vchSecret fCompressed = some _ :=
    setSecret_eq_some hlen fCompressed
  refine ⟨vchSecret, fCompressed, _, hlen, hsecret, hset, htext, ?_⟩
  unfold dumpprivkey at hdump
  dsimp only at hdump
  split at hdump
  next => cases hdump
  next =>
    rw [hid] at hdump
    simp only [hget, htext] at hdump
    exact (Except.ok.inj hdump).symm

/-- Every key of a store is dumped under its address. -/
theorem exists_dumps (Hash : List UInt8 → Vector UInt8 32) (fTestNet : Bool)
    {keystore : CCryptoKeyStore} {keyID : ℕ} {key : CKey Point} (hid : keyID < 256 ^ 20)
    (hkey : keystore.getKey env keyID CKey.reset = (true, key)) :
    ∃ strSecret, Dumps Hash env fTestNet keystore
      ((CFoxcoinAddress.setKeyID fTestNet keyID).toString Hash) key strSecret := by
  obtain ⟨vchSecret, fCompressed, hlen, hsecret, -⟩ := getKey_spec hkey
  have hget : keystore.getSecret env keyID = some (vchSecret, fCompressed) := by
    rw [CCryptoKeyStore.getSecret, hkey]
    exact hsecret
  have haddress := CFoxcoinAddress.getKeyID_setKeyID fTestNet hid
  refine ⟨CBase58Data.toString Hash
    ⟨if fTestNet then 239 else 8, secretData vchSecret fCompressed⟩, ?_, keyID, ?_, hkey⟩
  · unfold dumpprivkey
    simp only [CBase58Data.setString_toString, haddress, hget, setSecret_eq_some hlen, Bool.not_true,
      Bool.false_eq_true, if_false]
  · rw [CBase58Data.setString_toString]
    exact haddress

/-- **A key that is added is found under its id.** -/
theorem TakesKey.getKey {keystore : CCryptoKeyStore} {key : CKey Point} {vchSecret : CSecret}
    {fCompressed : Bool} (h : TakesKey env keystore key) (hlen : vchSecret.length = 32)
    (hset : (CKey.reset : CKey Point).setSecret env.ops vchSecret fCompressed = (true, key)) :
    ∃ vchPubKey keystore', key.getPubKey env.ops = some vchPubKey ∧
      keystore.addKey env key = (true, keystore') ∧
      keystore'.getKey env (env.getID vchPubKey) CKey.reset = (true, key) := by
  have hpub : CKey.pubKeyOf env.ops vchSecret fCompressed = key.getPubKey env.ops := by
    rw [CKey.pubKeyOf, hset]
  have hpoint := @CKey.pubKeyOf_eq _ env.ops _ hlen fCompressed
  have hsecret : key.getSecret = some (vchSecret, fCompressed) := by
    have hkey := hset
    rw [CKey.setSecret_eq _ hlen] at hkey
    obtain rfl := (Prod.mk.inj hkey).2
    simp [CKey.getSecret, CKey.reset]
  rw [hpub] at hpoint
  obtain ⟨vchPubKey, hkey⟩ : ∃ vchPubKey, key.getPubKey env.ops = some vchPubKey := ⟨_, hpoint⟩
  rw [hkey] at hpub
  rcases h with hplain | ⟨hlocked, hops, hencrypt, hcipher, hproper⟩
  · -- the plain secret is looked up
    refine ⟨vchPubKey, { keystore with
      mapKeys := keystore.mapKeys.insert (env.getID vchPubKey) (vchSecret, fCompressed) }, hkey, ?_, ?_⟩
    · rw [CCryptoKeyStore.addKey, hsecret, hkey]
      simp [hplain]
    · rw [CCryptoKeyStore.getKey]
      simp [hplain, hset]
  · cases hcrypto : keystore.fUseCrypto with
    | false =>
      refine ⟨vchPubKey, { keystore with
        mapKeys := keystore.mapKeys.insert (env.getID vchPubKey) (vchSecret, fCompressed) },
        hkey, ?_, ?_⟩
      · rw [CCryptoKeyStore.addKey, hsecret, hkey]
        simp [hcrypto]
      · rw [CCryptoKeyStore.getKey]
        simp [hcrypto, hset]
    | true =>
      -- the encrypted secret is decrypted, and the public key has its form
      obtain ⟨c, hc⟩ := Option.isSome_iff_exists.mp (hencrypt vchSecret (env.getHash vchPubKey))
      have hencrypts : CCryptoKeyStore.Encrypts env keystore.vMasterKey (vchSecret, fCompressed)
          (vchPubKey, c) := ⟨hpub, hc⟩
      obtain ⟨hdecrypt, hback⟩ := hencrypts.spec hops hcipher hlen (hproper _ hkey)
      refine ⟨vchPubKey, { keystore with
        mapCryptedKeys := keystore.mapCryptedKeys.insert (env.getID vchPubKey) (vchPubKey, c) },
        hkey, ?_, ?_⟩
      · rw [CCryptoKeyStore.addKey, hsecret, hkey]
        simp only [hcrypto, hlocked, hc, Bool.not_true, Bool.false_eq_true, if_false,
          CCryptoKeyStore.addCryptedKey, CCryptoKeyStore.setCrypted_crypted hcrypto]
      · rw [CCryptoKeyStore.getKey]
        simp only [hcrypto, Bool.not_true, Bool.false_eq_true, if_false, Finmap.lookup_insert]
        rw [hdecrypt]
        simp only [hlen, ne_eq, not_true_eq_false, if_false]
        rw [hback, hset]

/-- **A dumped key is restored exactly on the test net.** -/
theorem Dumps.restores_iff {keystore keystore' : CCryptoKeyStore} {key : CKey Point}
    {strAddress strSecret : StdString}
    (h : Dumps Hash env fTestNet keystore strAddress key strSecret)
    (htakes : TakesKey env keystore' key) :
    Restores Hash env fTestNet keystore' key strSecret ↔ fTestNet = true := by
  obtain ⟨vchSecret, fCompressed, b58, hlen, -, hset, htext, rfl⟩ := h.spec
  constructor
  · rintro ⟨keystore'', -, himport, -⟩
    cases fTestNet with
    | true => rfl
    | false =>
      rw [importprivkey, CFoxcoinSecret.setString] at himport
      simp [isValid_mainNet] at himport
  · rintro rfl
    rw [setSecret_eq_some hlen] at htext
    obtain rfl := Option.some.inj htext
    obtain ⟨vchPubKey, keystore'', hpub, hadd, hget⟩ := htakes.getKey hlen hset
    refine ⟨keystore'', vchPubKey, ?_, hpub, hget⟩
    have hread := CBase58Data.setString_toString Hash ⟨239, secretData vchSecret fCompressed⟩
    simp only [if_true, importprivkey, CFoxcoinSecret.setString, hread,
      isValid_testNet hlen fCompressed, getSecret_secretData hlen, hset, hadd, Bool.and_self,
      Bool.not_true, Bool.false_eq_true, if_false]

/-- **When secret keys survive as text**: on each net, each secret of 32 bytes is parsed back exactly
on the test net, no text is an address as well as a secret key, and what `dumpprivkey` writes is
imported exactly on the test net. -/
theorem secretKeys_restored_iff (Hash : List UInt8 → Vector UInt8 32) (fTestNet : Bool) :
    (∀ vchSecret fCompressed, vchSecret.length = 32 →
      (ParsesBack Hash fTestNet vchSecret fCompressed ↔ fTestNet = true)) ∧
    (∀ str, ¬(CFoxcoinAddress.isValid fTestNet (CBase58Data.setString Hash str).2 = true ∧
      (CFoxcoinSecret.setString Hash fTestNet str).1 = true)) ∧
    ∀ (Point : Type) (env : KeyEnv Point) (keystore keystore' : CCryptoKeyStore)
      (strAddress strSecret : StdString) (key : CKey Point),
      Dumps Hash env fTestNet keystore strAddress key strSecret → TakesKey env keystore' key →
        (Restores Hash env fTestNet keystore' key strSecret ↔ fTestNet = true) := by
  refine ⟨fun _ fCompressed hlen => parsesBack_iff hlen fCompressed, fun str h => ?_,
    fun _ _ _ _ _ _ _ hdump htakes => hdump.restores_iff htakes⟩
  obtain ⟨haddress, hsecret⟩ := h
  rw [CFoxcoinSecret.setString, Bool.and_eq_true] at hsecret
  exact not_isValid_both _ ⟨haddress, hsecret.2⟩

/-- A store with the compressed key of the generator's secret. -/
def exampleSecretStore : CCryptoKeyStore :=
  ⟨(∅ : StdMap ℕ _).insert 1223045687501595792205745683362443889418129776245
    (generatorSecret.toList, true), ∅, [], false⟩

/-- The key of the generator's secret, dumped under its address on the test net, is restored in an
empty store. -/
theorem generatorSecret_restored : ∃ (strSecret : StdString) (key : CKey Unit),
    ParsesBack (fun _ => Vector.replicate 32 0) true generatorSecret.toList true ∧
      Dumps (fun _ => Vector.replicate 32 0) CCryptoKeyStore.exampleEnv true exampleSecretStore
        ((CFoxcoinAddress.setKeyID true 1223045687501595792205745683362443889418129776245).toString
          fun _ => Vector.replicate 32 0) key strSecret ∧
      Restores (fun _ => Vector.replicate 32 0) CCryptoKeyStore.exampleEnv true .empty key
        strSecret := by
  have hlen : generatorSecret.toList.length = 32 := by decide
  obtain ⟨hparse, -, hrestore⟩ := secretKeys_restored_iff (fun _ => Vector.replicate 32 0) true
  have hkey : exampleSecretStore.getKey CCryptoKeyStore.exampleEnv
      1223045687501595792205745683362443889418129776245 CKey.reset =
        (true, (CKey.reset.setSecret generatorOps generatorSecret.toList true).2) := by
    rw [CCryptoKeyStore.getKey, exampleSecretStore]
    simp only [Bool.not_false, if_true, Finmap.lookup_insert]
    rfl
  obtain ⟨strSecret, hdumps⟩ := exists_dumps (fun _ => Vector.replicate 32 0) true
    (by norm_num) hkey
  exact ⟨strSecret, _, (hparse generatorSecret.toList true hlen).mpr rfl, hdumps,
    (hrestore Unit _ _ _ _ _ _ hdumps (.inl rfl)).mpr rfl⟩

/-- The first secret of the curve is not parsed back on the main net. -/
theorem not_parsesBack_mainNet : ¬∀ (Hash : List UInt8 → Vector UInt8 32) (fTestNet : Bool)
    (vchSecret : CSecret) (fCompressed : Bool), vchSecret.length = 32 →
      ParsesBack Hash fTestNet vchSecret fCompressed := by
  intro h
  have hback := h (fun _ => Vector.replicate 32 0) false generatorSecret.toList true (by decide)
  cases (parsesBack_iff (by decide) true).mp hback

end FoxCoin
