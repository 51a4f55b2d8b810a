import FoxCoin.CryptoKeyStore

/-! # The compressed form of key objects

Key objects of a program are made, set, copied and assigned in any order. The flag of every object
says what the form of its library key is as long as no step parts the two. -/

namespace FoxCoin

variable {Point : Type}

/-! ## Programs with keys -/

/-- A call on one of the key objects, which are numbered. -/
inductive KeyEvent where
  | reset (i : ℕ)
  | makeNewKey (i : ℕ) (fCompressed : Bool) (secret : Vector UInt8 32)
  | setSecret (i : ℕ) (vchSecret : CSecret) (fCompressed : Bool)
  | setPubKey (i : ℕ) (vchPubKey : CPubKey)
  | setPrivKey (i : ℕ) (vchPrivKey : List UInt8)
  | setCompactSignature (i : ℕ) (hash : Uint256) (vchSig : List UInt8)
  | copy (i j : ℕ) (fUninitialized : Bool)
  | assign (i j : ℕ)

namespace KeyEvent

/-- The object that is changed. -/
def target : KeyEvent → ℕ
  | reset i => i
  | makeNewKey i _ _ => i
  | setSecret i _ _ => i
  | setPubKey i _ => i
  | setPrivKey i _ => i
  | setCompactSignature i _ _ => i
  | copy i _ _ => i
  | assign i _ => i

variable (ops : ECOps Point)

/-- The object after the call. -/
def result (keys : ℕ → CKey Point) : KeyEvent → CKey Point
  | reset _ => CKey.reset
  | makeNewKey i fCompressed secret => (keys i).makeNewKey ops fCompressed secret
  | setSecret i vchSecret fCompressed => ((keys i).setSecret ops vchSecret fCompressed).2
  | setPubKey i vchPubKey => ((keys i).setPubKey ops vchPubKey).2
  | setPrivKey i vchPrivKey => ((keys i).setPrivKey ops vchPrivKey).2
  | setCompactSignature i hash vchSig => ((keys i).setCompactSignature ops hash vchSig).2
  | copy _ j fUninitialized => (keys j).copy fUninitialized
  | assign i j => (keys i).assign (keys j)

/-- The calls that keep the flag and the form together: a copy whose memory held the flag of its
source, an assignment between equal flags, and a library key that is replaced under a flag that fits
it. -/
def Keeps (keys : ℕ → CKey Point) : KeyEvent → Prop
  | reset _ => True
  | makeNewKey _ _ _ => True
  | setSecret i vchSecret _ => vchSecret.length = 32 ∨ (keys i).fCompressedPubKey = false
  | setPubKey i vchPubKey =>
    ops.oct2point vchPubKey = none ∨ vchPubKey.length = 33 ∨ (keys i).fCompressedPubKey = false
  | setPrivKey i vchPrivKey => (keys i).fCompressedPubKey = true ↔
      (ops.d2i (keys i).pkey vchPrivKey).2.convForm = pointConversionCompressed
  | setCompactSignature i _ vchSig => vchSig.length ≠ 65 ∨ (vchSig.headD 0).toNat < 27 ∨
      31 ≤ (vchSig.headD 0).toNat ∨ (keys i).fCompressedPubKey = false
  | copy _ j fUninitialized => fUninitialized = (keys j).fCompressedPubKey
  | assign i j => (keys i).fCompressedPubKey = (keys j).fCompressedPubKey

variable {ops}

/-- What a call makes of its object. -/
theorem agrees_result_iff (hops : ops.Lawful) {keys : ℕ → CKey Point} (h : ∀ i, (keys i).Agrees)
    (event : KeyEvent) : (event.result ops keys).Agrees ↔ event.Keeps ops keys := by
  cases event with
  | reset i => exact iff_of_true CKey.agrees_reset trivial
  | makeNewKey i fCompressed secret => exact iff_of_true ((h i).makeNewKey fCompressed secret) trivial
  | setSecret i vchSecret fCompressed => exact CKey.agrees_setSecret_iff _ _ _
  | setPubKey i vchPubKey => exact CKey.agrees_setPubKey_iff hops (h i) _
  | setPrivKey i vchPrivKey => exact CKey.agrees_setPrivKey_iff _ _
  | setCompactSignature i hash vchSig => exact CKey.agrees_setCompactSignature_iff (h i) _ _
  | copy i j fUninitialized => exact CKey.agrees_copy_iff (h j) _
  | assign i j => exact CKey.agrees_assign_iff (h j)

end KeyEvent

/-- The key objects that calls lead to. -/
def keySystem (ops : ECOps Point) : Runs.System (ℕ → CKey Point) KeyEvent where
  start keys := keys = fun _ => CKey.reset
  legal _ _ := True
  next keys event := Function.update keys event.target (event.result ops keys)

variable {ops : ECOps Point}

/-- A call keeps all flags and forms together exactly when it does so for its object. -/
theorem forall_agrees_next_iff (hops : ops.Lawful) {keys : ℕ → CKey Point} (h : ∀ i, (keys i).Agrees)
    (event : KeyEvent) :
    (∀ i, ((keySystem ops).next keys event i).Agrees) ↔ event.Keeps ops keys := by
  rw [← event.agrees_result_iff hops h]
  constructor
  · intro hall
    have htarget : (Function.update keys event.target (event.result ops keys) event.target).Agrees :=
      hall event.target
    rwa [Function.update_self] at htarget
  · intro hresult i
    show (Function.update keys event.target (event.result ops keys) i).Agrees
    by_cases hi : i = event.target
    · rwa [hi, Function.update_self]
    · rw [Function.update_of_ne hi]
      exact h i

theorem forall_agrees_of_reaches (hops : ops.Lawful) {keys : ℕ → CKey Point}
    (h : Runs.Reaches (keySystem ops) (fun keys event => event.Keeps ops keys) keys) :
    ∀ i, (keys i).Agrees := by
  refine Runs.Reaches.invariant (I := fun keys => ∀ i, (keys i).Agrees) ?_ ?_ h
  · rintro keys rfl i
    exact CKey.agrees_reset
  · intro keys event hkeys _ hkeeps
    exact (forall_agrees_next_iff hops hkeys event).mpr hkeeps

/-! ## Keys out of a store -/

namespace CCryptoKeyStore

variable {env : KeyEnv Point} {keystore : CCryptoKeyStore}

/-- A secret under a flag has the public key of its form, in whatever form that is written. -/
theorem pubKeyOf_or_iff (hops : env.ops.Lawful) {secret : CSecret} (hlen : secret.length = 32)
    (vchPubKey : CPubKey) (fFlag : Bool) :
    CKey.pubKeyOf env.ops secret (decide (vchPubKey.length = 33) || fFlag) = some vchPubKey ↔
      CKey.pubKeyOf env.ops secret (decide (vchPubKey.length = 33)) = some vchPubKey ∧
        (vchPubKey.length = 65 → fFlag = false) := by
  simp only [CKey.pubKeyOf_eq hlen, Option.some.injEq]
  obtain ⟨hcompressed, huncompressed⟩ | ⟨hcompressed, huncompressed⟩ :=
    hops.octets (env.ops.mul ⟨secret.toArray, hlen⟩)
  · -- the point at infinity is written in one way
    have hform : ∀ b, env.ops.point2oct (env.ops.mul ⟨secret.toArray, hlen⟩) (CKey.convForm b) = [0] := by
      intro b
      cases b with
      | false => exact huncompressed
      | true => exact hcompressed
    rw [hform, hform, iff_self_and]
    rintro rfl h
    cases h
  · have hlength : ∀ b, (env.ops.point2oct (env.ops.mul ⟨secret.toArray, hlen⟩)
        (CKey.convForm b)).length = if b then 33 else 65 := by
      intro b
      cases b with
      | false => exact huncompressed
      | true => exact hcompressed
    by_cases h33 : vchPubKey.length = 33
    · rw [decide_eq_true h33, Bool.true_or, iff_self_and]
      omega
    · rw [decide_eq_false h33, Bool.false_or]
      constructor
      · rintro rfl
        have hflag : fFlag = false := by
          rw [hlength] at h33
          simpa using h33
        exact ⟨by rw [hflag], fun _ => hflag⟩
      · rintro ⟨rfl, hflag⟩
        rw [hflag (hlength false)]

/-- What `GetKey` makes of an encrypted entry. -/
theorem getPubKey_setSecret_iff (hops : env.ops.Lawful) (keyOut : CKey Point) {secret : CSecret}
    (hlen : secret.length = 32) (vchPubKey : CPubKey) :
    ((keyOut.setPubKey env.ops vchPubKey).2.setSecret env.ops secret false).2.getPubKey env.ops =
        some vchPubKey ↔
      CKey.pubKeyOf env.ops secret (decide (vchPubKey.length = 33)) = some vchPubKey ∧
        (vchPubKey.length = 65 → keyOut.fCompressedPubKey = false) := by
  rw [← pubKeyOf_or_iff hops hlen, CKey.setSecret_eq _ hlen, Bool.false_or, CKey.pubKeyOf_eq hlen]
  cases hpoint : env.ops.oct2point vchPubKey with
  | some point => rw [CKey.fCompressedPubKey_setPubKey _ hpoint]; rfl
  | none =>
    -- octets that are not read are not those of the secret either
    have hne : ∀ b, env.ops.point2oct (env.ops.mul ⟨secret.toArray, hlen⟩) (CKey.convForm b) ≠
        vchPubKey := by
      rintro b rfl
      have hread := (CKey.oct2point_of_pubKeyOf hops hlen (CKey.pubKeyOf_eq hlen b)).1
      rw [hpoint] at hread
      cases hread
    exact iff_of_false (fun h => hne _ (Option.some.inj h)) fun h => hne _ (Option.some.inj h)

/-- **`GetKey` into a used key object.** The key that is returned has the public key that the store
answers with exactly when the entry is one of that public key and, unless that is compressed, the
flag of the object was not set. -/
theorem getPubKey_getKey_iff (hops : env.ops.Lawful) {a : ℕ} {keyOut : CKey Point}
    (h : (keystore.getKey env a keyOut).1 = true) :
    (keystore.getKey env a keyOut).2.getPubKey env.ops = keystore.getPubKey env a ↔
      keystore.fUseCrypto = false ∨ ∃ e, keystore.mapCryptedKeys.lookup a = some e ∧
        Decrypts env keystore.vMasterKey e ∧
        (e.1.length = 65 → keyOut.fCompressedPubKey = false) := by
  cases hcrypto : keystore.fUseCrypto with
  | false =>
    refine iff_of_true ?_ (.inl rfl)
    rw [getKey, hcrypto] at h
    rw [getPubKey, getKey, getKey, hcrypto]
    simp only [Bool.not_false, if_true] at h ⊢
    cases hlookup : keystore.mapKeys.lookup a with
    | none => simp [hlookup] at h
    | some e =>
      simp only [hlookup] at h ⊢
      rw [h]
      rfl
  | true =>
    rw [getKey, hcrypto] at h
    rw [getPubKey, getKey, hcrypto]
    simp only [Bool.not_true, Bool.false_eq_true, if_false, reduceCtorEq, false_or] at h ⊢
    cases hlookup : keystore.mapCryptedKeys.lookup a with
    | none => simp [hlookup] at h
    | some e =>
      simp only [hlookup] at h ⊢
      cases hsecret : env.decryptSecret keystore.vMasterKey e.2 (env.getHash e.1) with
      | none => simp [hsecret] at h
      | some secret =>
        simp only [hsecret] at h ⊢
        split at h
        next => cases h
        next hlen =>
          rw [not_not] at hlen
          rw [if_neg (not_not.mpr hlen), Option.map_some, getPubKey_setSecret_iff hops keyOut hlen]
          constructor
          · rintro ⟨hpub, hflag⟩
            exact ⟨e, rfl, ⟨secret, hsecret, hlen, hpub⟩, hflag⟩
          · rintro ⟨e₁, he₁, ⟨secret₁, hsecret₁, -, hpub⟩, hflag⟩
            obtain rfl := Option.some.inj he₁
            obtain rfl := Option.some.inj (hsecret.symm.trans hsecret₁)
            exact ⟨hpub, hflag⟩

end CCryptoKeyStore

/-- **When the flag and the form stay together.** Along every program whose calls keep them
together, the flag says of every object how long its public key is, and so does the one that comes
with its secret. A call that does not keep them together parts them. `GetKey` returns the public key
of the store exactly when no set flag meets a public key that is not compressed. -/
theorem keyForms (env : KeyEnv Point) (hops : env.ops.Lawful) :
    (∀ keys, Runs.Reaches (keySystem env.ops) (fun keys event => event.Keeps env.ops keys) keys →
      ∀ i, (keys i).Agrees ∧
        ∀ vchPubKey, (keys i).getPubKey env.ops = some vchPubKey →
          (vchPubKey.length = 33 ∨ vchPubKey.length = 65) →
            ((keys i).isCompressed = true ↔ vchPubKey.length = 33) ∧
            ∀ secret fCompressed, (keys i).getSecret = some (secret, fCompressed) →
              (fCompressed = true ↔ vchPubKey.length = 33)) ∧
      (∀ keys, (∀ i, (keys i).Agrees) → ∀ event : KeyEvent,
        (∀ i, ((keySystem env.ops).next keys event i).Agrees) ↔ event.Keeps env.ops keys) ∧
      ∀ (keystore : CCryptoKeyStore) a keyOut, (keystore.getKey env a keyOut).1 = true →
        ((keystore.getKey env a keyOut).2.getPubKey env.ops = keystore.getPubKey env a ↔
          keystore.fUseCrypto = false ∨ ∃ e, keystore.mapCryptedKeys.lookup a = some e ∧
            CCryptoKeyStore.Decrypts env keystore.vMasterKey e ∧
            (e.1.length = 65 → keyOut.fCompressedPubKey = false)) := by
  refine ⟨fun keys h i => ?_, fun keys h event => forall_agrees_next_iff hops h event,
    fun keystore a keyOut h => CCryptoKeyStore.getPubKey_getKey_iff hops h⟩
  have hagrees := forall_agrees_of_reaches hops h i
  refine ⟨hagrees, fun vchPubKey hpub hvalid => ?_⟩
  have hflag := hagrees.isCompressed_iff hops hpub hvalid
  refine ⟨hflag, fun secret fCompressed hsecret => ?_⟩
  obtain ⟨v, -, hv⟩ := Option.map_eq_some_iff.mp hsecret
  rwa [← (Prod.mk.inj hv).2]

/-- A key that is made, and another one that is set from its secret. -/
theorem keyForms_exampleKeys :
    let key := (CKey.reset : CKey Unit).makeNewKey generatorOps true generatorSecret
    let keys := Function.update (fun _ => CKey.reset) 0 key
    (∀ i, (Function.update keys 1 ((keys 1).setSecret generatorOps generatorSecret.toList true).2
      i).Agrees) ∧
      (keys 0).getPubKey generatorOps = some (2 :: generatorX) := by
  refine ⟨fun i => ?_, rfl⟩
  have hstart : Runs.Reaches (keySystem generatorOps)
      (fun keys event => event.Keeps generatorOps keys) fun _ => CKey.reset := .start rfl
  have hmake := hstart.step (e := KeyEvent.makeNewKey 0 true generatorSecret) trivial trivial
  have hset := hmake.step (e := KeyEvent.setSecret 1 generatorSecret.toList true) trivial (.inl rfl)
  exact ((keyForms CCryptoKeyStore.exampleEnv generatorOps_lawful).1 _ hset i).1

/-- An assignment copies the form, but not the flag. -/
theorem not_forall_agrees :
    ¬∀ keys, Runs.Reachable (keySystem generatorOps) keys → ∀ i, (keys i).Agrees := by
  intro h
  have hstart : Runs.Reachable (keySystem generatorOps) fun _ => CKey.reset := .start rfl
  have hmake := hstart.step (e := KeyEvent.makeNewKey 0 true generatorSecret) trivial trivial
  have hassign := hmake.step (e := KeyEvent.assign 1 0) trivial trivial
  have hagrees : ((CKey.reset : CKey Unit).assign CCryptoKeyStore.exampleKey).Agrees := h _ hassign 1
  revert hagrees
  unfold CKey.Agrees
  decide

end FoxCoin
