import FoxCoin.Solver
import Mathlib.Data.Finmap

/-! # Key stores and signing

A key store holds private keys and redeem scripts. `IsMine` tells whether the outputs of a script
belong to it, and `SignSignature` makes the `scriptSig` that claims one. -/

namespace FoxCoin

/-! ## Key stores -/

/-- The operations of `CKey` on private keys. -/
structure KeyOps (Key : Type) where
  getPubKey : Key → Valtype
  sign : Key → Uint256 → Option Valtype

/-- `CBasicKeyStore`: private keys by the hash of their public key, and redeem scripts by their
hash. An unlocked encrypted store answers like one with its keys decrypted. -/
structure KeyStore (Key : Type) where
  mapKeys : StdMap Valtype Key
  mapScripts : StdMap Valtype CScript

variable {Key : Type} (env : ScriptEnv) (ops : KeyOps Key)

/-- `GetID` of a public key or a script. -/
def ScriptEnv.getID (vch : List UInt8) : Valtype := (env.hash160 vch).toList

/-- The empty store. -/
def KeyStore.empty : KeyStore Key := ⟨∅, ∅⟩

/-- `AddKey`. -/
def KeyStore.addKey (keystore : KeyStore Key) (key : Key) : KeyStore Key :=
  { keystore with mapKeys := keystore.mapKeys.insert (env.getID (ops.getPubKey key)) key }

/-- `AddCScript`. -/
def KeyStore.addCScript (keystore : KeyStore Key) (redeemScript : CScript) : KeyStore Key :=
  { keystore with mapScripts := keystore.mapScripts.insert (env.getID redeemScript) redeemScript }

/-- The stores that are filled through the public operations. -/
inductive KeyStore.Filled : KeyStore Key → Prop
  | empty : Filled .empty
  | addKey {keystore : KeyStore Key} (h : Filled keystore) (key : Key) :
      Filled (keystore.addKey env ops key)
  | addCScript {keystore : KeyStore Key} (h : Filled keystore) (redeemScript : CScript) :
      Filled (keystore.addCScript env redeemScript)

/-- `HaveKey`. -/
def KeyStore.haveKey (keystore : KeyStore Key) (address : Valtype) : Bool :=
  (keystore.mapKeys.lookup address).isSome

/-- `HaveKeys`: how many of the public keys have their private key in the store. -/
def haveKeys (keystore : KeyStore Key) (pubkeys : List Valtype) : ℕ :=
  pubkeys.countP fun pubkey => keystore.haveKey (env.getID pubkey)

/-- `IsMine` of a script; `none` when the redeem scripts are nested deeper than the fuel. -/
def isMine (keystore : KeyStore Key) : ℕ → CScript → Option Bool
  | 0, _ => none
  | nFuel + 1, scriptPubKey =>
    match solver scriptPubKey with
    | none => some false
    | some (.txPubkey, vSolutions) => some (keystore.haveKey (env.getID (vSolutions.headD [])))
    | some (.txPubkeyhash, vSolutions) => some (keystore.haveKey (vSolutions.headD []))
    | some (.txScripthash, vSolutions) =>
      match keystore.mapScripts.lookup (vSolutions.headD []) with
      | none => some false
      | some subscript => isMine keystore nFuel subscript
    | some (.txMultisig, vSolutions) =>
      -- only if all the keys involved are held
      let keys := vSolutions.tail.dropLast
      some (haveKeys env keystore keys == keys.length)

/-! ## Signing -/

/-- `Sign1`: whether it succeeds, and the script with the signature. -/
def sign1 (keystore : KeyStore Key) (address : Valtype) (hash : Uint256) (nHashType : BitVec 32)
    (scriptSigRet : CScript) : Bool × CScript :=
  match (keystore.mapKeys.lookup address).bind fun key => ops.sign key hash with
  | none => (false, scriptSigRet)
  | some vchSig => (true, scriptSigRet.pushData (vchSig ++ [UInt8.ofNat nHashType.toNat]))

/-- The loop of `SignN` over the public keys, with the number signed so far. -/
def signNLoop (keystore : KeyStore Key) (hash : Uint256) (nHashType : BitVec 32) (nRequired : ℕ) :
    List Valtype → ℕ → CScript → ℕ × CScript
  | [], nSigned, scriptSigRet => (nSigned, scriptSigRet)
  | pubkey :: pubkeys, nSigned, scriptSigRet =>
    if nSigned < nRequired then
      match sign1 ops keystore (env.getID pubkey) hash nHashType scriptSigRet with
      | (true, scriptSigRet) =>
        signNLoop keystore hash nHashType nRequired pubkeys (nSigned + 1) scriptSigRet
      | (false, scriptSigRet) =>
        signNLoop keystore hash nHashType nRequired pubkeys nSigned scriptSigRet
    else (nSigned, scriptSigRet)

/-- `SignN`. -/
def signN (keystore : KeyStore Key) (multisigdata : List Valtype) (hash : Uint256)
    (nHashType : BitVec 32) (scriptSigRet : CScript) : Bool × CScript :=
  let nRequired := ((multisigdata.headD []).headD 0).toNat
  let (nSigned, scriptSigRet) :=
    signNLoop env ops keystore hash nHashType nRequired multisigdata.tail.dropLast 0 scriptSigRet
  (nSigned == nRequired, scriptSigRet)

/-- `Solver` that signs: whether it succeeds, the script it leaves, and the type it found. -/
def signSolver (keystore : KeyStore Key) (scriptPubKey : CScript) (hash : Uint256)
    (nHashType : BitVec 32) : Bool × CScript × Option TxnOutType :=
  match solver scriptPubKey with
  | none => (false, [], none)
  | some (.txPubkey, vSolutions) =>
    let (fSigned, scriptSigRet) :=
      sign1 ops keystore (env.getID (vSolutions.headD [])) hash nHashType []
    (fSigned, scriptSigRet, some .txPubkey)
  | some (.txPubkeyhash, vSolutions) =>
    let keyID := vSolutions.headD []
    match sign1 ops keystore keyID hash nHashType [] with
    | (false, scriptSigRet) => (false, scriptSigRet, some .txPubkeyhash)
    | (true, scriptSigRet) =>
      -- `GetPubKey`, which leaves an empty key when there is none
      let vch := ((keystore.mapKeys.lookup keyID).map ops.getPubKey).getD []
      (true, scriptSigRet.pushData vch, some .txPubkeyhash)
  | some (.txScripthash, vSolutions) =>
    match keystore.mapScripts.lookup (vSolutions.headD []) with
    | none => (false, [], some .txScripthash)
    | some subscript => (true, subscript, some .txScripthash)
  | some (.txMultisig, vSolutions) =>
    -- the first element is there for the one that `OP_CHECKMULTISIG` pops too many
    let (fSigned, scriptSigRet) :=
      signN env ops keystore vSolutions hash nHashType (CScript.pushData [] [])
    (fSigned, scriptSigRet, some .txMultisig)

/-- The transaction with another `scriptSig` in one input. -/
def CTransaction.setScriptSig (txTo : CTransaction) (nIn : ℕ) (scriptSig : CScript) : CTransaction :=
  { txTo with vin := txTo.vin.modify nIn fun txin => { txin with scriptSig := scriptSig } }

/-- The test of the solution at the end of `SignSignature`. -/
def testSolution (fromPubKey : CScript) (txTo : CTransaction) (nIn : ℕ) (scriptSig : CScript) : Bool :=
  match verifyScript env ⟨txTo, nIn, 0⟩ scriptSig fromPubKey true with
  | .ok fVerified => fVerified
  | .error _ => false

/-- `SignSignature`: whether it succeeds, and the transaction with the `scriptSig` it made. -/
def signSignature (keystore : KeyStore Key) (fromPubKey : CScript) (txTo : CTransaction) (nIn : ℕ)
    (nHashType : BitVec 32) : Bool × CTransaction :=
  -- leave out the signature from the hash, since a signature can't sign itself
  let hash := signatureHash env.hash fromPubKey txTo nIn nHashType
  let (fSolved, scriptSig, whichType) := signSolver env ops keystore fromPubKey hash nHashType
  let txTo := txTo.setScriptSig nIn scriptSig
  if !fSolved then (false, txTo)
  else if whichType = some .txScripthash then
    -- the solver has returned the subscript that needs to be evaluated
    let subscript := scriptSig
    let hash2 := signatureHash env.hash subscript txTo nIn nHashType
    let (fSolved, scriptSig, subType) := signSolver env ops keystore subscript hash2 nHashType
    let scriptSig := scriptSig.pushData subscript
    let txTo := txTo.setScriptSig nIn scriptSig
    if !(fSolved && subType != some .txScripthash) then (false, txTo)
    else (testSolution env fromPubKey txTo nIn scriptSig, txTo)
  else (testSolution env fromPubKey txTo nIn scriptSig, txTo)

/-! ## What a filled store holds -/

variable {env ops} {keystore : KeyStore Key}

/-- Keys and redeem scripts stand under their hash. -/
structure KeyStore.Consistent (env : ScriptEnv) (ops : KeyOps Key) (keystore : KeyStore Key) :
    Prop where
  keys : ∀ address key, keystore.mapKeys.lookup address = some key →
    env.getID (ops.getPubKey key) = address
  scripts : ∀ address subscript, keystore.mapScripts.lookup address = some subscript →
    env.getID subscript = address

/-- The public operations keep keys and scripts under their hash. -/
theorem KeyStore.Filled.consistent (h : keystore.Filled env ops) :
    keystore.Consistent env ops := by
  induction h with
  | empty =>
    constructor
    · intro address key hkey
      cases hkey
    · intro address subscript hscript
      cases hscript
  | addKey _ key ih =>
    refine ⟨fun address key' hkey => ?_, ih.scripts⟩
    by_cases heq : address = env.getID (ops.getPubKey key)
    · subst heq
      rw [KeyStore.addKey, Finmap.lookup_insert] at hkey
      cases hkey
      rfl
    · rw [KeyStore.addKey, Finmap.lookup_insert_of_ne _ heq] at hkey
      exact ih.keys address key' hkey
  | addCScript _ redeemScript ih =>
    refine ⟨ih.keys, fun address subscript hscript => ?_⟩
    by_cases heq : address = env.getID redeemScript
    · subst heq
      rw [KeyStore.addCScript, Finmap.lookup_insert] at hscript
      cases hscript
      rfl
    · rw [KeyStore.addCScript, Finmap.lookup_insert_of_ne _ heq] at hscript
      exact ih.scripts address subscript hscript

end FoxCoin
