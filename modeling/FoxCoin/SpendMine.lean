import FoxCoin.EvalRuns
import FoxCoin.KeyStore

/-! # Spending what is mine

`IsMine` and `SignSignature` are two recursions over the types that `Solver` finds. They agree but
for pay-to-script-hash outputs: the signer handles one level of them, and only redeem scripts that
can be pushed. -/

namespace FoxCoin

open Checked Counting OrderedMatch Wire

variable {Key : Type} {env : ScriptEnv} {ops : KeyOps Key} {keystore : KeyStore Key}
  {scriptPubKey code : CScript} {txTo txTo' : CTransaction} {nIn : ℕ} {nHashType : BitVec 32}

/-! ## Signatures -/

/-- The outputs of a script can be claimed: for every input of every transaction, and every hash
type of one byte, `SignSignature` succeeds with a `scriptSig` that `VerifyScript` accepts. -/
def Spendable (env : ScriptEnv) (ops : KeyOps Key) (keystore : KeyStore Key)
    (scriptPubKey : CScript) : Prop :=
  ∀ (txTo : CTransaction) (nIn : ℕ) (nHashType : BitVec 32), nIn < txTo.vin.length →
    nHashType.toNat < 256 → ∃ txTo' txin,
      signSignature env ops keystore scriptPubKey txTo nIn nHashType = (true, txTo') ∧
        txTo'.vin[nIn]? = some txin ∧
        verifyScript env ⟨txTo', nIn, 0⟩ txin.scriptSig scriptPubKey true = .ok true

/-- `Sign` and `Verify` are correct for the keys of the store: a signature verifies with the public
key of its private key, which is the only one with its hash; signatures are short, and none is a
public key or a key hash of the store. -/
structure SignerCorrect (env : ScriptEnv) (ops : KeyOps Key) (keystore : KeyStore Key) : Prop where
  sign : ∀ address key hash, keystore.mapKeys.lookup address = some key →
    ∃ vchSig, ops.sign key hash = some vchSig
  length_le : ∀ address key hash vchSig, keystore.mapKeys.lookup address = some key →
    ops.sign key hash = some vchSig → vchSig.length ≤ 72
  verify : ∀ address key hash vchSig, keystore.mapKeys.lookup address = some key →
    ops.sign key hash = some vchSig → env.verify (ops.getPubKey key) hash vchSig = true
  unique : ∀ address key pubkey, keystore.mapKeys.lookup address = some key →
    env.getID pubkey = address → pubkey = ops.getPubKey key
  notKey : ∀ address key hash vchSig type, keystore.mapKeys.lookup address = some key →
    ops.sign key hash = some vchSig → ∀ address' key', keystore.mapKeys.lookup address' = some key' →
      vchSig ++ [type] ≠ address' ∧ vchSig ++ [type] ≠ ops.getPubKey key'
  pubKey_length_le : ∀ address key, keystore.mapKeys.lookup address = some key →
    (ops.getPubKey key).length ≤ 65

/-- The transactions differ in the scripts of their inputs at most. -/
def SameCopy (nIn : ℕ) (txTo txTo' : CTransaction) : Prop :=
  ∀ code nHashType, signatureTx code txTo' nIn nHashType = signatureTx code txTo nIn nHashType

theorem sameCopy_setScriptSig (nIn : ℕ) (txTo : CTransaction) (scriptSig : CScript) :
    SameCopy nIn txTo (txTo.setScriptSig nIn scriptSig) := by
  intro code nHashType
  have heq : txTo.setScriptSig nIn scriptSig = txTo.withScriptSigs fun i =>
      if i = nIn then scriptSig else (txTo.vin[i]?.map CTxIn.scriptSig).getD [] := by
    rw [CTransaction.setScriptSig, CTransaction.withScriptSigs, CTransaction.mk.injEq]
    refine ⟨rfl, List.ext_getElem (by simp) fun i hi hi' => ?_, rfl, rfl⟩
    rw [List.length_mapIdx] at hi'
    rw [List.getElem_modify, List.getElem_mapIdx]
    by_cases hself : nIn = i
    · subst hself
      rw [if_pos rfl]
      simp
    · rw [if_neg hself, if_neg (Ne.symm hself), List.getElem?_eq_getElem hi']
      rfl
  rw [heq, signatureTx_withScriptSigs]

theorem SameCopy.trans {txTo'' : CTransaction} (h : SameCopy nIn txTo txTo')
    (h' : SameCopy nIn txTo' txTo'') : SameCopy nIn txTo txTo'' :=
  fun code nHashType => (h' code nHashType).trans (h code nHashType)

theorem SameCopy.signatureHash_eq (h : SameCopy nIn txTo txTo') (hash : List UInt8 → Uint256) :
    signatureHash hash code txTo' nIn nHashType = signatureHash hash code txTo nIn nHashType := by
  simp only [signatureHash, signatureBytes, h code nHashType]

/-- The signature that the store makes for a key hash, with its hash type. -/
def keySig (ops : KeyOps Key) (keystore : KeyStore Key) (hash : Uint256) (nHashType : BitVec 32)
    (address : Valtype) : Valtype :=
  ((keystore.mapKeys.lookup address).bind fun key => ops.sign key hash).getD [] ++
    [UInt8.ofNat nHashType.toNat]

/-- The facts about a signature of a held key. -/
theorem SignerCorrect.exists_sig (h : SignerCorrect env ops keystore) {address : Valtype}
    (hkey : keystore.haveKey address = true) (hash : Uint256) (nHashType : BitVec 32) :
    ∃ key vchSig, keystore.mapKeys.lookup address = some key ∧ ops.sign key hash = some vchSig ∧
      keySig ops keystore hash nHashType address = vchSig ++ [UInt8.ofNat nHashType.toNat] := by
  obtain ⟨key, hlookup⟩ := Option.isSome_iff_exists.mp hkey
  obtain ⟨vchSig, hsign⟩ := h.sign address key hash hlookup
  exact ⟨key, vchSig, hlookup, hsign, by rw [keySig, hlookup, Option.bind_some, hsign]; rfl⟩

theorem sign1_eq (h : SignerCorrect env ops keystore) {address : Valtype}
    (hkey : keystore.haveKey address = true) (hash : Uint256) (scriptSigRet : CScript) :
    sign1 ops keystore address hash nHashType scriptSigRet =
      (true, scriptSigRet.pushData (keySig ops keystore hash nHashType address)) := by
  obtain ⟨key, vchSig, hlookup, hsign, hsig⟩ := h.exists_sig hkey hash nHashType
  rw [sign1, hlookup, Option.bind_some, hsign, hsig]

theorem keySig_length_le (h : SignerCorrect env ops keystore) {address : Valtype}
    (hkey : keystore.haveKey address = true) (hash : Uint256) (nHashType : BitVec 32) :
    (keySig ops keystore hash nHashType address).length ≤ 73 := by
  obtain ⟨key, vchSig, hlookup, hsign, hsig⟩ := h.exists_sig hkey hash nHashType
  have := h.length_le address key hash vchSig hlookup hsign
  rw [hsig, List.length_append, List.length_singleton]
  omega

/-- The signature of the hash of a script passes `CheckSig` on that script. -/
theorem checkSig_keySig (h : SignerCorrect env ops keystore) (hcopy : SameCopy nIn txTo txTo')
    (htype : nHashType.toNat < 256) {pubkey : Valtype}
    (hkey : keystore.haveKey (env.getID pubkey) = true) :
    checkSig env ⟨txTo', nIn, 0⟩ (keySig ops keystore
      (signatureHash env.hash code txTo nIn nHashType) nHashType (env.getID pubkey)) pubkey code =
        true := by
  obtain ⟨key, vchSig, hlookup, hsign, hsig⟩ := h.exists_sig hkey
    (signatureHash env.hash code txTo nIn nHashType) nHashType
  have hback : BitVec.ofNat 32 (UInt8.ofNat nHashType.toNat).toNat = nHashType := by
    rw [UInt8.toNat_ofNat_of_lt' htype]
    simp
  have hverify := h.verify _ key _ vchSig hlookup hsign
  rw [← h.unique _ key pubkey hlookup rfl] at hverify
  simp only [checkSig, hsig, List.getLast?_concat, List.dropLast_concat, hback, if_true,
    beq_self_eq_true, Bool.true_and, hcopy.signatureHash_eq]
  exact hverify

/-- A signature of the store is none of its public keys. -/
theorem keySig_ne (h : SignerCorrect env ops keystore) {address pubkey : Valtype}
    (hkey : keystore.haveKey address = true)
    (hpubkey : keystore.haveKey (env.getID pubkey) = true) (hash : Uint256) (nHashType : BitVec 32) :
    keySig ops keystore hash nHashType address ≠ pubkey := by
  obtain ⟨key, vchSig, hlookup, hsign, hsig⟩ := h.exists_sig hkey hash nHashType
  obtain ⟨key', hlookup'⟩ := Option.isSome_iff_exists.mp hpubkey
  rw [hsig, h.unique _ key' pubkey hlookup' rfl]
  exact (h.notKey address key hash vchSig _ hlookup hsign _ key' hlookup').2

/-- No signature of the store is pushed by a script whose data are its public keys and key
hashes. -/
theorem findAndDelete_keySig (h : SignerCorrect env ops keystore) {address : Valtype}
    (hkey : keystore.haveKey address = true) (hash : Uint256) (nHashType : BitVec 32)
    {reads : List (ℕ × Valtype)}
    (hreads : code.Reads reads [])
    (hdata : ∀ p ∈ reads, p.2 = [] ∨ keystore.haveKey p.2 = true ∨
      keystore.haveKey (env.getID p.2) = true) :
    code.findAndDelete (CScript.pushData [] (keySig ops keystore hash nHashType address)) = code := by
  obtain ⟨key, vchSig, hlookup, hsign, hsig⟩ := h.exists_sig hkey hash nHashType
  have hlen := keySig_length_le h hkey hash nHashType
  refine CScript.findAndDelete_eq_self (by omega) hreads fun p hp heq => ?_
  rcases hdata p hp with hnil | hhash | hpubkey
  · rw [hnil, hsig] at heq
    simp at heq
  · obtain ⟨key', hlookup'⟩ := Option.isSome_iff_exists.mp hhash
    rw [hsig] at heq
    exact (h.notKey address key hash vchSig _ hlookup hsign _ key' hlookup').1 heq.symm
  · exact keySig_ne h hkey hpubkey hash nHashType heq.symm

/-! ## Solutions -/

/-- A solution that was found: the data that the signer pushes, and that the script accepts it for
every transaction with the same copy. -/
structure Solved (env : ScriptEnv) (ops : KeyOps Key) (keystore : KeyStore Key) (code : CScript)
    (txTo : CTransaction) (nIn : ℕ) (nHashType : BitVec 32) (type : TxnOutType)
    (args : List Valtype) : Prop where
  solver : signSolver env ops keystore code (signatureHash env.hash code txTo nIn nHashType)
    nHashType = (true, args.flatMap (CScript.pushData []), some type)
  count_le : args.length ≤ 17
  small : ∀ arg ∈ args, arg.length ≤ 73
  accepted : ∀ txTo', SameCopy nIn txTo txTo' →
    (evalScript env ⟨txTo', nIn, 0⟩ args.reverse code).result = .ok [vchTrue]

variable (hsigner : SignerCorrect env ops keystore) (hkeystore : keystore.Consistent env ops)
  (htype : nHashType.toNat < 256)

include hsigner htype

omit htype in
/-- The loop of `SignN` signs with the first keys, as many as are required, when all keys are
held. -/
theorem signNLoop_eq (hash : Uint256) (nHashType : BitVec 32) {nRequired nSigned : ℕ} {pubkeys : List Valtype}
    (hkeys : ∀ pubkey ∈ pubkeys, keystore.haveKey (env.getID pubkey) = true)
    (hle : nSigned ≤ nRequired) (scriptSigRet : CScript) :
    signNLoop env ops keystore hash nHashType nRequired pubkeys nSigned scriptSigRet =
      (min (nSigned + pubkeys.length) nRequired, scriptSigRet ++
        ((pubkeys.take (nRequired - nSigned)).map fun pubkey =>
          keySig ops keystore hash nHashType (env.getID pubkey)).flatMap (CScript.pushData [])) := by
  induction pubkeys generalizing nSigned scriptSigRet with
  | nil => simp [signNLoop, Nat.min_eq_left hle]
  | cons pubkey pubkeys ih =>
    rw [signNLoop]
    by_cases hlt : nSigned < nRequired
    · obtain ⟨n, hn⟩ : ∃ n, nRequired - nSigned = n + 1 := ⟨nRequired - nSigned - 1, by omega⟩
      rw [if_pos hlt, sign1_eq hsigner (hkeys pubkey List.mem_cons_self)]
      dsimp only
      rw [ih (fun p hp => hkeys p (List.mem_cons_of_mem pubkey hp)) hlt, CScript.pushData_eq, hn,
        List.take_succ_cons, List.map_cons, List.flatMap_cons, List.append_assoc,
        show nRequired - (nSigned + 1) = n by omega, List.length_cons,
        show nSigned + 1 + pubkeys.length = nSigned + (pubkeys.length + 1) by omega]
    · rw [if_neg hlt, show nRequired - nSigned = 0 by omega]
      simp [Nat.min_eq_right (show nRequired ≤ nSigned + (pubkeys.length + 1) by omega)]
      omega

/-- A multi-signature script all of whose keys are held. -/
theorem solved_multisig {m n : ℕ} {vchM vchN : Valtype} {keys : List (ℕ × Valtype)}
    (hsolver : solver code = some (.txMultisig,
      [UInt8.ofNat (m + 1)] :: (keys.map Prod.snd ++ [[UInt8.ofNat (n + 1)]])))
    (hreads : code.Reads
      ((op1 + m, vchM) :: (keys ++ [(op1 + n, vchN), (opCheckmultisig, [])])) [])
    (hsize : ∀ p ∈ keys, isPubkeySize p.2 = true) (hm : m ≤ n) (hn : n < 16)
    (hlength : keys.length = n + 1)
    (hkeys : ∀ pubkey ∈ keys.map Prod.snd, keystore.haveKey (env.getID pubkey) = true) :
    ∃ args, Solved env ops keystore code txTo nIn nHashType .txMultisig args := by
  set hash := signatureHash env.hash code txTo nIn nHashType with hhash
  -- the first keys sign, in their order
  set sigs := ((keys.map Prod.snd).take (m + 1)).map fun pubkey =>
    keySig ops keystore hash nHashType (env.getID pubkey) with hsigs
  have hsigsLen : sigs.length = m + 1 := by
    rw [hsigs, List.length_map, List.length_take, List.length_map]
    omega
  have hsigOf : ∀ vchSig ∈ sigs, ∃ pubkey ∈ keys.map Prod.snd,
      vchSig = keySig ops keystore hash nHashType (env.getID pubkey) := by
    intro vchSig hmem
    obtain ⟨pubkey, hpubkey, rfl⟩ := List.mem_map.mp hmem
    exact ⟨pubkey, List.mem_of_mem_take hpubkey, rfl⟩
  refine ⟨[] :: sigs, ?_, by simp; omega, ?_, fun txTo' hcopy => ?_⟩
  · have hrequired : (UInt8.ofNat (m + 1)).toNat = m + 1 :=
      UInt8.toNat_ofNat_of_lt' (by show m + 1 < 256; omega)
    have hloop := signNLoop_eq hsigner hash nHashType hkeys (Nat.zero_le (m + 1))
      (CScript.pushData [] [])
    rw [Nat.zero_add, Nat.sub_zero, List.length_map, hlength,
      Nat.min_eq_right (Nat.succ_le_succ hm)] at hloop
    simp only [signSolver, hsolver, signN, List.headD_cons, List.tail_cons, List.dropLast_concat,
      hrequired, ← hhash, hloop]
    rw [List.flatMap_cons, beq_self_eq_true]
  · intro arg harg
    rcases List.mem_cons.mp harg with rfl | harg
    · simp
    · obtain ⟨pubkey, hpubkey, rfl⟩ := hsigOf arg harg
      exact keySig_length_le hsigner (hkeys pubkey hpubkey) _ _
  -- no signature is pushed in the script, so it is signed and checked as a whole
  have hself : withoutSigs sigs.reverse code = code := by
    refine withoutSigs_eq_self hreads fun vchSig hvchSig => ?_
    obtain ⟨pubkey, hpubkey, rfl⟩ := hsigOf vchSig (List.mem_reverse.mp hvchSig)
    have hlen := keySig_length_le hsigner (hkeys pubkey hpubkey) hash nHashType
    refine ⟨List.append_ne_nil_of_right_ne_nil _ (List.cons_ne_nil _ _), by omega, fun hmem => ?_⟩
    exact keySig_ne hsigner (hkeys pubkey hpubkey) (hkeys _ hmem) hash nHashType rfl
  have hfound : multisigFound env ⟨txTo', nIn, 0⟩ code sigs.reverse (keys.map Prod.snd).reverse =
      true := by
    -- the last signature is on top, and so is the last key
    rw [multisigFound, hself]
    refine greedy_reverse ?_ (List.take_sublist (m + 1) _)
    rw [hsigs, List.forall₂_map_left_iff]
    exact List.forall₂_same.mpr fun pubkey hpubkey =>
      checkSig_keySig hsigner hcopy htype (hkeys pubkey (List.mem_of_mem_take hpubkey))
  rw [List.reverse_cons, evalScript_multisig hreads hsize hm hn hlength (by simpa using hsigsLen),
    hfound]
  rfl

/-- A pay-to-pubkey script with a held key. -/
theorem solved_pubkey {opcode : ℕ} {pubkey : Valtype} (hsolver : solver code = some (.txPubkey, [pubkey]))
    (hreads : code.Reads [(opcode, pubkey), (opChecksig, [])] [])
    (hsize : isPubkeySize pubkey = true) (hkey : keystore.haveKey (env.getID pubkey) = true) :
    Solved env ops keystore code txTo nIn nHashType .txPubkey
      [keySig ops keystore (signatureHash env.hash code txTo nIn nHashType) nHashType
        (env.getID pubkey)] := by
  have hsize' : 33 ≤ pubkey.length ∧ pubkey.length ≤ 120 := by
    simpa [isPubkeySize] using hsize
  refine ⟨?_, by simp, ?_, fun txTo' hcopy => ?_⟩
  · simp only [signSolver, hsolver, List.headD_cons, sign1_eq hsigner hkey]
    simp
  · simpa using keySig_length_le hsigner hkey _ nHashType
  have hreads' := hreads
  obtain ⟨pc, hpush, pc', hop, hend⟩ := hreads
  obtain rfl : pc' = [] := hend
  have hne : pubkey ≠ [] := by
    rintro rfl
    simp at hsize'
  have hdelete := findAndDelete_keySig hsigner hkey
    (signatureHash env.hash code txTo nIn nHashType) nHashType hreads' (by simp [hkey])
  refine evalScript_of_reaches (standard_of_solver hsolver).length_le (.head (evalStep_push hpush
    ((CScript.getOp2_data hpush).resolve_right hne) (by omega) (by simp)) (.single
    (evalStep_opChecksig hop (by decide) (by simp) ?_)))
  rw [hdelete]
  exact checkSig_keySig hsigner hcopy htype hkey

include hkeystore

/-- A pay-to-pubkey-hash script with a held key. -/
theorem solved_pubkeyhash {opcode : ℕ} {hash : Valtype}
    (hsolver : solver code = some (.txPubkeyhash, [hash]))
    (hreads : code.Reads [(opDup, []), (opHash160, []), (opcode, hash), (opEqualverify, []),
      (opChecksig, [])] [])
    (hsize : hash.length = 20) (hkey : keystore.haveKey hash = true) :
    ∃ args, Solved env ops keystore code txTo nIn nHashType .txPubkeyhash args := by
  obtain ⟨key, hlookup⟩ := Option.isSome_iff_exists.mp hkey
  have hid : env.getID (ops.getPubKey key) = hash := hkeystore.keys hash key hlookup
  have hpubkey := hsigner.pubKey_length_le hash key hlookup
  refine ⟨[keySig ops keystore (signatureHash env.hash code txTo nIn nHashType) nHashType hash,
    ops.getPubKey key], ?_, by simp, ?_, fun txTo' hcopy => ?_⟩
  · simp only [signSolver, hsolver, List.headD_cons, sign1_eq hsigner hkey, hlookup]
    rw [CScript.pushData_eq]
    simp
  · have := keySig_length_le hsigner hkey
      (signatureHash env.hash code txTo nIn nHashType) nHashType
    simp only [List.mem_cons, List.not_mem_nil, or_false, forall_eq_or_imp, forall_eq]
    exact ⟨this, by omega⟩
  have hreads' := hreads
  obtain ⟨pc1, hop1, pc2, hop2, pc3, hop3, pc4, hop4, pc5, hop5, hend⟩ := hreads
  obtain rfl : pc5 = [] := hend
  have hne : hash ≠ [] := by
    rintro rfl
    cases hsize
  have hdelete := findAndDelete_keySig hsigner hkey
    (signatureHash env.hash code txTo nIn nHashType) nHashType hreads' (by simp [hkey])
  -- the hash of the public key is the one in the script
  set vchSig := keySig ops keystore (signatureHash env.hash code txTo nIn nHashType) nHashType hash
    with hvchSig
  have hhash : EvalStep env ⟨txTo', nIn, 0⟩
      (frame code pc1 [ops.getPubKey key, ops.getPubKey key, vchSig] 1)
      (frame code pc2 [hash, ops.getPubKey key, vchSig] 2) := by
    rw [← hid]
    exact evalStep_opHash160 hop2 (by decide) (by simp)
  refine evalScript_of_reaches (k := 4) (standard_of_solver hsolver).length_le (.head (evalStep_opDup hop1
    (by decide) (by simp)) (.head hhash (.head (evalStep_push hop3
    ((CScript.getOp2_data hop3).resolve_right hne) (by omega) (by simp)) (.head
    (evalStep_opEqualverify hop4 (by decide) (by simp)) (.single
    (evalStep_opChecksig hop5 (by decide) (by simp) ?_))))))
  rw [hdelete, hvchSig, ← hid]
  exact checkSig_keySig hsigner hcopy htype (hid ▸ hkey)

/-- A script that is mine without a redeem script is solved. -/
theorem exists_solved {type : TxnOutType} {vSolutions : List Valtype} {nFuel : ℕ}
    (hsolver : solver code = some (type, vSolutions)) (hplain : type ≠ .txScripthash)
    (hmine : isMine env keystore nFuel code = some true) :
    ∃ args, Solved env ops keystore code txTo nIn nHashType type args := by
  cases nFuel with
  | zero => cases hmine
  | succ nFuel =>
    rw [isMine, hsolver] at hmine
    cases standard_of_solver hsolver with
    | pubkey hreads hsize =>
      exact ⟨_, solved_pubkey hsigner htype hsolver hreads hsize (Option.some.inj hmine)⟩
    | pubkeyhash hreads hsize =>
      exact solved_pubkeyhash hsigner hkeystore htype hsolver hreads hsize (Option.some.inj hmine)
    | scripthash => exact absurd rfl hplain
    | @multisig m n vchM vchN keys hreads hkeys hm hn hlength =>
      refine solved_multisig hsigner htype hsolver hreads hkeys hm hn hlength ?_
      simp only [List.tail_cons, List.dropLast_concat, Option.some.injEq, beq_iff_eq, haveKeys,
        List.countP_eq_length] at hmine
      exact hmine

omit hsigner hkeystore htype

/-! ## Verification -/

variable {ctx : SigContext} {args : List Valtype} {stack : Stack}

/-- A script of pushes leaves the data. -/
theorem evalScript_pushes (hcount : args.length ≤ 18) (hsmall : ∀ arg ∈ args, arg.length ≤ 520) :
    (evalScript env ctx [] (args.flatMap (CScript.pushData []))).result = .ok args.reverse := by
  obtain ⟨reads, rfl, hdata, hreads⟩ := CScript.reads_pushes args
    (fun arg harg => by have := hsmall arg harg; omega) []
  rw [List.append_nil] at hreads
  have hsmall' : ∀ p ∈ reads, p.2.length ≤ 520 := fun p hp =>
    hsmall p.2 (List.mem_map_of_mem hp)
  rw [List.length_map] at hcount
  have hlen := hreads.length_le hsmall'
  have := evalReaches_pushes env ctx ((reads.map Prod.snd).flatMap (CScript.pushData [])) 0 [] hreads
    (fun p hp => ⟨hdata p hp, hsmall' p hp⟩) (by simp; omega)
  rw [List.append_nil] at this
  rw [List.length_nil, Nat.add_zero] at hlen
  exact evalScript_of_reaches (by omega) this

/-- Scripts of pushes are push-only. -/
theorem isPushOnly_of_reads {s : CScript} {reads : List (ℕ × Valtype)} (hreads : s.Reads reads [])
    (hdata : ∀ p ∈ reads, p.1 ≤ opPushdata4) : s.isPushOnly = true := by
  have hscan : ∀ (nFuel : ℕ) (data : Valtype) (s : CScript) (reads : List (ℕ × Valtype)),
      s.Reads reads [] → (∀ p ∈ reads, p.1 ≤ opPushdata4) →
        (CScript.lastPush nFuel data s).isSome = true := by
    intro nFuel
    induction nFuel with
    | zero => exact fun _ _ _ _ _ => rfl
    | succ nFuel ih =>
      intro data s reads hreads hdata
      rw [CScript.lastPush]
      cases reads with
      | nil =>
        rw [show s = [] from hreads]
        rfl
      | cons p reads =>
        obtain ⟨pc, hop, hrest⟩ := hreads
        split_ifs
        · rfl
        · have hlow : ¬op16 < p.1 := by
            have := hdata p List.mem_cons_self
            rw [opPushdata4] at this
            rw [op16]
            omega
          rw [hop]
          dsimp only
          rw [if_neg hlow]
          exact ih p.2 pc reads hrest fun q hq => hdata q (List.mem_cons_of_mem p hq)
  exact hscan _ _ s reads hreads hdata

theorem isPushOnly_pushes (hsmall : ∀ arg ∈ args, arg.length ≤ 520) :
    CScript.isPushOnly (args.flatMap (CScript.pushData [])) = true := by
  obtain ⟨reads, rfl, hdata, hreads⟩ := CScript.reads_pushes args
    (fun arg harg => by have := hsmall arg harg; omega) []
  rw [List.append_nil] at hreads
  exact isPushOnly_of_reads hreads hdata

/-- A pay-to-script-hash output hashes, pushes the hash and compares. -/
theorem reads_p2sh {s : CScript} (h : s.isPayToScriptHash = true) :
    s.Reads [(opHash160, []), (20, (s.drop 2).take 20), (opEqual, [])] [] := by
  simp only [CScript.isPayToScriptHash, Bool.and_eq_true, beq_iff_eq] at h
  obtain ⟨⟨⟨hlen, h0⟩, h1⟩, h22⟩ := h
  obtain _ | ⟨b0, _ | ⟨b1, rest⟩⟩ := s
  · cases hlen
  · cases hlen
  simp only [List.length_cons] at hlen
  rw [List.getD_cons_zero] at h0
  rw [List.getD_cons_succ, List.getD_cons_zero] at h1
  rw [List.getD_cons_succ, List.getD_cons_succ] at h22
  have hsplit : rest = rest.take 20 ++ [rest.getD 20 0] := by
    conv_lhs => rw [← List.take_append_drop 20 rest]
    congr 1
    rw [List.drop_eq_getElem_cons (by omega), List.getD_eq_getElem _ _ (by omega),
      List.drop_eq_nil_of_le (by omega)]
  refine ⟨b1 :: rest, by rw [CScript.getOp2_cons (by rw [h0]; decide), h0], [rest.getD 20 0], ?_,
    [], by rw [CScript.getOp2_cons (by rw [h22]; decide), h22], rfl⟩
  rw [CScript.getOp2, h1]
  simp only [List.drop_succ_cons, List.drop_zero]
  have hsize : CScript.getPushSize 20 rest = some (20, rest) := rfl
  have hdrop : rest.drop 20 = [rest.getD 20 0] := by
    conv_lhs => rw [hsplit]
    rw [List.drop_left' (by rw [List.length_take]; omega)]
  rw [if_pos (by decide), hsize]
  dsimp only
  rw [if_neg (by omega), hdrop]

/-- The first run of a pay-to-script-hash output, on the redeem script with the right hash. -/
theorem evalScript_p2sh {s subscript : CScript} (h : s.isPayToScriptHash = true)
    (hid : env.getID subscript = (s.drop 2).take 20) (hroom : stack.length < 900) :
    (evalScript env ctx (subscript :: stack) s).result = .ok (vchTrue :: stack) := by
  have hlen : s.length = 23 := by
    simp only [CScript.isPayToScriptHash, Bool.and_eq_true, beq_iff_eq] at h
    exact h.1.1.1
  have hsize : ((s.drop 2).take 20).length = 20 := by
    rw [List.length_take, List.length_drop]
    omega
  obtain ⟨pc1, hop1, pc2, hop2, pc3, hop3, hend⟩ := reads_p2sh h
  obtain rfl : pc3 = [] := hend
  have hhash : EvalStep env ctx (frame s s (subscript :: stack) 0)
      (frame s pc1 ((s.drop 2).take 20 :: stack) 1) := by
    rw [← hid]
    exact evalStep_opHash160 hop1 (by decide) (by omega)
  exact evalScript_of_reaches (k := 2) (by omega) (.head hhash (.head (evalStep_push hop2 (by decide)
    (by omega) (by simp; omega)) (.single (evalStep_opEqual hop3 (by decide) (by omega)))))

/-- An output of another type is verified by the run of its script. -/
theorem verifyScript_plain {scriptSig : CScript} {stackCopy : Stack}
    (hsig : (evalScript env ctx [] scriptSig).result = .ok stackCopy)
    (hpub : (evalScript env ctx stackCopy scriptPubKey).result = .ok (vchTrue :: stack))
    (hplain : scriptPubKey.isPayToScriptHash = false) :
    verifyScript env ctx scriptSig scriptPubKey true = .ok true := by
  have htrue : castToBool vchTrue = true := by decide
  simp [verifyScript, hsig, hpub, hplain, stackBack, stacktop, bind, Except.bind, htrue]

/-- A pay-to-script-hash output is verified by the run of its redeem script as well. -/
theorem verifyScript_redeem {scriptSig redeem : CScript} {rest stack' : Stack}
    (hsig : (evalScript env ctx [] scriptSig).result = .ok (redeem :: rest))
    (hpub : (evalScript env ctx (redeem :: rest) scriptPubKey).result = .ok (vchTrue :: stack))
    (hp2sh : scriptPubKey.isPayToScriptHash = true) (hpush : scriptSig.isPushOnly = true)
    (hredeem : (evalScript env ctx rest redeem).result = .ok (vchTrue :: stack')) :
    verifyScript env ctx scriptSig scriptPubKey true = .ok true := by
  have htrue : castToBool vchTrue = true := by decide
  simp [verifyScript, hsig, hpub, hp2sh, hpush, hredeem, stackBack, stacktop, popstack, bind,
    Except.bind, htrue]

/-! ## Mine and spendable -/

/-- The signer handles the script: a redeem script for it in the store can be pushed, and is no
pay-to-script-hash script itself. -/
def Signable (keystore : KeyStore Key) (scriptPubKey : CScript) : Prop :=
  scriptPubKey.isPayToScriptHash = true → ∀ redeem : CScript,
    keystore.mapScripts.lookup ((scriptPubKey.drop 2).take 20) = some redeem →
      redeem.length ≤ 520 ∧ redeem.isPayToScriptHash = false

theorem solver_p2sh {s : CScript} (h : s.isPayToScriptHash = true) :
    solver s = some (.txScripthash, [(s.drop 2).take 20]) := by
  rw [solver, if_pos h]

theorem isPayToScriptHash_of_solver {s : CScript} {type : TxnOutType} {vSolutions : List Valtype}
    (h : solver s = some (type, vSolutions)) :
    s.isPayToScriptHash = true ↔ type = .txScripthash := by
  constructor
  · intro hp2sh
    rw [solver_p2sh hp2sh] at h
    cases h
    rfl
  · rintro rfl
    cases standard_of_solver h with
    | scripthash hp2sh => exact hp2sh

/-- A script that is mine has a type. -/
theorem exists_solver_of_isMine {nFuel : ℕ} (hmine : isMine env keystore nFuel code = some true) :
    ∃ type vSolutions, solver code = some (type, vSolutions) := by
  cases nFuel with
  | zero => cases hmine
  | succ nFuel =>
    rw [isMine] at hmine
    cases hsolver : solver code with
    | none =>
      rw [hsolver] at hmine
      cases hmine
    | some p => exact ⟨p.1, p.2, rfl⟩

/-- A pay-to-script-hash script that is mine has a redeem script that is mine. -/
theorem exists_redeem_of_isMine {nFuel : ℕ} (hp2sh : scriptPubKey.isPayToScriptHash = true)
    (hmine : isMine env keystore nFuel scriptPubKey = some true) :
    ∃ redeem, keystore.mapScripts.lookup ((scriptPubKey.drop 2).take 20) = some redeem ∧
      ∃ nFuel, isMine env keystore nFuel redeem = some true := by
  cases nFuel with
  | zero => cases hmine
  | succ nFuel =>
    simp only [isMine, solver_p2sh hp2sh, List.headD_cons] at hmine
    cases hlookup : keystore.mapScripts.lookup ((scriptPubKey.drop 2).take 20) with
    | none =>
      rw [hlookup] at hmine
      cases hmine
    | some redeem =>
      rw [hlookup] at hmine
      exact ⟨redeem, rfl, nFuel, hmine⟩

/-- The signer on an output of another type. -/
theorem signSignature_plain {type : TxnOutType} {args : List Valtype} (hplain : type ≠ .txScripthash)
    (h : Solved env ops keystore code txTo nIn nHashType type args) :
    signSignature env ops keystore code txTo nIn nHashType =
      (testSolution env code (txTo.setScriptSig nIn (args.flatMap (CScript.pushData []))) nIn
        (args.flatMap (CScript.pushData [])),
        txTo.setScriptSig nIn (args.flatMap (CScript.pushData []))) := by
  have hne : some type ≠ some TxnOutType.txScripthash := fun h => hplain (Option.some.inj h)
  simp only [signSignature, h.solver, Bool.not_true, Bool.false_eq_true, if_false, if_neg hne]

/-- The signer on a pay-to-script-hash output: it signs the redeem script, with the `scriptSig` of
the input replaced, and pushes it. -/
theorem signSignature_redeem {redeem : CScript} (hp2sh : scriptPubKey.isPayToScriptHash = true)
    (hlookup : keystore.mapScripts.lookup ((scriptPubKey.drop 2).take 20) = some redeem)
    {type : TxnOutType} {args : List Valtype} (hplain : type ≠ .txScripthash)
    (h : Solved env ops keystore redeem (txTo.setScriptSig nIn redeem) nIn nHashType type args) :
    signSignature env ops keystore scriptPubKey txTo nIn nHashType =
      (testSolution env scriptPubKey ((txTo.setScriptSig nIn redeem).setScriptSig nIn
        ((args ++ [redeem]).flatMap (CScript.pushData []))) nIn
          ((args ++ [redeem]).flatMap (CScript.pushData [])),
        (txTo.setScriptSig nIn redeem).setScriptSig nIn
          ((args ++ [redeem]).flatMap (CScript.pushData []))) := by
  have hne : (some type != some TxnOutType.txScripthash) = true :=
    bne_iff_ne.mpr fun h => hplain (Option.some.inj h)
  have hargs : CScript.pushData (args.flatMap (CScript.pushData [])) redeem =
      (args ++ [redeem]).flatMap (CScript.pushData []) := by
    rw [CScript.pushData_eq, List.flatMap_append]
    simp
  simp only [signSignature, signSolver, solver_p2sh hp2sh, List.headD_cons, hlookup, Bool.not_true,
    Bool.false_eq_true, if_false, if_true]
  have hsolver := h.solver
  simp only [signSolver] at hsolver
  simp only [hsolver, hne, Bool.and_self, Bool.not_true, Bool.false_eq_true, if_false, hargs]

theorem setScriptSig_getElem? {scriptSig : CScript} (hnIn : nIn < txTo.vin.length) :
    (txTo.setScriptSig nIn scriptSig).vin[nIn]? =
      some { txTo.vin[nIn] with scriptSig := scriptSig } := by
  rw [CTransaction.setScriptSig, List.getElem?_modify_eq, List.getElem?_eq_getElem hnIn]
  rfl

/-- Signing an output whose script is solved itself: the pushed arguments are accepted. -/
theorem exists_signed_plain {type : TxnOutType} {args : List Valtype}
    (hp2sh : scriptPubKey.isPayToScriptHash = false) (hne : type ≠ .txScripthash)
    (hnIn : nIn < txTo.vin.length)
    (hsolved : Solved env ops keystore scriptPubKey txTo nIn nHashType type args) :
    ∃ txTo' txin, signSignature env ops keystore scriptPubKey txTo nIn nHashType = (true, txTo') ∧
      txTo'.vin[nIn]? = some txin ∧
      verifyScript env ⟨txTo', nIn, 0⟩ txin.scriptSig scriptPubKey true = .ok true := by
  set txTo' := txTo.setScriptSig nIn (args.flatMap (CScript.pushData [])) with htxTo'
  have hsig : (evalScript env ⟨txTo', nIn, 0⟩ [] (args.flatMap (CScript.pushData []))).result =
      .ok args.reverse :=
    evalScript_pushes (hsolved.count_le.trans (by decide)) fun arg harg =>
      (hsolved.small arg harg).trans (by decide)
  have hverify := verifyScript_plain hsig
    (hsolved.accepted txTo' (sameCopy_setScriptSig nIn _ _)) hp2sh
  refine ⟨txTo', { txTo.vin[nIn] with scriptSig := args.flatMap (CScript.pushData []) }, ?_,
    setScriptSig_getElem? hnIn, hverify⟩
  rw [signSignature_plain hne hsolved, testSolution, ← htxTo', hverify]

/-- Signing a pay-to-script-hash output whose redeem script is solved: the arguments and the redeem
script are pushed, and both evaluations accept them. -/
theorem exists_signed_redeem {redeem : CScript} {type : TxnOutType} {args : List Valtype}
    (hkeystore : keystore.Consistent env ops) (hp2sh : scriptPubKey.isPayToScriptHash = true)
    (hlookup : keystore.mapScripts.lookup ((scriptPubKey.drop 2).take 20) = some redeem)
    (hsize : redeem.length ≤ 520) (hne : type ≠ .txScripthash) (hnIn : nIn < txTo.vin.length)
    (hsolved : Solved env ops keystore redeem (txTo.setScriptSig nIn redeem) nIn nHashType type
      args) :
    ∃ txTo' txin, signSignature env ops keystore scriptPubKey txTo nIn nHashType = (true, txTo') ∧
      txTo'.vin[nIn]? = some txin ∧
      verifyScript env ⟨txTo', nIn, 0⟩ txin.scriptSig scriptPubKey true = .ok true := by
  set txTo' := (txTo.setScriptSig nIn redeem).setScriptSig nIn
    ((args ++ [redeem]).flatMap (CScript.pushData [])) with htxTo'
  have hsmall : ∀ arg ∈ args ++ [redeem], arg.length ≤ 520 := by
    intro arg harg
    rcases List.mem_append.mp harg with harg | harg
    · exact (hsolved.small arg harg).trans (by decide)
    · rw [List.mem_singleton.mp harg]
      exact hsize
  have hsig : (evalScript env ⟨txTo', nIn, 0⟩ [] ((args ++ [redeem]).flatMap
      (CScript.pushData []))).result = .ok (redeem :: args.reverse) := by
    rw [evalScript_pushes (by simpa using Nat.lt_succ_of_le hsolved.count_le) hsmall,
      List.reverse_append]
    rfl
  -- the outer script compares the hash of the redeem script and leaves the arguments
  have hpub : (evalScript env ⟨txTo', nIn, 0⟩ (redeem :: args.reverse) scriptPubKey).result =
      .ok (vchTrue :: args.reverse) :=
    evalScript_p2sh hp2sh (hkeystore.scripts _ redeem hlookup) (by
      have := hsolved.count_le
      rw [List.length_reverse]
      omega)
  -- the signature was made with the redeem script in the input, which no hash looks at
  have haccepted := hsolved.accepted txTo' (sameCopy_setScriptSig nIn _ _)
  have hverify := verifyScript_redeem hsig hpub hp2sh (isPushOnly_pushes hsmall) haccepted
  refine ⟨txTo', { txTo.vin[nIn] with
    scriptSig := (args ++ [redeem]).flatMap (CScript.pushData []) }, ?_, ?_, hverify⟩
  · rw [signSignature_redeem hp2sh hlookup hne hsolved, testSolution, ← htxTo', hverify]
  · have hlen : nIn < (txTo.setScriptSig nIn redeem).vin.length := by
      rw [CTransaction.setScriptSig, List.length_modify]
      exact hnIn
    rw [htxTo', setScriptSig_getElem? hlen]
    simp [CTransaction.setScriptSig]

/-- What is mine and handled by the signer can be spent. -/
theorem spendable_of_signable (hsigner : SignerCorrect env ops keystore)
    (hkeystore : keystore.Consistent env ops) {nFuel : ℕ}
    (hmine : isMine env keystore nFuel scriptPubKey = some true)
    (hsignable : Signable keystore scriptPubKey) : Spendable env ops keystore scriptPubKey := by
  intro txTo nIn nHashType hnIn htype
  by_cases hp2sh : scriptPubKey.isPayToScriptHash = true
  · obtain ⟨redeem, hlookup, nFuel', hredeem⟩ := exists_redeem_of_isMine hp2sh hmine
    obtain ⟨hsize, hplain⟩ := hsignable hp2sh redeem hlookup
    obtain ⟨type, vSolutions, hsolver⟩ := exists_solver_of_isMine hredeem
    have hne : type ≠ .txScripthash := fun h => by
      rw [(isPayToScriptHash_of_solver hsolver).mpr h] at hplain
      cases hplain
    obtain ⟨args, hsolved⟩ : ∃ args, Solved env ops keystore redeem
        (txTo.setScriptSig nIn redeem) nIn nHashType type args :=
      exists_solved hsigner hkeystore htype hsolver hne hredeem
    exact exists_signed_redeem hkeystore hp2sh hlookup hsize hne hnIn hsolved
  · obtain ⟨type, vSolutions, hsolver⟩ := exists_solver_of_isMine hmine
    have hne : type ≠ .txScripthash := fun h =>
      hp2sh ((isPayToScriptHash_of_solver hsolver).mpr h)
    obtain ⟨args, hsolved⟩ : ∃ args, Solved env ops keystore scriptPubKey txTo nIn nHashType type
        args :=
      exists_solved hsigner hkeystore htype hsolver hne hmine
    exact exists_signed_plain (Bool.not_eq_true _ ▸ hp2sh) hne hnIn hsolved

/-- The signer refuses a redeem script that is pay-to-script-hash itself. -/
theorem signSignature_nested {redeem : CScript} (hp2sh : scriptPubKey.isPayToScriptHash = true)
    (hlookup : keystore.mapScripts.lookup ((scriptPubKey.drop 2).take 20) = some redeem)
    (hnested : redeem.isPayToScriptHash = true) :
    (signSignature env ops keystore scriptPubKey txTo nIn nHashType).1 = false := by
  simp only [signSignature, signSolver, solver_p2sh hp2sh, List.headD_cons, hlookup, Bool.not_true,
    Bool.false_eq_true, if_false, if_true, solver_p2sh hnested]
  cases keystore.mapScripts.lookup ((redeem.drop 2).take 20) <;> rfl

/-- The push of a redeem script of more than 520 bytes fails. -/
theorem testSolution_large {redeem : CScript}
    (hcount : args.length ≤ 17) (hsmall : ∀ arg ∈ args, arg.length ≤ 73)
    (hlen : redeem.length < 2 ^ 32) (hsize : 520 < redeem.length) :
    testSolution env scriptPubKey txTo nIn ((args ++ [redeem]).flatMap (CScript.pushData [])) =
      false := by
  obtain ⟨reads, hvalues, hdata, hreads⟩ := CScript.reads_pushes args
    (fun arg harg => by have := hsmall arg harg; omega) (CScript.pushData [] redeem ++ [])
  obtain ⟨opcode, -, hop⟩ := CScript.getOp2_pushData hlen []
  have hscript : (args ++ [redeem]).flatMap (CScript.pushData []) =
      args.flatMap (CScript.pushData []) ++ (CScript.pushData [] redeem ++ []) := by
    simp
  rw [← hscript] at hreads
  have hpushes := evalReaches_pushes env ⟨txTo, nIn, 0⟩
    ((args ++ [redeem]).flatMap (CScript.pushData [])) 0 [] hreads (fun p hp => by
      have := hsmall p.2 (hvalues ▸ List.mem_map_of_mem hp)
      exact ⟨hdata p hp, by omega⟩) (by
      rw [← List.length_map (f := Prod.snd), hvalues, List.length_nil]
      omega)
  rw [testSolution, verifyScript, evalScript_of_reaches_large hpushes hop hsize]
  rfl

/-- What is mine and can be spent is handled by the signer. -/
theorem signable_of_spendable (hsigner : SignerCorrect env ops keystore)
    (hkeystore : keystore.Consistent env ops) {nFuel : ℕ}
    (hmine : isMine env keystore nFuel scriptPubKey = some true)
    (hspend : Spendable env ops keystore scriptPubKey) : Signable keystore scriptPubKey := by
  intro hp2sh redeem hlookup
  -- any transaction shows it
  let txTo : CTransaction := ⟨1, [⟨⟨0, 0⟩, [], 0⟩], [], 0⟩
  obtain ⟨txTo', txin, hsign, -⟩ := hspend txTo 0 1 Nat.one_pos (by decide)
  have hplain : redeem.isPayToScriptHash = false := by
    by_contra hnested
    have hfalse : (signSignature env ops keystore scriptPubKey txTo 0 1).1 = false :=
      signSignature_nested hp2sh hlookup (Bool.not_eq_false _ ▸ hnested)
    rw [hsign] at hfalse
    cases hfalse
  refine ⟨?_, hplain⟩
  by_contra hsize
  obtain ⟨redeem', hlookup', nFuel', hredeem⟩ := exists_redeem_of_isMine hp2sh hmine
  cases Option.some.inj (hlookup.symm.trans hlookup')
  obtain ⟨type, vSolutions, hsolver⟩ := exists_solver_of_isMine hredeem
  have hne : type ≠ .txScripthash := fun h => by
    rw [(isPayToScriptHash_of_solver hsolver).mpr h] at hplain
    cases hplain
  obtain ⟨args, hsolved⟩ : ∃ args, Solved env ops keystore redeem (txTo.setScriptSig 0 redeem) 0 1
      type args :=
    exists_solved hsigner hkeystore (by decide) hsolver hne hredeem
  have hlen := (standard_of_solver hsolver).length_le
  rw [signSignature_redeem hp2sh hlookup hne hsolved, testSolution_large hsolved.count_le
    hsolved.small (by omega) (not_le.mp hsize)] at hsign
  cases hsign

/-- **What is mine can be spent exactly when the signer handles it.** `IsMine` looks through any
number of redeem scripts of any size; `SignSignature` refuses a redeem script that is
pay-to-script-hash itself, and makes a push that fails of one above 520 bytes. -/
theorem spendable_iff_signable (hsigner : SignerCorrect env ops keystore)
    (hfilled : keystore.Filled env ops)
    (hmine : ∃ nFuel, isMine env keystore nFuel scriptPubKey = some true) :
    Spendable env ops keystore scriptPubKey ↔ Signable keystore scriptPubKey := by
  have hkeystore := hfilled.consistent
  obtain ⟨nFuel, hmine⟩ := hmine
  exact ⟨signable_of_spendable hsigner hkeystore hmine,
    spendable_of_signable hsigner hkeystore hmine⟩

/-! ## Worked store -/

/-- The public key of the worked store. -/
def examplePubKey : Valtype := List.replicate 65 4

/-- Hashes of one repeated byte; the public key has its own. One signature verifies. -/
def exampleKeyEnv : ScriptEnv where
  ripemd160 vch := Vector.replicate 20 (vch.headD 0)
  sha1 vch := Vector.replicate 20 (vch.headD 0)
  sha256 vch := Vector.replicate 32
    (if vch = examplePubKey then 1 else if vch.headD 0 = 1 then 0 else vch.headD 0)
  verify _ _ vchSig := vchSig == [9]

def exampleKeyOps : KeyOps Unit := ⟨fun _ => examplePubKey, fun _ _ => some [9]⟩

/-- The script that pays to a redeem script. -/
def payToScript (redeemScript : CScript) : CScript :=
  [0xa9, 20] ++ exampleKeyEnv.getID redeemScript ++ [0x87]

/-- One of eight uncompressed keys, in 531 bytes. -/
def exampleMultisig : CScript :=
  [0x51] ++ (List.replicate 8 (65 :: examplePubKey)).flatten ++ [0x58, 0xae]

/-- The store with one key and with the redeem scripts. -/
def exampleKeyStore (redeemScripts : List CScript) : KeyStore Unit :=
  redeemScripts.foldl (KeyStore.addCScript exampleKeyEnv) (KeyStore.empty.addKey exampleKeyEnv
    exampleKeyOps ())

theorem exampleKeyStore_filled (redeemScripts : List CScript) :
    (exampleKeyStore redeemScripts).Filled exampleKeyEnv exampleKeyOps := by
  have hfold : ∀ (keystore : KeyStore Unit), keystore.Filled exampleKeyEnv exampleKeyOps →
      (redeemScripts.foldl (KeyStore.addCScript exampleKeyEnv) keystore).Filled exampleKeyEnv
        exampleKeyOps := by
    induction redeemScripts with
    | nil => exact fun _ h => h
    | cons redeemScript redeemScripts ih => exact fun _ h => ih _ (h.addCScript redeemScript)
  exact hfold _ (.addKey .empty ())

theorem exampleKeyStore_mapKeys (redeemScripts : List CScript) :
    (exampleKeyStore redeemScripts).mapKeys =
      (∅ : StdMap Valtype Unit).insert (List.replicate 20 1) () := by
  have hfold : ∀ (keystore : KeyStore Unit),
      (redeemScripts.foldl (KeyStore.addCScript exampleKeyEnv) keystore).mapKeys =
        keystore.mapKeys := by
    induction redeemScripts with
    | nil => exact fun _ => rfl
    | cons redeemScript redeemScripts ih => exact fun _ => ih _
  rw [exampleKeyStore, hfold]
  rfl

theorem exampleKeyStore_signer (redeemScripts : List CScript) :
    SignerCorrect exampleKeyEnv exampleKeyOps (exampleKeyStore redeemScripts) := by
  have haddress : ∀ address key, (exampleKeyStore redeemScripts).mapKeys.lookup address = some key →
      address = List.replicate 20 1 := by
    intro address key hlookup
    by_contra hne
    rw [exampleKeyStore_mapKeys, Finmap.lookup_insert_of_ne _ hne] at hlookup
    cases hlookup
  refine ⟨fun _ _ _ _ => ⟨[9], rfl⟩, ?_, ?_, ?_, ?_, 
    fun _ _ _ => (by decide : examplePubKey.length ≤ 65)⟩
  · rintro _ _ _ _ _ ⟨⟩
    decide
  · rintro _ _ _ _ _ ⟨⟩
    rfl
  · intro address key pubkey hlookup hid
    rw [haddress address key hlookup] at hid
    by_contra hne
    have hne' : ¬pubkey = examplePubKey := hne
    have hhead : (exampleKeyEnv.getID pubkey).headD 0 = 1 := by
      rw [hid]
      rfl
    have hbyte : (if pubkey.headD 0 = 1 then 0 else pubkey.headD 0) = 1 := by
      simpa [ScriptEnv.getID, ScriptEnv.hash160, exampleKeyEnv, hne'] using hhead
    by_cases hone : pubkey.headD 0 = 1
    · rw [if_pos hone] at hbyte
      cases hbyte
    · rw [if_neg hone] at hbyte
      exact hone hbyte
  · rintro address key hash _ type hlookup ⟨⟩ address' key' hlookup'
    rw [haddress address' key' hlookup']
    exact ⟨fun h => absurd (congrArg List.length h) (by decide : ¬2 = 20),
      fun h => absurd (congrArg List.length h) (by decide : ¬2 = 65)⟩

/-- With the eight-key script and the script that pays to it as redeem scripts, the outputs that pay
to either are mine, and neither can be spent. -/
theorem not_spendable_example :
    let keystore := exampleKeyStore [exampleMultisig, payToScript exampleMultisig]
    SignerCorrect exampleKeyEnv exampleKeyOps keystore ∧
      keystore.Filled exampleKeyEnv exampleKeyOps ∧
      (isMine exampleKeyEnv keystore 3 (payToScript exampleMultisig) = some true ∧
        ¬Spendable exampleKeyEnv exampleKeyOps keystore (payToScript exampleMultisig)) ∧
      isMine exampleKeyEnv keystore 4 (payToScript (payToScript exampleMultisig)) = some true ∧
        ¬Spendable exampleKeyEnv exampleKeyOps keystore
          (payToScript (payToScript exampleMultisig)) := by
  intro keystore
  have hsigner := exampleKeyStore_signer [exampleMultisig, payToScript exampleMultisig]
  have hfilled := exampleKeyStore_filled [exampleMultisig, payToScript exampleMultisig]
  have hmine : isMine exampleKeyEnv keystore 3 (payToScript exampleMultisig) = some true := by
    decide +kernel
  have hmine' : isMine exampleKeyEnv keystore 4 (payToScript (payToScript exampleMultisig)) =
      some true := by
    decide +kernel
  refine ⟨hsigner, hfilled, ⟨hmine, fun hspend => ?_⟩, hmine', fun hspend => ?_⟩
  · have := signable_of_spendable hsigner hfilled.consistent hmine hspend (by decide +kernel)
      exampleMultisig (by decide +kernel)
    exact absurd this.1 (by decide +kernel)
  · have := signable_of_spendable hsigner hfilled.consistent hmine' hspend (by decide +kernel)
      (payToScript exampleMultisig) (by decide +kernel)
    exact absurd this.2 (by decide +kernel)

/-- The hypotheses hold of a redeem script with one key. -/
theorem spendable_iff_signable_key :
    let redeemScript : CScript := 65 :: examplePubKey ++ [0xac]
    Spendable exampleKeyEnv exampleKeyOps (exampleKeyStore [redeemScript])
        (payToScript redeemScript) ↔
      Signable (exampleKeyStore [redeemScript]) (payToScript redeemScript) :=
  spendable_iff_signable (exampleKeyStore_signer _) (exampleKeyStore_filled _)
    ⟨2, by decide +kernel⟩

end FoxCoin
