import FoxCoin.CombineSignatures
import FoxCoin.ConnectInputs
import FoxCoin.Lib.Overlay

/-! # Signing raw transactions

`signrawtransaction` fetches the previous outputs of a transaction, signs the inputs that it knows
the outputs of, and merges the signatures of other variants of the transaction. Fetching stops at
the first input that is missing and leaves an empty entry for it. -/

namespace FoxCoin

open Checked Counting

/-! ## Signing one input -/

/-- The script of an input. -/
def CTransaction.scriptSigAt (tx : CTransaction) (nIn : ℕ) : CScript :=
  (tx.vin[nIn]?.map CTxIn.scriptSig).getD []

variable {Key : Type} {env : ScriptEnv} {ops : KeyOps Key} {keystore : KeyStore Key}
  {scriptPubKey : CScript} {tx tx' : CTransaction} {nIn : ℕ} {nHashType : BitVec 32}

theorem setScriptSig_setScriptSig (tx : CTransaction) (nIn : ℕ) (s s' : CScript) :
    (tx.setScriptSig nIn s).setScriptSig nIn s' = tx.setScriptSig nIn s' := by
  simp only [CTransaction.setScriptSig, List.modify_modify_eq]
  rfl

theorem scriptSigAt_setScriptSig (hnIn : nIn < tx.vin.length) (s : CScript) :
    (tx.setScriptSig nIn s).scriptSigAt nIn = s := by
  rw [CTransaction.scriptSigAt, setScriptSig_getElem? hnIn]
  rfl

/-- `SignSignature` changes the script of its input only, and does not look at the other scripts. -/
theorem exists_signSignature_snd (env : ScriptEnv) (ops : KeyOps Key) (keystore : KeyStore Key)
    (scriptPubKey : CScript) (tx : CTransaction) (nIn : ℕ) (nHashType : BitVec 32) :
    ∃ s, ∀ tx', SameCopy nIn tx tx' →
      (signSignature env ops keystore scriptPubKey tx' nIn nHashType).2 = tx'.setScriptSig nIn s := by
  obtain ⟨r, hr⟩ : ∃ r, signSolver env ops keystore scriptPubKey
    (signatureHash env.hash scriptPubKey tx nIn nHashType) nHashType = r := ⟨_, rfl⟩
  obtain ⟨r2, hr2⟩ : ∃ r2, signSolver env ops keystore r.2.1
    (signatureHash env.hash r.2.1 tx nIn nHashType) nHashType = r2 := ⟨_, rfl⟩
  refine ⟨if r.1 = true ∧ r.2.2 = some .txScripthash then r2.2.1.pushData r.2.1 else r.2.1,
    fun tx' hcopy => ?_⟩
  have hcopy2 : SameCopy nIn tx (tx'.setScriptSig nIn r.2.1) :=
    hcopy.trans (sameCopy_setScriptSig nIn tx' r.2.1)
  simp only [signSignature, hcopy.signatureHash_eq, hr, hcopy2.signatureHash_eq, hr2]
  cases hsolved : r.1 with
  | false => simp
  | true =>
    by_cases htype : r.2.2 = some .txScripthash
    · simp only [htype, and_self, if_true, Bool.not_true, Bool.false_eq_true, if_false,
        setScriptSig_setScriptSig]
      split
      next => rfl
      next => rfl
    · simp [htype]

/-- A script with a single key, or the hash of redeem scripts of the store that are of this kind. -/
def SingleKeyOutput (keystore : KeyStore Key) (scriptPubKey : CScript) : Prop :=
  IsSingleKey scriptPubKey ∨ (scriptPubKey.isPayToScriptHash = true ∧ ∀ redeem : CScript,
    keystore.mapScripts.lookup ((scriptPubKey.drop 2).take 20) = some redeem → IsSingleKey redeem)

theorem testSolution_eq_true {scriptSig : CScript} :
    testSolution env scriptPubKey tx nIn scriptSig = true ↔
      verifyScript env ⟨tx, nIn, 0⟩ scriptSig scriptPubKey true = .ok true := by
  rw [testSolution]
  cases verifyScript env ⟨tx, nIn, 0⟩ scriptSig scriptPubKey true with
  | error e => simp
  | ok b => simp

/-- What is verified was evaluated. -/
theorem exists_evalScript_of_verifyScript {ctx : SigContext} {scriptSig : CScript}
    (h : verifyScript env ctx scriptSig scriptPubKey true = .ok true) :
    ∃ stack, (evalScript env ctx [] scriptSig).result = .ok stack := by
  rw [verifyScript] at h
  cases heval : (evalScript env ctx [] scriptSig).result with
  | error e =>
    rw [heval] at h
    cases h
  | ok stack => exact ⟨stack, rfl⟩

/-- The stack of a script of pushes. -/
theorem scriptStack_pushes (left : CScript → Stack) {args : List Valtype} (hcount : args.length ≤ 18)
    (hsmall : ∀ arg ∈ args, arg.length ≤ 520) :
    scriptStack env left (args.flatMap (CScript.pushData [])) = args.reverse := by
  rw [scriptStack, evalScript_pushes hcount hsmall]

/-- What the signer accepted of its own is accepted in the transaction as it was. -/
theorem verifyScript_of_testSolution {s : CScript}
    (h : testSolution env scriptPubKey (tx.setScriptSig nIn s) nIn s = true) :
    verifyScript env ⟨tx, nIn, 0⟩ s scriptPubKey true = .ok true := by
  rw [testSolution_eq_true,
    verifyScript_congr ((sameCopy_setScriptSig nIn tx s).checkSig_eq 0)] at h
  exact h

theorem combineSignatures_signSignature_key (hkey : IsSingleKey scriptPubKey)
    (hsign : (signSignature env ops keystore scriptPubKey tx nIn nHashType).1 = true) :
    ∃ s, (signSignature env ops keystore scriptPubKey tx nIn nHashType).2 = tx.setScriptSig nIn s ∧
      verifyScript env ⟨tx, nIn, 0⟩ s scriptPubKey true = .ok true ∧
      ∀ ctx left s2, combineSignatures env ctx left scriptPubKey s s2 = s := by
  obtain ⟨⟨fSolved, scriptSig, whichType⟩, hsolver⟩ : ∃ r, signSolver env ops keystore scriptPubKey
    (signatureHash env.hash scriptPubKey tx nIn nHashType) nHashType = r := ⟨_, rfl⟩
  cases fSolved with
  | false => simp [signSignature, hsolver] at hsign
  | true =>
    obtain ⟨args, hfirst, hcount, rfl, htype⟩ := signSolver_singleKey hkey hsolver
    simp only [signSignature, hsolver, if_neg htype, Bool.not_true, Bool.false_eq_true, if_false]
      at hsign ⊢
    have hok := verifyScript_of_testSolution hsign
    obtain ⟨stack, hstack⟩ := exists_evalScript_of_verifyScript hok
    have hsmall := small_of_evalScript_pushes (by omega) hstack
    refine ⟨_, rfl, hok, fun ctx left s2 => ?_⟩
    rw [combineSignatures, scriptStack_pushes left (by omega) hsmall,
      combineStacks_singleKey hkey hfirst]

theorem combineSignatures_signSignature_redeem (hp2sh : scriptPubKey.isPayToScriptHash = true)
    (hredeem : ∀ redeem : CScript, keystore.mapScripts.lookup ((scriptPubKey.drop 2).take 20) =
      some redeem → IsSingleKey redeem)
    (hsign : (signSignature env ops keystore scriptPubKey tx nIn nHashType).1 = true) :
    ∃ s, (signSignature env ops keystore scriptPubKey tx nIn nHashType).2 = tx.setScriptSig nIn s ∧
      verifyScript env ⟨tx, nIn, 0⟩ s scriptPubKey true = .ok true ∧
      ∀ ctx left s2, combineSignatures env ctx left scriptPubKey s s2 = s := by
  cases hlookup : keystore.mapScripts.lookup ((scriptPubKey.drop 2).take 20) with
  | none => simp [signSignature, signSolver, solver_p2sh hp2sh, hlookup] at hsign
  | some redeem =>
    have hkey := hredeem redeem hlookup
    obtain ⟨⟨fSolved2, scriptSig2, subType⟩, hsolver2⟩ : ∃ r, signSolver env ops keystore redeem
      (signatureHash env.hash redeem (tx.setScriptSig nIn redeem) nIn nHashType) nHashType = r :=
        ⟨_, rfl⟩
    -- the outer script is solved by its redeem script, which the signer then signs for
    have hresult : signSolver env ops keystore scriptPubKey
        (signatureHash env.hash scriptPubKey tx nIn nHashType) nHashType =
          (true, redeem, some .txScripthash) := by
      simp [signSolver, solver_p2sh hp2sh, hlookup]
    cases fSolved2 with
    | false => simp [signSignature, hresult, hsolver2] at hsign
    | true =>
      obtain ⟨args, hfirst, hcount, rfl, htype⟩ := signSolver_singleKey hkey hsolver2
      have hargs : CScript.pushData (args.flatMap (CScript.pushData [])) redeem =
          (args ++ [redeem]).flatMap (CScript.pushData []) := by
        rw [CScript.pushData_eq, List.flatMap_append]
        simp
      have hsub : (subType != some TxnOutType.txScripthash) = true := bne_iff_ne.mpr htype
      simp only [signSignature, hresult, hsolver2, hsub, hargs, setScriptSig_setScriptSig,
        Bool.not_true, Bool.and_self, Bool.false_eq_true, if_false, if_true] at hsign ⊢
      have hok := verifyScript_of_testSolution hsign
      obtain ⟨stack, hstack⟩ := exists_evalScript_of_verifyScript hok
      have hcount' : (args ++ [redeem]).length ≤ 18 := by
        rw [List.length_append, List.length_singleton]
        omega
      have hsmall := small_of_evalScript_pushes hcount' hstack
      refine ⟨_, rfl, hok, fun ctx left s2 => ?_⟩
      rw [combineSignatures, scriptStack_pushes left hcount' hsmall, List.reverse_append]
      exact combineStacks_redeem hp2sh hkey hfirst

/-- **A signature for a single key is not displaced.** -/
theorem combineSignatures_signSignature (hsingle : SingleKeyOutput keystore scriptPubKey)
    (hsign : (signSignature env ops keystore scriptPubKey tx nIn nHashType).1 = true) :
    ∃ s, (signSignature env ops keystore scriptPubKey tx nIn nHashType).2 = tx.setScriptSig nIn s ∧
      verifyScript env ⟨tx, nIn, 0⟩ s scriptPubKey true = .ok true ∧
      ∀ ctx left s2, combineSignatures env ctx left scriptPubKey s s2 = s := by
  obtain hkey | ⟨hp2sh, hredeem⟩ := hsingle
  · exact combineSignatures_signSignature_key hkey hsign
  · exact combineSignatures_signSignature_redeem hp2sh hredeem hsign

/-! ## The call -/

/-- How the call ends without a result: with an error of the interface, or with an index that is out
of range. -/
inductive RpcError where
  | jsonRpcError (code : ℤ) (message : String)
  | outOfRange
  deriving DecidableEq

/-- An object of the second parameter: the strings are `none` when they are not hexadecimal, and the
number is an `int`. -/
structure PrevTxParam where
  txid : Option Uint256
  vout : ℤ
  scriptPubKey : Option CScript
  vout_lt : vout < 2 ^ 31

/-- The parameters of a call, with the key store that is used. -/
structure SignRawCall (Key : Type) where
  txVariants : List CTransaction
  prevTxs : List PrevTxParam
  keystore : KeyStore Key
  strHashType : Option String

/-- The first loop of `FetchInputs`, with the map that it leaves: whether it gets through all
inputs. -/
def fetchLoop (v : ChainView) (txdb : TxIndexMap) : List CTxIn → MapPrevTx → Bool × MapPrevTx
  | [], inputs => (true, inputs)
  | txin :: vin, inputs =>
    match fetchInput v txdb ∅ false false inputs txin with
    | .ok inputs => fetchLoop v txdb vin inputs
    -- the entry has been made before it is looked for
    | .error _ => (false, inputs.insert txin.prevout.hash (⟨CDiskTxPos.setNull, []⟩, CTransaction.empty))

/-- The map that `FetchInputs` leaves, however it returns. -/
def CTransaction.fetchedInputs (v : ChainView) (txdb : TxIndexMap) (tx : CTransaction) : MapPrevTx :=
  if tx.isCoinBase then ∅ else (fetchLoop v txdb tx.vin ∅).2

/-- Copy the previous output of an input. -/
def copyPrevOut (mapPrevTx : MapPrevTx) (mapPrevOut : StdMap COutPoint CScript) (txin : CTxIn) :
    Except RpcError (StdMap COutPoint CScript) :=
  match mapPrevTx.lookup txin.prevout.hash with
  | none => .ok mapPrevOut
  | some (_, txPrev) =>
    match txPrev.vout[txin.prevout.n]? with
    | none => .error .outOfRange
    | some txout => .ok (mapPrevOut.insert txin.prevout txout.scriptPubKey)

/-- Add a previous output that the call gives. -/
def addPrevTx (mapPrevOut : StdMap COutPoint CScript) (p : PrevTxParam) :
    Except RpcError (StdMap COutPoint CScript) :=
  match p.txid with
  | none => .error (.jsonRpcError (-22) "txid must be hexadecimal")
  | some txid =>
    if p.vout < 0 then .error (.jsonRpcError (-22) "vout must be positive")
    else
      match p.scriptPubKey with
      | none => .error (.jsonRpcError (-22) "scriptPubKey must be hexadecimal")
      | some scriptPubKey =>
        let outpoint : COutPoint := ⟨txid, p.vout.toNat⟩
        match mapPrevOut.lookup outpoint with
        | none => .ok (mapPrevOut.insert outpoint scriptPubKey)
        | some scriptPubKey' =>
          if scriptPubKey' ≠ scriptPubKey then
            .error (.jsonRpcError (-22) "Previous output scriptPubKey mismatch:\n")
          else .ok mapPrevOut

/-- `mapSigHashValues`. -/
def mapSigHashValues : List (String × BitVec 32) :=
  [("ALL", 1), ("ALL|ANYONECANPAY", 0x81), ("NONE", 2), ("NONE|ANYONECANPAY", 0x82), ("SINGLE", 3),
    ("SINGLE|ANYONECANPAY", 0x83)]

/-- The hash type of the call, `SIGHASH_ALL` by default. -/
def getHashType : Option String → Except RpcError (BitVec 32)
  | none => .ok 1
  | some strHashType =>
    match mapSigHashValues.lookup strHashType with
    | none => .error (.jsonRpcError (-8) "Invalid sighash param")
    | some nHashType => .ok nHashType

section Call

variable (env : ScriptEnv) (ops : KeyOps Key) (left : CScript → Stack) (v : ChainView)
  (txdb : TxIndexMap) (call : SignRawCall Key)

/-- Merge in the signature of another variant. -/
def mergeVariant (prevPubKey : CScript) (i : ℕ) (mergedTx txv : CTransaction) :
    Except RpcError CTransaction :=
  match txv.vin[i]? with
  | none => .error .outOfRange
  | some txin => .ok (mergedTx.setScriptSig i (combineSignatures env ⟨mergedTx, i, 0⟩ left prevPubKey
      (mergedTx.scriptSigAt i) txin.scriptSig))

/-- Sign one input and merge in the other signatures. The state is the transaction and
`fComplete`. -/
def signInput (mapPrevOut : StdMap COutPoint CScript) (nHashType : BitVec 32)
    (st : CTransaction × Bool) (i : ℕ) : Except RpcError (CTransaction × Bool) :=
  let (mergedTx, fComplete) := st
  match (mergedTx.vin[i]?).bind fun txin => mapPrevOut.lookup txin.prevout with
  | none => .ok (mergedTx, false)
  | some prevPubKey => do
    let mergedTx := (signSignature env ops call.keystore prevPubKey mergedTx i nHashType).2
    let mergedTx ← call.txVariants.foldlM (mergeVariant env left prevPubKey i) mergedTx
    pure (mergedTx, fComplete && testSolution env prevPubKey mergedTx i (mergedTx.scriptSigAt i))

/-- `mapPrevOut`, when it is complete. -/
def prevOuts (tx : CTransaction) : Except RpcError (StdMap COutPoint CScript) := do
  let mapPrevOut ← tx.vin.foldlM (copyPrevOut (tx.fetchedInputs v txdb)) ∅
  call.prevTxs.foldlM addPrevTx mapPrevOut

/-- `signrawtransaction`: the signed transaction, and whether it is complete. -/
def signRawTransaction : Except RpcError (CTransaction × Bool) :=
  match call.txVariants with
  | [] => .error (.jsonRpcError (-22) "Missing transaction")
  | tx :: _ => do
    let mapPrevOut ← prevOuts v txdb call tx
    let nHashType ← getHashType call.strHashType
    (List.range tx.vin.length).foldlM (signInput env ops left call mapPrevOut nHashType) (tx, true)

end Call

/-! ## What is fetched -/

variable {v : ChainView} {txdb : TxIndexMap} {inputs : MapPrevTx} {txin : CTxIn}

/-- The previous transaction: on disk when it is in the index, and in the pool otherwise. -/
def lookupPrevTx (v : ChainView) (txdb : TxIndexMap) (hash : Uint256) : Option CTransaction :=
  match txdb.lookup hash with
  | none => v.mapTx.lookup hash
  | some txindex =>
    if txindex.pos = CDiskTxPos.inMemory then v.mapTx.lookup hash
    else v.files.readTx txindex.pos.nFile txindex.pos.nTxPos

/-- A round of `FetchInputs` for a transaction that was not fetched before. -/
theorem fetchInput_cases (hnew : txin.prevout.hash ∉ inputs) :
    (lookupPrevTx v txdb txin.prevout.hash = none ∧
        ∃ r, fetchInput v txdb ∅ false false inputs txin = .error r) ∨
      ∃ txPrev txindex, lookupPrevTx v txdb txin.prevout.hash = some txPrev ∧
        fetchInput v txdb ∅ false false inputs txin =
          .ok (inputs.insert txin.prevout.hash (txindex, txPrev)) := by
  simp only [fetchInput, lookupPrevTx, if_neg hnew, Bool.or_self, Bool.false_and, Bool.false_eq_true,
    if_false, fetchFromPool]
  cases hindex : txdb.lookup txin.prevout.hash with
  | none =>
    cases hpool : v.mapTx.lookup txin.prevout.hash with
    | none => exact .inl ⟨rfl, _, rfl⟩
    | some txPrev => exact .inr ⟨txPrev, _, rfl, rfl⟩
  | some txindex =>
    by_cases hpos : txindex.pos = CDiskTxPos.inMemory
    · simp only [if_pos hpos]
      cases hpool : v.mapTx.lookup txin.prevout.hash with
      | none => exact .inl ⟨rfl, _, rfl⟩
      | some txPrev => exact .inr ⟨txPrev, _, rfl, rfl⟩
    · simp only [if_neg hpos]
      cases hread : v.files.readTx txindex.pos.nFile txindex.pos.nTxPos with
      | none => exact .inl ⟨rfl, _, rfl⟩
      | some txPrev => exact .inr ⟨txPrev, _, rfl, rfl⟩

/-- The entries that were found. -/
def Fetched (v : ChainView) (txdb : TxIndexMap) (inputs : MapPrevTx) : Prop :=
  ∀ hash e, inputs.lookup hash = some e → lookupPrevTx v txdb hash = some e.2

theorem Fetched.insert (h : Fetched v txdb inputs) {hash : Uint256} {txPrev : CTransaction}
    (hlookup : lookupPrevTx v txdb hash = some txPrev) (txindex : CTxIndex) :
    Fetched v txdb (inputs.insert hash (txindex, txPrev)) := by
  intro hash' e he
  rw [Overlay.lookup_insert_eq_ite] at he
  split at he
  next heq =>
    obtain rfl := Option.some.inj he
    rw [heq, hlookup]
  next => exact h hash' e he

/-- What the first loop of `FetchInputs` leaves: every previous transaction, or an empty entry for
the first one that is missing. -/
theorem fetchLoop_cases (h : Fetched v txdb inputs) (vin : List CTxIn) :
    (Fetched v txdb (fetchLoop v txdb vin inputs).2 ∧
        (∀ hash ∈ inputs, hash ∈ (fetchLoop v txdb vin inputs).2) ∧
        ∀ txin ∈ vin, txin.prevout.hash ∈ (fetchLoop v txdb vin inputs).2) ∨
      ∃ txin ∈ vin, lookupPrevTx v txdb txin.prevout.hash = none ∧
        ∃ e, (fetchLoop v txdb vin inputs).2.lookup txin.prevout.hash = some e ∧ e.2.vout = [] := by
  induction vin generalizing inputs with
  | nil => exact .inl ⟨h, fun hash hhash => hhash, fun txin hmem => by cases hmem⟩
  | cons txin vin ih =>
    have hround : (∃ inputs', fetchInput v txdb ∅ false false inputs txin = .ok inputs' ∧
        Fetched v txdb inputs' ∧ (∀ hash ∈ inputs, hash ∈ inputs') ∧ txin.prevout.hash ∈ inputs') ∨
          (lookupPrevTx v txdb txin.prevout.hash = none ∧
            ∃ r, fetchInput v txdb ∅ false false inputs txin = .error r) := by
      by_cases hnew : txin.prevout.hash ∈ inputs
      · exact .inl ⟨inputs, by rw [fetchInput, if_pos hnew], h, fun _ hhash => hhash, hnew⟩
      · obtain hmissing | ⟨txPrev, txindex, hlookup, hok⟩ := fetchInput_cases hnew
        · exact .inr hmissing
        · refine .inl ⟨_, hok, h.insert hlookup txindex, fun hash hhash => ?_, ?_⟩
          · exact Finmap.mem_insert.mpr (.inr hhash)
          · exact Finmap.mem_insert.mpr (.inl rfl)
    obtain ⟨inputs', hok, hfetched, hsub, hself⟩ | ⟨hnone, r, herror⟩ := hround
    · rw [fetchLoop, hok]
      obtain ⟨hall, hold, hmem⟩ | ⟨txin', hmem, hmissing⟩ := ih hfetched
      · refine .inl ⟨hall, fun hash hhash => hold hash (hsub hash hhash), fun txin' hmem' => ?_⟩
        obtain rfl | hmem' := List.mem_cons.mp hmem'
        · exact hold _ hself
        · exact hmem txin' hmem'
      · exact .inr ⟨txin', List.mem_cons_of_mem txin hmem, hmissing⟩
    · rw [fetchLoop, herror]
      exact .inr ⟨txin, List.mem_cons_self, hnone, _, Finmap.lookup_insert _, rfl⟩

/-! ## Previous outputs -/

variable {mapPrevTx : MapPrevTx} {mapPrevOut mapPrevOut' : StdMap COutPoint CScript}

/-- The fetched transactions have the output, with this script. -/
def OutputIn (mapPrevTx : MapPrevTx) (o : COutPoint) (scriptPubKey : CScript) : Prop :=
  ∃ e txout, mapPrevTx.lookup o.hash = some e ∧ e.2.vout[o.n]? = some txout ∧
    txout.scriptPubKey = scriptPubKey

/-- An output that a fetched transaction lacks is read out of range. -/
theorem foldlM_copyPrevOut_error {vin : List CTxIn} (h : ∃ txin ∈ vin, ∃ e,
    mapPrevTx.lookup txin.prevout.hash = some e ∧ e.2.vout.length ≤ txin.prevout.n) :
    vin.foldlM (copyPrevOut mapPrevTx) mapPrevOut = .error .outOfRange := by
  induction vin generalizing mapPrevOut with
  | nil =>
    obtain ⟨txin, hmem, -⟩ := h
    cases hmem
  | cons txin vin ih =>
    rw [List.foldlM_cons]
    have hround : copyPrevOut mapPrevTx mapPrevOut txin = .error .outOfRange ∨
        ∃ m, copyPrevOut mapPrevTx mapPrevOut txin = .ok m ∧
          ∀ e, mapPrevTx.lookup txin.prevout.hash = some e → txin.prevout.n < e.2.vout.length := by
      rw [copyPrevOut]
      cases hlookup : mapPrevTx.lookup txin.prevout.hash with
      | none => exact .inr ⟨_, rfl, fun e he => by cases he⟩
      | some e =>
        obtain ⟨txindex, txPrev⟩ := e
        simp only
        cases hout : txPrev.vout[txin.prevout.n]? with
        | none => exact .inl rfl
        | some txout =>
          refine .inr ⟨_, rfl, fun e he => ?_⟩
          obtain rfl := Option.some.inj he
          exact (List.getElem?_eq_some_iff.mp hout).1
    obtain herror | ⟨m, hok, hrange⟩ := hround
    · rw [herror]
      rfl
    · rw [hok]
      obtain ⟨txin', hmem, e, he, hle⟩ := h
      obtain rfl | hmem := List.mem_cons.mp hmem
      · exact absurd (hrange e he) (not_lt.mpr hle)
      · exact ih ⟨txin', hmem, e, he, hle⟩

/-- Every output that is claimed is copied when the fetched transactions have it. -/
theorem foldlM_copyPrevOut_ok {vin : List CTxIn} (h : ∀ txin ∈ vin, ∀ e,
    mapPrevTx.lookup txin.prevout.hash = some e → txin.prevout.n < e.2.vout.length)
    (hstart : ∀ o s, mapPrevOut.lookup o = some s → OutputIn mapPrevTx o s) :
    ∃ m, vin.foldlM (copyPrevOut mapPrevTx) mapPrevOut = .ok m ∧
      (∀ o s, m.lookup o = some s → OutputIn mapPrevTx o s) ∧ (∀ o ∈ mapPrevOut, o ∈ m) ∧
      ∀ txin ∈ vin, txin.prevout.hash ∈ mapPrevTx → txin.prevout ∈ m := by
  induction vin generalizing mapPrevOut with
  | nil => exact ⟨mapPrevOut, rfl, hstart, fun o ho => ho, fun txin hmem => by cases hmem⟩
  | cons txin vin ih =>
    rw [List.forall_mem_cons] at h
    have hround : ∃ m, copyPrevOut mapPrevTx mapPrevOut txin = .ok m ∧
        (∀ o s, m.lookup o = some s → OutputIn mapPrevTx o s) ∧ (∀ o ∈ mapPrevOut, o ∈ m) ∧
        (txin.prevout.hash ∈ mapPrevTx → txin.prevout ∈ m) := by
      rw [copyPrevOut]
      cases hlookup : mapPrevTx.lookup txin.prevout.hash with
      | none =>
        exact ⟨_, rfl, hstart, fun o ho => ho, fun hmem =>
          absurd hmem (Finmap.lookup_eq_none.mp hlookup)⟩
      | some e =>
        have hout := List.getElem?_eq_getElem (h.1 e hlookup)
        obtain ⟨txindex, txPrev⟩ := e
        simp only at hout ⊢
        rw [hout]
        refine ⟨_, rfl, fun o s hs => ?_, fun o ho => Finmap.mem_insert.mpr (.inr ho),
          fun _ => Finmap.mem_insert.mpr (.inl rfl)⟩
        rw [Overlay.lookup_insert_eq_ite] at hs
        split at hs
        next heq =>
          subst heq
          exact ⟨_, _, hlookup, hout, Option.some.inj hs⟩
        next => exact hstart o s hs
    obtain ⟨m, hok, houtputs, hsub, hself⟩ := hround
    obtain ⟨m', hok', houtputs', hsub', hmem'⟩ := ih h.2 houtputs
    refine ⟨m', by rw [List.foldlM_cons, hok]; exact hok', houtputs', fun o ho => hsub' o (hsub o ho),
      fun txin' hmem hhash => ?_⟩
    obtain rfl | hmem := List.mem_cons.mp hmem
    · exact hsub' _ (hself hhash)
    · exact hmem' txin' hmem hhash

/-- The call gives a script for an outpoint. -/
def PrevTxParam.Gives (p : PrevTxParam) (o : COutPoint) (scriptPubKey : CScript) : Prop :=
  p.txid = some o.hash ∧ p.vout = o.n ∧ p.scriptPubKey = some scriptPubKey

theorem PrevTxParam.Gives.unique {p : PrevTxParam} {o o' : COutPoint} {s s' : CScript}
    (h : p.Gives o s) (h' : p.Gives o' s') : o = o' ∧ s = s' := by
  have hhash : o.hash = o'.hash := Option.some.inj (h.1.symm.trans h'.1)
  have hn : o.n = o'.n := Int.ofNat.inj (h.2.1.symm.trans h'.2.1)
  refine ⟨?_, Option.some.inj (h.2.2.symm.trans h'.2.2)⟩
  obtain ⟨hash, n⟩ := o
  obtain ⟨hash', n'⟩ := o'
  exact congrArg₂ COutPoint.mk hhash hn

/-- What adding a previous output does, when it is not refused. -/
theorem addPrevTx_ok {p : PrevTxParam} (h : addPrevTx mapPrevOut p = .ok mapPrevOut') :
    ∃ o s, p.Gives o s ∧ mapPrevOut'.lookup o = some s ∧
      (∀ s', mapPrevOut.lookup o = some s' → s' = s) ∧
      ∀ o', o' ≠ o → mapPrevOut'.lookup o' = mapPrevOut.lookup o' := by
  rw [addPrevTx] at h
  cases htxid : p.txid with
  | none =>
    rw [htxid] at h
    cases h
  | some txid =>
    simp only [htxid] at h
    split at h
    next => cases h
    next hvout =>
      cases hscript : p.scriptPubKey with
      | none =>
        rw [hscript] at h
        cases h
      | some s =>
        simp only [hscript] at h
        have hgives : p.Gives ⟨txid, p.vout.toNat⟩ s :=
          ⟨htxid, (Int.toNat_of_nonneg (not_lt.mp hvout)).symm, hscript⟩
        refine ⟨_, s, hgives, ?_⟩
        cases hlookup : mapPrevOut.lookup ⟨txid, p.vout.toNat⟩ with
        | none =>
          rw [hlookup] at h
          obtain rfl := Except.ok.inj h
          exact ⟨Finmap.lookup_insert _, fun s' hs' => (by cases hs'),
            fun o' ho' => Finmap.lookup_insert_of_ne _ ho'⟩
        | some s' =>
          simp only [hlookup] at h
          split at h
          next => cases h
          next heq =>
            rw [not_not] at heq
            obtain rfl := Except.ok.inj h
            exact ⟨by rw [hlookup, heq], fun s'' hs'' => (Option.some.inj hs'').symm.trans heq,
              fun _ _ => rfl⟩

/-- The outputs that are known once all given ones are accepted. -/
theorem foldlM_addPrevTx_ok {prevTxs : List PrevTxParam}
    (h : prevTxs.foldlM addPrevTx mapPrevOut = .ok mapPrevOut') :
    (∀ o s, mapPrevOut.lookup o = some s → mapPrevOut'.lookup o = some s) ∧
      (∀ p ∈ prevTxs, ∀ o s, p.Gives o s → mapPrevOut'.lookup o = some s) ∧
      ∀ o s, mapPrevOut'.lookup o = some s →
        mapPrevOut.lookup o = some s ∨ ∃ p ∈ prevTxs, p.Gives o s := by
  induction prevTxs generalizing mapPrevOut with
  | nil =>
    obtain rfl := Except.ok.inj h
    exact ⟨fun o s hs => hs, fun p hp => (by cases hp), fun o s hs => .inl hs⟩
  | cons p prevTxs ih =>
    rw [List.foldlM_cons] at h
    cases hround : addPrevTx mapPrevOut p with
    | error e =>
      rw [hround] at h
      cases h
    | ok m =>
      rw [hround] at h
      obtain ⟨o, s, hgives, hself, hold, hother⟩ := addPrevTx_ok hround
      obtain ⟨hkeep, hgiven, hfrom⟩ := ih h
      refine ⟨fun o' s' hs' => hkeep o' s' ?_, fun q hq o' s' hq' => ?_, fun o' s' hs' => ?_⟩
      · by_cases ho : o' = o
        · subst ho
          rw [hself, hold s' hs']
        · rw [hother o' ho, hs']
      · obtain rfl | hq := List.mem_cons.mp hq
        · obtain ⟨rfl, rfl⟩ := hgives.unique hq'
          exact hkeep _ _ hself
        · exact hgiven q hq o' s' hq'
      · obtain hm | ⟨q, hq, hq'⟩ := hfrom o' s' hs'
        · by_cases ho : o' = o
          · subst ho
            rw [hself] at hm
            obtain rfl := Option.some.inj hm
            exact .inr ⟨p, List.mem_cons_self, hgives⟩
          · rw [hother o' ho] at hm
            exact .inl hm
        · exact .inr ⟨q, List.mem_cons_of_mem p hq, hq'⟩

end FoxCoin
