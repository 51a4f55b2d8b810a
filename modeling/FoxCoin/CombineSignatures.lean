import FoxCoin.SpendMine

/-! # Merging signatures

`CombineSignatures` evaluates two scripts that claim an output and merges the stacks that they
leave. It keeps one of them whole for scripts with a single key, matches signatures to public keys
for multi-signature scripts, and looks through the redeem script of pay-to-script-hash outputs. -/

namespace FoxCoin

open Checked Counting

/-! ## Merging -/

/-- `PushAll`. Stacks are listed from the top. -/
def pushAll (values : Stack) : CScript := values.reverse.flatMap (CScript.pushData [])

/-- The order of `valtype`: lexicographic. -/
def valtypeLe : Valtype → Valtype → Bool
  | [], _ => true
  | _ :: _, [] => false
  | a :: as, b :: bs => decide (a < b) || (decide (a = b) && valtypeLe as bs)

/-- The set `allsigs` of `CombineMultisig`, in its order. -/
def allSigs (sigs1 sigs2 : Stack) : List Valtype :=
  ((sigs1 ++ sigs2).filter fun v => !v.isEmpty).dedup.insertionSort fun a b => valtypeLe a b = true

/-- The public key that a signature is matched to: the first without one that it verifies with. -/
def matchSig (check : Valtype → Valtype → Bool) (pubkeys : List Valtype) (sigs : StdMap Valtype Valtype)
    (sig : Valtype) : StdMap Valtype Valtype :=
  match pubkeys.find? fun pubkey => !decide (pubkey ∈ sigs) && check sig pubkey with
  | none => sigs
  | some pubkey => sigs.insert pubkey sig

/-- `CombineMultisig`, with `CheckSig` on the script as `check`. -/
def combineMultisig (check : Valtype → Valtype → Bool) (vSolutions : List Valtype)
    (sigs1 sigs2 : Stack) : CScript :=
  let nSigsRequired := ((vSolutions.headD []).headD 0).toNat
  let pubkeys := vSolutions.tail.dropLast
  let sigs := (allSigs sigs1 sigs2).foldl (matchSig check pubkeys) ∅
  let merged := (pubkeys.filterMap sigs.lookup).take nSigsRequired
  -- the first element is there for the one that `OP_CHECKMULTISIG` pops too many, and the missing
  -- signatures are empty
  ([] :: merged ++ List.replicate (nSigsRequired - merged.length) []).flatMap (CScript.pushData [])

variable (env : ScriptEnv) (ctx : SigContext)

/-- `CombineSignatures` of two stacks. It takes the type and the solutions that `Solver` leaves, even
where `Solver` fails. -/
def combineStacks (sigs1 : Stack) (scriptPubKey : CScript) (sigs2 : Stack) : CScript :=
  let solved := solverRet [] scriptPubKey
  match solved.typeRet with
  | none =>
    -- nothing is known about this, the bigger one is taken to be correct
    if sigs2.length ≤ sigs1.length then pushAll sigs1 else pushAll sigs2
  | some .txPubkey | some .txPubkeyhash =>
    -- signatures are bigger than placeholders or empty scripts
    if (sigs1.getLast?.getD []).isEmpty then pushAll sigs2 else pushAll sigs1
  | some .txScripthash =>
    match sigs1 with
    | [] => pushAll sigs2
    | spk :: rest1 =>
      if spk.isEmpty then pushAll sigs2
      else
        match sigs2 with
        | [] => pushAll (spk :: rest1)
        | spk2 :: rest2 =>
          if spk2.isEmpty then pushAll (spk :: rest1)
          else CScript.pushData (combineStacks rest1 spk rest2) spk
  | some .txMultisig =>
    combineMultisig (fun sig pubkey => checkSig env ctx sig pubkey scriptPubKey)
      solved.vSolutionsRet sigs1 sigs2
termination_by structural sigs1

/-- The transaction that `CombineSignatures` evaluates scripts for. -/
def CTransaction.empty : CTransaction := ⟨1, [], [], 0⟩

/-- The stack that the evaluation of a script leaves: `left` is what is on it when the script
fails. -/
def scriptStack (left : CScript → Stack) (scriptSig : CScript) : Stack :=
  match (evalScript env ⟨CTransaction.empty, 0, 0⟩ [] scriptSig).result with
  | .ok stack => stack
  | .error _ => left scriptSig

/-- `CombineSignatures`. -/
def combineSignatures (left : CScript → Stack) (scriptPubKey scriptSig1 scriptSig2 : CScript) :
    CScript :=
  combineStacks env ctx (scriptStack env left scriptSig1) scriptPubKey
    (scriptStack env left scriptSig2)

/-! ## What the result depends on -/

variable {env} {ctx ctx' : SigContext} {scriptPubKey scriptSig : CScript} {left : CScript → Stack}

/-- Evaluation sees the transaction through `CheckSig` only. -/
theorem evalLoop_congr (h : checkSig env ctx = checkSig env ctx') (nFuel : ℕ) (s : EvalState) :
    evalLoop env ctx nFuel s = evalLoop env ctx' nFuel s := by
  have hcall : callCheckSig env ctx = callCheckSig env ctx' := by
    funext vchSig vchPubKey scriptCode
    rw [callCheckSig, callCheckSig, h]
  have hexec : OpCode.exec env ctx = OpCode.exec env ctx' := by
    funext opcode s op
    cases op <;> simp only [OpCode.exec, execChecksig, execCheckmultisig, hcall]
  have hstep : evalStep env ctx = evalStep env ctx' := by
    funext s
    simp only [evalStep, execOp, hexec]
  induction nFuel generalizing s with
  | zero => rfl
  | succ nFuel ih => simp only [evalLoop, hstep, ih]

theorem evalScript_congr (h : checkSig env ctx = checkSig env ctx') (stack : Stack) (script : CScript) :
    evalScript env ctx stack script = evalScript env ctx' stack script := by
  simp only [evalScript, evalLoop_congr h]

theorem verifyScript_congr (h : checkSig env ctx = checkSig env ctx') (scriptSig scriptPubKey : CScript)
    (fValidatePayToScriptHash : Bool) :
    verifyScript env ctx scriptSig scriptPubKey fValidatePayToScriptHash =
      verifyScript env ctx' scriptSig scriptPubKey fValidatePayToScriptHash := by
  simp only [verifyScript, evalScript_congr h]

theorem combineStacks_congr (h : checkSig env ctx = checkSig env ctx') (sigs1 : Stack)
    (scriptPubKey : CScript) (sigs2 : Stack) :
    combineStacks env ctx sigs1 scriptPubKey sigs2 = combineStacks env ctx' sigs1 scriptPubKey sigs2 := by
  induction sigs1 generalizing scriptPubKey sigs2 with
  | nil => simp only [combineStacks, h]
  | cons spk rest1 ih =>
    rw [combineStacks.eq_def, combineStacks.eq_def]
    simp only [h, ih]

/-- The same copy is signed, so the same signatures are correct. -/
theorem SameCopy.checkSig_eq {nIn : ℕ} {txTo txTo' : CTransaction} (h : SameCopy nIn txTo txTo')
    (nHashType : BitVec 32) :
    checkSig env ⟨txTo', nIn, nHashType⟩ = checkSig env ⟨txTo, nIn, nHashType⟩ := by
  funext vchSig vchPubKey scriptCode
  simp only [checkSig, h.signatureHash_eq]

theorem SameCopy.combineSignatures_eq {nIn : ℕ} {txTo txTo' : CTransaction} (h : SameCopy nIn txTo txTo')
    (nHashType : BitVec 32) (scriptSig1 scriptSig2 : CScript) :
    combineSignatures env ⟨txTo', nIn, nHashType⟩ left scriptPubKey scriptSig1 scriptSig2 =
      combineSignatures env ⟨txTo, nIn, nHashType⟩ left scriptPubKey scriptSig1 scriptSig2 :=
  combineStacks_congr (h.checkSig_eq nHashType) _ _ _

/-! ## Scripts with a single key -/

variable {Key : Type} {ops : KeyOps Key} {keystore : KeyStore Key} {nHashType : BitVec 32}

/-- A script that asks for one signature. -/
def IsSingleKey (code : CScript) : Prop :=
  ∃ type vSolutions, solver code = some (type, vSolutions) ∧ (type = .txPubkey ∨ type = .txPubkeyhash)

/-- Of two stacks for a single key the first is kept, when it begins with data. -/
theorem combineStacks_singleKey (h : IsSingleKey scriptPubKey) {args : List Valtype}
    (hargs : args.headD [] ≠ []) (sigs2 : Stack) :
    combineStacks env ctx args.reverse scriptPubKey sigs2 = args.flatMap (CScript.pushData []) := by
  obtain ⟨type, vSolutions, hsolver, htype⟩ := h
  have hfirst : (args.reverse.getLast?.getD []).isEmpty = false := by
    rw [List.getLast?_reverse, ← List.headD_eq_head?_getD]
    simpa using hargs
  rw [combineStacks.eq_def, solverRet_success.mpr hsolver]
  obtain rfl | rfl := htype
  · simp only [hfirst, Bool.false_eq_true, if_false, pushAll, List.reverse_reverse]
  · simp only [hfirst, Bool.false_eq_true, if_false, pushAll, List.reverse_reverse]

/-- A redeem script with a single key and its signature are kept. -/
theorem combineStacks_redeem (hp2sh : scriptPubKey.isPayToScriptHash = true) {redeem : CScript}
    (h : IsSingleKey redeem) {args : List Valtype} (hargs : args.headD [] ≠ []) {sigs2 : Stack} :
    combineStacks env ctx (redeem :: args.reverse) scriptPubKey sigs2 =
      (args ++ [redeem]).flatMap (CScript.pushData []) := by
  have hredeem : redeem.isEmpty = false := by
    cases redeem with
    | nil =>
      obtain ⟨type, vSolutions, hsolver, -⟩ := h
      rw [show solver [] = none from by decide] at hsolver
      cases hsolver
    | cons b rest => rfl
  have hall : pushAll (redeem :: args.reverse) = (args ++ [redeem]).flatMap (CScript.pushData []) := by
    rw [pushAll, List.reverse_cons, List.reverse_reverse]
  rw [combineStacks.eq_def, solverRet_success.mpr (solver_p2sh hp2sh)]
  simp only [hredeem, Bool.false_eq_true, if_false]
  cases sigs2 with
  | nil => exact hall
  | cons spk2 rest2 =>
    simp only
    split
    next => exact hall
    next =>
      rw [combineStacks_singleKey h hargs, CScript.pushData_eq, List.flatMap_append]
      simp

/-- The signer pushes a signature first. -/
theorem signSolver_singleKey (h : IsSingleKey scriptPubKey) {hash : Uint256} {type : Option TxnOutType}
    (hsign : signSolver env ops keystore scriptPubKey hash nHashType = (true, scriptSig, type)) :
    ∃ args : List Valtype, args.headD [] ≠ [] ∧ args.length ≤ 2 ∧
      scriptSig = args.flatMap (CScript.pushData []) ∧ type ≠ some .txScripthash := by
  obtain ⟨whichType, vSolutions, hsolver, htype⟩ := h
  rw [signSolver, hsolver] at hsign
  obtain rfl | rfl := htype
  · cases hkey : (keystore.mapKeys.lookup (env.getID (vSolutions.headD []))).bind
      fun key => ops.sign key hash with
    | none => simp [sign1, hkey] at hsign
    | some vchSig =>
      simp only [sign1, hkey, Prod.mk.injEq, true_and] at hsign
      obtain ⟨rfl, rfl⟩ := hsign
      exact ⟨[vchSig ++ [UInt8.ofNat nHashType.toNat]], by simp, by simp, by simp, by simp⟩
  · cases hkey : (keystore.mapKeys.lookup (vSolutions.headD [])).bind fun key => ops.sign key hash with
    | none => simp [sign1, hkey] at hsign
    | some vchSig =>
      simp only [sign1, hkey, Prod.mk.injEq, true_and] at hsign
      obtain ⟨rfl, rfl⟩ := hsign
      exact ⟨[vchSig ++ [UInt8.ofNat nHashType.toNat], _], by simp, by simp,
        by rw [CScript.pushData_eq]; simp; rfl, by simp⟩

theorem length_le_pushData (arg : Valtype) : arg.length ≤ (CScript.pushData [] arg).length := by
  unfold CScript.pushData
  split_ifs <;> simp only [List.length_append, List.length_cons, List.length_nil] <;> omega

/-- Pushes that are evaluated are not too large. -/
theorem small_of_evalScript_pushes {args : List Valtype} {stack : Stack} (hcount : args.length ≤ 18)
    (h : (evalScript env ctx [] (args.flatMap (CScript.pushData []))).result = .ok stack) :
    ∀ arg ∈ args, arg.length ≤ 520 := by
  have hscript : (args.flatMap (CScript.pushData [])).length ≤ 10000 := by
    by_contra hlen
    rw [evalScript, bind_result, lift_result, decide_eq_false hlen] at h
    cases h
  by_contra hlarge
  push Not at hlarge
  cases hfind : args.find? fun arg => decide (520 < arg.length) with
  | none =>
    obtain ⟨arg, harg, hsize⟩ := hlarge
    exact List.find?_eq_none.mp hfind arg harg (decide_eq_true hsize)
  | some arg =>
    -- the pushes before the first large one are done
    obtain ⟨hsize, before, after, rfl, hbefore⟩ := List.find?_eq_some_iff_append.mp hfind
    rw [decide_eq_true_eq] at hsize
    have hsmall : ∀ b ∈ before, b.length ≤ 520 := fun b hb => by
      simpa using hbefore b hb
    have harg : arg.length < 2 ^ 32 := by
      rw [List.flatMap_append, List.flatMap_cons, List.length_append, List.length_append] at hscript
      have hpush := length_le_pushData arg
      omega
    obtain ⟨reads, rfl, hdata, hreads⟩ := CScript.reads_pushes before
      (fun b hb => by have := hsmall b hb; omega)
      (CScript.pushData [] arg ++ after.flatMap (CScript.pushData []))
    obtain ⟨opcode, -, hop⟩ := CScript.getOp2_pushData harg (after.flatMap (CScript.pushData []))
    have hpushes := evalReaches_pushes env ctx
      ((reads.map Prod.snd ++ arg :: after).flatMap (CScript.pushData [])) 0 [] hreads
      (fun p hp => ⟨hdata p hp, hsmall p.2 (List.mem_map_of_mem hp)⟩) (by
        rw [List.length_append, List.length_map] at hcount
        rw [List.length_nil]
        omega)
    rw [← List.flatMap_cons, ← List.flatMap_append] at hpushes
    rw [evalScript_of_reaches_large hpushes hop hsize] at h
    cases h

end FoxCoin
