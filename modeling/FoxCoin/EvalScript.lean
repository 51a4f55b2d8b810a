import FoxCoin.Lib.Counted
import FoxCoin.SignatureHash
import FoxCoin.StackOps

/-! # The script interpreter

`EvalScript` runs a script on a stack, one operation after the other; `VerifyScript` runs the
`scriptSig`, the `scriptPubKey` and for pay-to-script-hash outputs the redeem script. Next to its
result an evaluation has the number of its `CheckSig` calls. -/

namespace FoxCoin

open Checked Counting Wire

/-! ## Opcodes -/

/-- `OP_IF`. -/
def opIf : ℕ := 0x63
/-- `OP_ENDIF`. -/
def opEndif : ℕ := 0x68
/-- `OP_1NEGATE`. -/
def op1negate : ℕ := 0x4f
/-- `OP_NOP1`. -/
def opNop1 : ℕ := 0xb0
/-- `OP_NOP10`. -/
def opNop10 : ℕ := 0xb9

/-- The operations that are disabled wherever they stand. -/
def disabledOpcodes : List ℕ :=
  -- `OP_CAT`, `OP_SUBSTR`, `OP_LEFT`, `OP_RIGHT`
  [0x7e, 0x7f, 0x80, 0x81,
    -- `OP_INVERT`, `OP_AND`, `OP_OR`, `OP_XOR`
    0x83, 0x84, 0x85, 0x86,
    -- `OP_2MUL`, `OP_2DIV`, `OP_MUL`, `OP_DIV`, `OP_MOD`, `OP_LSHIFT`, `OP_RSHIFT`
    0x8d, 0x8e, 0x95, 0x96, 0x97, 0x98, 0x99]

/-- The cases of the switch over the opcode. -/
inductive OpCode where
  /-- `OP_1NEGATE` and `OP_1` to `OP_16`. -/
  | opN
  /-- `OP_NOP` and `OP_NOP1` to `OP_NOP10`. -/
  | opNop
  /-- `OP_IF`, and `OP_NOTIF`. -/
  | opIf (fNot : Bool)
  | opElse | opEndif | opReturn | opToaltstack | opFromaltstack
  | opStack (op : StackOp)
  | opCodeseparator
  /-- `OP_CHECKSIG`, and `OP_CHECKSIGVERIFY`. -/
  | opChecksig (fVerify : Bool)
  /-- `OP_CHECKMULTISIG`, and `OP_CHECKMULTISIGVERIFY`. -/
  | opCheckmultisig (fVerify : Bool)
  deriving DecidableEq, Repr

/-- The cases from `OP_NOP` on. -/
def opTable : List (ℕ × OpCode) :=
  [(0x61, .opNop), (0x63, .opIf false), (0x64, .opIf true), (0x67, .opElse), (0x68, .opEndif),
    (0x69, .opStack .opVerify), (0x6a, .opReturn),
    (0x6b, .opToaltstack), (0x6c, .opFromaltstack), (0x6d, .opStack .op2drop),
    (0x6e, .opStack .op2dup), (0x6f, .opStack .op3dup), (0x70, .opStack .op2over),
    (0x71, .opStack .op2rot), (0x72, .opStack .op2swap), (0x73, .opStack .opIfdup),
    (0x74, .opStack .opDepth), (0x75, .opStack .opDrop), (0x76, .opStack .opDup),
    (0x77, .opStack .opNip), (0x78, .opStack .opOver), (0x79, .opStack .opPick),
    (0x7a, .opStack .opRoll), (0x7b, .opStack .opRot), (0x7c, .opStack .opSwap),
    (0x7d, .opStack .opTuck), (0x82, .opStack .opSize),
    (0x87, .opStack .opEqual), (0x88, .opStack .opEqualverify),
    (0x8b, .opStack (.opNumeric .op1add)), (0x8c, .opStack (.opNumeric .op1sub)),
    (0x8f, .opStack (.opNumeric .opNegate)), (0x90, .opStack (.opNumeric .opAbs)),
    (0x91, .opStack (.opNumeric .opNot)), (0x92, .opStack (.opNumeric .op0notequal)),
    (0x93, .opStack (.opNumeric2 .opAdd)), (0x94, .opStack (.opNumeric2 .opSub)),
    (0x9a, .opStack (.opNumeric2 .opBooland)), (0x9b, .opStack (.opNumeric2 .opBoolor)),
    (0x9c, .opStack (.opNumeric2 .opNumequal)), (0x9d, .opStack (.opNumeric2 .opNumequalverify)),
    (0x9e, .opStack (.opNumeric2 .opNumnotequal)), (0x9f, .opStack (.opNumeric2 .opLessthan)),
    (0xa0, .opStack (.opNumeric2 .opGreaterthan)),
    (0xa1, .opStack (.opNumeric2 .opLessthanorequal)),
    (0xa2, .opStack (.opNumeric2 .opGreaterthanorequal)), (0xa3, .opStack (.opNumeric2 .opMin)),
    (0xa4, .opStack (.opNumeric2 .opMax)), (0xa5, .opStack .opWithin),
    (0xa6, .opStack (.opHash .opRipemd160)), (0xa7, .opStack (.opHash .opSha1)),
    (0xa8, .opStack (.opHash .opSha256)), (0xa9, .opStack (.opHash .opHash160)),
    (0xaa, .opStack (.opHash .opHash256)), (0xab, .opCodeseparator),
    (0xac, .opChecksig false), (0xad, .opChecksig true), (0xae, .opCheckmultisig false),
    (0xaf, .opCheckmultisig true)]

/-- The case of an opcode above the pushes of data. Reserved and unknown opcodes have none, and
disabled ones do not reach the switch. -/
def opCase (opcode : ℕ) : Option OpCode :=
  if opcode = op1negate ∨ op1 ≤ opcode ∧ opcode ≤ op16 then some .opN
  else if opNop1 ≤ opcode ∧ opcode ≤ opNop10 then some .opNop
  else opTable.lookup opcode

/-! ## Signatures -/

/-- The transaction, the input and the hash type that signatures are checked for. -/
structure SigContext where
  txTo : CTransaction
  nIn : ℕ
  nHashType : BitVec 32

/-- `Hash`, as a number. -/
def ScriptEnv.hash (env : ScriptEnv) (bytes : List UInt8) : Uint256 :=
  readLE (env.hash256 bytes).toList

/-- `CheckSig`. The signature cache holds only what was verified before, so it changes no answer. -/
def checkSig (env : ScriptEnv) (ctx : SigContext) (vchSig vchPubKey : Valtype)
    (scriptCode : CScript) : Bool :=
  match vchSig.getLast? with
  | none => false
  | some back =>
    -- the hash type is one byte tacked on to the end of the signature
    let back := BitVec.ofNat 32 back.toNat
    let nHashType := if ctx.nHashType = 0 then back else ctx.nHashType
    nHashType == back &&
      env.verify vchPubKey (signatureHash env.hash scriptCode ctx.txTo ctx.nIn nHashType)
        vchSig.dropLast

/-- A counted call of `CheckSig`. -/
def callCheckSig (env : ScriptEnv) (ctx : SigContext) (vchSig vchPubKey : Valtype)
    (scriptCode : CScript) : Counted ScriptError Bool := do
  tick
  pure (checkSig env ctx vchSig vchPubKey scriptCode)

/-- `OP_CHECKSIG` and `OP_CHECKSIGVERIFY`, on the script from the last code separator. -/
def execChecksig (env : ScriptEnv) (ctx : SigContext) (fVerify : Bool) (scriptCode : CScript)
    (stack : Stack) : Counted ScriptError Stack := do
  needs stack 2
  let vchSig ← stacktop stack 2
  let vchPubKey ← stacktop stack 1
  -- there is no way for a signature to sign itself
  let scriptCode := scriptCode.findAndDelete (CScript.pushData [] vchSig)
  let fSuccess ← callCheckSig env ctx vchSig vchPubKey scriptCode
  let stack ← popstack stack
  let stack ← popstack stack
  let stack := vchBool fSuccess :: stack
  if fVerify then verifytop stack else pure stack

/-- The signature loop of `OP_CHECKMULTISIG`, at `stacktop(-isig)` and `stacktop(-ikey)` with the
given numbers of signatures and keys left. -/
def multisigLoop (check : Valtype → Valtype → Counted ScriptError Bool) (stack : Stack) :
    ℕ → ℕ → ℕ → ℕ → Counted ScriptError Bool
  | _, _, 0, _ => pure true
  -- more signatures than keys are left, so too many signatures have failed
  | _, _, _ + 1, 0 => pure false
  | isig, ikey, nSigsCount + 1, nKeysCount + 1 => do
    if nKeysCount + 1 < nSigsCount + 1 then pure false
    else
      let vchSig ← stacktop stack isig
      let vchPubKey ← stacktop stack ikey
      if ← check vchSig vchPubKey then
        multisigLoop check stack (isig + 1) (ikey + 1) nSigsCount nKeysCount
      else multisigLoop check stack isig (ikey + 1) (nSigsCount + 1) nKeysCount

/-- The signatures of `OP_CHECKMULTISIG`, from `stacktop(-isig)` down. -/
def multisigSigs (stack : Stack) (isig nSigsCount : ℕ) : Except ScriptError (List Valtype) :=
  (List.range nSigsCount).mapM fun k => stacktop stack (isig + k)

/-- Pop as often as a count tells. -/
def popstackN : ℕ → Stack → Except ScriptError Stack
  | 0, stack => pure stack
  | i + 1, stack => do popstackN i (← popstack stack)

/-- `OP_CHECKMULTISIG` and `OP_CHECKMULTISIGVERIFY`: the number of operations after counting the
keys, and the stack. -/
def execCheckmultisig (env : ScriptEnv) (ctx : SigContext) (fVerify : Bool) (scriptCode : CScript)
    (nOpCount : ℕ) (stack : Stack) : Counted ScriptError (ℕ × Stack) := do
  needs stack 1
  let nKeys := getint (← castToBigNum (← stacktop stack 1))
  ensure (0 ≤ nKeys && nKeys ≤ 20) ScriptError.returnFalse
  let nKeysCount := nKeys.toNat
  let nOpCount := nOpCount + nKeysCount
  ensure (nOpCount ≤ 201) ScriptError.returnFalse
  let ikey := 2
  let i := ikey + nKeysCount
  needs stack i
  let nSigs := getint (← castToBigNum (← stacktop stack i))
  ensure (0 ≤ nSigs && nSigs ≤ nKeys) ScriptError.returnFalse
  let nSigsCount := nSigs.toNat
  let isig := i + 1
  let i := isig + nSigsCount
  needs stack i
  let vSigs ← multisigSigs stack isig nSigsCount
  -- there is no way for a signature to sign itself
  let scriptCode := vSigs.foldl
    (fun scriptCode vchSig => scriptCode.findAndDelete (CScript.pushData [] vchSig)) scriptCode
  let fSuccess ← multisigLoop (fun vchSig vchPubKey => callCheckSig env ctx vchSig vchPubKey scriptCode)
    stack isig ikey nSigsCount nKeysCount
  let stack ← popstackN i stack
  let stack := vchBool fSuccess :: stack
  let stack ← if fVerify then verifytop stack else pure stack
  pure (nOpCount, stack)

/-! ## Evaluation -/

/-- The variables of `EvalScript`: the script that is left, the script from the last code separator,
the two stacks, whether each open branch is executed, the innermost first, and the number of
operations. -/
structure EvalState where
  pc : CScript
  pbegincodehash : CScript
  stack : Stack
  altstack : Stack
  vfExec : List Bool
  nOpCount : ℕ
  deriving DecidableEq, Repr

/-- No open branch is skipped. -/
def EvalState.fExec (s : EvalState) : Bool := s.vfExec.all id

/-- `OP_IF` and `OP_NOTIF`, which read no value in a skipped branch. -/
def execIf (fNot : Bool) (s : EvalState) : Except ScriptError EvalState := do
  if s.fExec then
    needs s.stack 1
    let vch ← stacktop s.stack 1
    let fValue := if fNot then !castToBool vch else castToBool vch
    let stack ← popstack s.stack
    pure { s with stack := stack, vfExec := fValue :: s.vfExec }
  else pure { s with vfExec := false :: s.vfExec }

/-- One case of the switch over the opcode. -/
def OpCode.exec (env : ScriptEnv) (ctx : SigContext) (opcode : ℕ) (s : EvalState) :
    OpCode → Counted ScriptError EvalState
  | .opN => pure { s with stack := getvch ((opcode : ℤ) - ((op1 : ℤ) - 1)) :: s.stack }
  | .opNop => pure s
  | .opIf fNot => execIf fNot s
  | .opElse => do
    ensure (!s.vfExec.isEmpty) ScriptError.returnFalse
    pure { s with vfExec := s.vfExec.modifyHead not }
  | .opEndif => do
    ensure (!s.vfExec.isEmpty) ScriptError.returnFalse
    pure { s with vfExec := s.vfExec.tail }
  | .opReturn => liftM (.error .returnFalse : Except ScriptError EvalState)
  | .opToaltstack => do
    needs s.stack 1
    let vch ← stacktop s.stack 1
    let stack ← popstack s.stack
    pure { s with stack := stack, altstack := vch :: s.altstack }
  | .opFromaltstack => do
    needs s.altstack 1
    let vch ← stacktop s.altstack 1
    let altstack ← popstack s.altstack
    pure { s with stack := vch :: s.stack, altstack := altstack }
  | .opStack op => do
    let stack ← op.exec env s.stack
    pure { s with stack := stack }
  | .opCodeseparator => pure { s with pbegincodehash := s.pc }
  | .opChecksig fVerify => do
    let stack ← execChecksig env ctx fVerify s.pbegincodehash s.stack
    pure { s with stack := stack }
  | .opCheckmultisig fVerify => do
    let (nOpCount, stack) ←
      execCheckmultisig env ctx fVerify s.pbegincodehash s.nOpCount s.stack
    pure { s with nOpCount := nOpCount, stack := stack }

/-- What the main loop does with an operation once it is read. -/
def execOp (env : ScriptEnv) (ctx : SigContext) (opcode : ℕ) (vchPushValue : Valtype)
    (s : EvalState) : Counted ScriptError EvalState :=
  if s.fExec && opcode ≤ opPushdata4 then pure { s with stack := vchPushValue :: s.stack }
  else if s.fExec || (opIf ≤ opcode && opcode ≤ opEndif) then
    match opCase opcode with
    | none => liftM (.error .returnFalse : Except ScriptError EvalState)
    | some op => op.exec env ctx opcode s
  else pure s

/-- One round of the main loop of `EvalScript`. -/
def evalStep (env : ScriptEnv) (ctx : SigContext) (s : EvalState) : Counted ScriptError EvalState :=
  match s.pc.getOp2 with
  | none => liftM (.error .returnFalse : Except ScriptError EvalState)
  | some (opcode, vchPushValue, pc) => do
    ensure (vchPushValue.length ≤ 520) ScriptError.returnFalse
    let nOpCount := if op16 < opcode then s.nOpCount + 1 else s.nOpCount
    ensure (!(op16 < opcode && 201 < nOpCount)) ScriptError.returnFalse
    ensure (!disabledOpcodes.contains opcode) ScriptError.returnFalse
    let s ← execOp env ctx opcode vchPushValue { s with pc := pc, nOpCount := nOpCount }
    -- size limits
    ensure (s.stack.length + s.altstack.length ≤ 1000) ScriptError.returnFalse
    pure s

/-- The main loop of `EvalScript`. Every round consumes a byte, so the length of the script bounds
their number. -/
def evalLoop (env : ScriptEnv) (ctx : SigContext) : ℕ → EvalState → Counted ScriptError EvalState
  | 0, s => pure s
  | nFuel + 1, s => if s.pc.isEmpty then pure s else do evalLoop env ctx nFuel (← evalStep env ctx s)

/-- The variables at the start of an evaluation. -/
def EvalState.init (stack : Stack) (script : CScript) : EvalState := ⟨script, script, stack, [], [], 0⟩

/-- `EvalScript`: the stack it leaves, or how it ended. Every error, thrown or not, is a `false`. -/
def evalScript (env : ScriptEnv) (ctx : SigContext) (stack : Stack) (script : CScript) :
    Counted ScriptError Stack := do
  ensure (script.length ≤ 10000) ScriptError.returnFalse
  let s ← evalLoop env ctx script.length (.init stack script)
  ensure s.vfExec.isEmpty ScriptError.returnFalse
  pure s.stack

/-- `stack.back()`. -/
def stackBack (stack : Stack) : Except ScriptError Valtype := stacktop stack 1

/-- `VerifyScript`. An error is one outside of `EvalScript`, where nothing catches it. -/
def verifyScript (env : ScriptEnv) (ctx : SigContext) (scriptSig scriptPubKey : CScript)
    (fValidatePayToScriptHash : Bool) : Except ScriptError Bool :=
  match (evalScript env ctx [] scriptSig).result with
  | .error _ => pure false
  | .ok stackCopy =>
    match (evalScript env ctx stackCopy scriptPubKey).result with
    | .error _ => pure false
    | .ok stack => do
      if stack.isEmpty then pure false
      else if castToBool (← stackBack stack) = false then pure false
      else if fValidatePayToScriptHash && scriptPubKey.isPayToScriptHash then
        if !scriptSig.isPushOnly then pure false
        else
          let pubKey2 ← stackBack stackCopy
          let stackCopy ← popstack stackCopy
          match (evalScript env ctx stackCopy pubKey2).result with
          | .error _ => pure false
          | .ok stackCopy =>
            if stackCopy.isEmpty then pure false else return castToBool (← stackBack stackCopy)
      else pure true

/-! ## Worked examples -/

/-- Hash functions and signatures for worked examples: a hash repeats the first byte, and a
signature verifies when it repeats its public key. -/
def exampleScriptEnv : ScriptEnv where
  ripemd160 vch := Vector.replicate 20 (vch.headD 0)
  sha1 vch := Vector.replicate 20 (vch.headD 0)
  sha256 vch := Vector.replicate 32 (vch.headD 0)
  verify vchPubKey _ vchSig := vchSig == vchPubKey

/-- A context for worked examples. -/
def exampleContext : SigContext := ⟨exampleTx 1 [⟨5, 0⟩] [7], 0, 0⟩

/-- `OP_2 OP_3 OP_ADD OP_5 OP_NUMEQUAL`. -/
example : (evalScript exampleScriptEnv exampleContext [] [0x52, 0x53, 0x93, 0x55, 0x9c]).result =
    .ok [vchTrue] := rfl

end FoxCoin
