import FoxCoin.BigNum
import FoxCoin.Serialize

/-! # Operations on the script stack

The values of a script are byte vectors, which the numeric operations read as integers in the form
of `CBigNum`. An operation first compares the size of the stack with what it needs; after that each
access to an element is still checked, as `at` and `popstack` check it. -/

namespace FoxCoin

open Checked Wire

/-! ## Values -/

/-- `valtype`, an element of the stack. -/
abbrev Valtype := List UInt8

/-- The stack, the top first: `stacktop(-1)` is its head. -/
abbrev Stack := List Valtype

/-- How the evaluation of a script ends early. -/
inductive ScriptError where
  /-- `return false`. -/
  | returnFalse
  /-- `CastToBigNum() : overflow`. -/
  | overflow
  /-- An element below the bottom of a stack is accessed: `at` throws. -/
  | outOfRange
  /-- `popstack() : stack empty`. -/
  | stackEmpty
  deriving DecidableEq, Repr

/-- The error does not come from reading below the bottom of a stack. -/
def ScriptError.Guarded (e : ScriptError) : Prop := e ≠ .outOfRange ∧ e ≠ .stackEmpty

/-- `vchFalse`. -/
def vchFalse : Valtype := []
/-- `vchTrue`. -/
def vchTrue : Valtype := [1]

/-- The value a comparison leaves. -/
def vchBool (fValue : Bool) : Valtype := if fValue then vchTrue else vchFalse

/-- `CastToBool`: some byte is not zero, and the value is not a negative zero. -/
def castToBool : Valtype → Bool
  | [] => false
  | [b] => b != 0 && b != 0x80
  | b :: vch => b != 0 || castToBool vch

/-- `CBigNum::setvch`: little-endian bytes with the sign in the top bit. -/
def setvch (vch : Valtype) : ℤ :=
  let n := readLE vch
  let sign := 256 ^ vch.length / 2
  if vch ≠ [] ∧ sign ≤ n then -((n - sign : ℕ) : ℤ) else n

/-- `CBigNum::getvch`. -/
def getvch (bn : ℤ) : Valtype :=
  let nSize := mpiSize bn.natAbs
  leBytes nSize (bn.natAbs + if bn < 0 then 256 ^ nSize / 2 else 0)

/-- `CBigNum::getint`, which saturates. -/
def getint (bn : ℤ) : ℤ :=
  if (2 : ℤ) ^ 31 - 1 < bn.natAbs then if bn < 0 then -2 ^ 31 else 2 ^ 31 - 1 else bn

/-- `CastToBigNum`. -/
def castToBigNum (vch : Valtype) : Except ScriptError ℤ := do
  ensure (vch.length ≤ 4) .overflow
  -- get rid of extra leading zeros
  pure (setvch (getvch (setvch vch)))

/-- The number a comparison leaves. -/
def boolBigNum (fValue : Bool) : ℤ := if fValue then 1 else 0

/-- The hash functions of the script operations, and `CKey::Verify` with a given public key. -/
structure ScriptEnv where
  ripemd160 : Valtype → Vector UInt8 20
  sha1 : Valtype → Vector UInt8 20
  sha256 : Valtype → Vector UInt8 32
  /-- `SetPubKey` accepts the public key, and `Verify` the signature of the hash. -/
  verify : Valtype → Uint256 → Valtype → Bool

/-- `Hash160`. -/
def ScriptEnv.hash160 (env : ScriptEnv) (vch : Valtype) : Vector UInt8 20 :=
  env.ripemd160 (env.sha256 vch).toList

/-- `Hash`, as bytes. -/
def ScriptEnv.hash256 (env : ScriptEnv) (vch : Valtype) : Vector UInt8 32 :=
  env.sha256 (env.sha256 vch).toList

/-! ## Stack accesses -/

/-- `stacktop(-i)`. -/
def stacktop (stack : Stack) (i : ℕ) : Except ScriptError Valtype :=
  match stack[i - 1]? with
  | some vch => .ok vch
  | none => .error .outOfRange

/-- `popstack`. -/
def popstack : Stack → Except ScriptError Stack
  | [] => .error .stackEmpty
  | _ :: stack => .ok stack

/-- `stack.erase(stack.end() - i)`. -/
def erasetop (stack : Stack) (i : ℕ) : Except ScriptError Stack := do
  ensure (i ≤ stack.length) .outOfRange
  pure (stack.eraseIdx (i - 1))

/-- `stack.insert(stack.end() - i, vch)`. -/
def inserttop (stack : Stack) (i : ℕ) (vch : Valtype) : Except ScriptError Stack := do
  ensure (i ≤ stack.length) .outOfRange
  pure (stack.insertIdx i vch)

/-- `swap(stacktop(-i), stacktop(-j))`. -/
def swaptop (stack : Stack) (i j : ℕ) : Except ScriptError Stack := do
  let vch1 ← stacktop stack i
  let vch2 ← stacktop stack j
  pure ((stack.set (i - 1) vch2).set (j - 1) vch1)

/-- `if (stack.size() < n) return false`. -/
def needs (stack : Stack) (n : ℕ) : Except ScriptError Unit :=
  ensure (n ≤ stack.length) .returnFalse

/-! ## Operations -/

/-- The hash operations. -/
inductive HashOp where
  | opRipemd160 | opSha1 | opSha256 | opHash160 | opHash256
  deriving DecidableEq, Repr

/-- The bytes a hash operation leaves. -/
def HashOp.exec (env : ScriptEnv) : HashOp → Valtype → Valtype
  | .opRipemd160, vch => (env.ripemd160 vch).toList
  | .opSha1, vch => (env.sha1 vch).toList
  | .opSha256, vch => (env.sha256 vch).toList
  | .opHash160, vch => (env.hash160 vch).toList
  | .opHash256, vch => (env.hash256 vch).toList

/-- The numeric operations with one operand. -/
inductive NumericOp where
  | op1add | op1sub | opNegate | opAbs | opNot | op0notequal
  deriving DecidableEq, Repr

def NumericOp.exec : NumericOp → ℤ → ℤ
  | .op1add, bn => bn + 1
  | .op1sub, bn => bn - 1
  | .opNegate, bn => -bn
  | .opAbs, bn => if bn < 0 then -bn else bn
  | .opNot, bn => boolBigNum (bn == 0)
  | .op0notequal, bn => boolBigNum (bn != 0)

/-- The numeric operations with two operands. -/
inductive NumericOp2 where
  | opAdd | opSub | opBooland | opBoolor | opNumequal | opNumequalverify | opNumnotequal | opLessthan
  | opGreaterthan | opLessthanorequal | opGreaterthanorequal | opMin | opMax
  deriving DecidableEq, Repr

def NumericOp2.exec : NumericOp2 → ℤ → ℤ → ℤ
  | .opAdd, bn1, bn2 => bn1 + bn2
  | .opSub, bn1, bn2 => bn1 - bn2
  | .opBooland, bn1, bn2 => boolBigNum (bn1 != 0 && bn2 != 0)
  | .opBoolor, bn1, bn2 => boolBigNum (bn1 != 0 || bn2 != 0)
  | .opNumequal, bn1, bn2 => boolBigNum (bn1 == bn2)
  | .opNumequalverify, bn1, bn2 => boolBigNum (bn1 == bn2)
  | .opNumnotequal, bn1, bn2 => boolBigNum (bn1 != bn2)
  | .opLessthan, bn1, bn2 => boolBigNum (bn1 < bn2)
  | .opGreaterthan, bn1, bn2 => boolBigNum (bn2 < bn1)
  | .opLessthanorequal, bn1, bn2 => boolBigNum (bn1 ≤ bn2)
  | .opGreaterthanorequal, bn1, bn2 => boolBigNum (bn2 ≤ bn1)
  | .opMin, bn1, bn2 => if bn1 < bn2 then bn1 else bn2
  | .opMax, bn1, bn2 => if bn2 < bn1 then bn1 else bn2

/-- The operations that only work on the stack. -/
inductive StackOp where
  | opVerify | op2drop | op2dup | op3dup | op2over | op2rot | op2swap | opIfdup | opDepth | opDrop
  | opDup | opNip | opOver | opPick | opRoll | opRot | opSwap | opTuck | opSize | opEqual
  | opEqualverify | opNumeric (op : NumericOp) | opNumeric2 (op : NumericOp2) | opWithin
  | opHash (op : HashOp)
  deriving DecidableEq, Repr

/-- The end of an operation that verifies the value on the top: it must be true and is popped. -/
def verifytop (stack : Stack) : Except ScriptError Stack := do
  let fValue := castToBool (← stacktop stack 1)
  ensure fValue .returnFalse
  popstack stack

/-- `OP_EQUAL` and the first part of `OP_EQUALVERIFY`. -/
def execEqual (stack : Stack) : Except ScriptError Stack := do
  needs stack 2
  let vch1 ← stacktop stack 2
  let vch2 ← stacktop stack 1
  let stack ← popstack stack
  let stack ← popstack stack
  pure (vchBool (vch1 == vch2) :: stack)

/-- `OP_PICK` and `OP_ROLL`, which also removes the element. -/
def execPick (fRoll : Bool) (stack : Stack) : Except ScriptError Stack := do
  needs stack 2
  let bn ← castToBigNum (← stacktop stack 1)
  let n := getint bn
  let stack ← popstack stack
  ensure (0 ≤ n && n < stack.length) .returnFalse
  let vch ← stacktop stack (n.toNat + 1)
  let stack ← if fRoll then erasetop stack (n.toNat + 1) else pure stack
  pure (vch :: stack)

/-- The numeric operations with two operands, but for the verification. -/
def execNumeric2 (op : NumericOp2) (stack : Stack) : Except ScriptError Stack := do
  needs stack 2
  let bn1 ← castToBigNum (← stacktop stack 2)
  let bn2 ← castToBigNum (← stacktop stack 1)
  let stack ← popstack stack
  let stack ← popstack stack
  pure (getvch (op.exec bn1 bn2) :: stack)

/-- The effect of an operation on the stack. -/
def StackOp.exec (env : ScriptEnv) : StackOp → Stack → Except ScriptError Stack
  | .opVerify, stack => do
    needs stack 1
    verifytop stack
  | .op2drop, stack => do
    needs stack 2
    popstack (← popstack stack)
  | .op2dup, stack => do
    needs stack 2
    let vch1 ← stacktop stack 2
    let vch2 ← stacktop stack 1
    pure (vch2 :: vch1 :: stack)
  | .op3dup, stack => do
    needs stack 3
    let vch1 ← stacktop stack 3
    let vch2 ← stacktop stack 2
    let vch3 ← stacktop stack 1
    pure (vch3 :: vch2 :: vch1 :: stack)
  | .op2over, stack => do
    needs stack 4
    let vch1 ← stacktop stack 4
    let vch2 ← stacktop stack 3
    pure (vch2 :: vch1 :: stack)
  | .op2rot, stack => do
    needs stack 6
    let vch1 ← stacktop stack 6
    let vch2 ← stacktop stack 5
    -- `stack.erase(stack.end()-6, stack.end()-4)`
    let stack ← erasetop (← erasetop stack 6) 5
    pure (vch2 :: vch1 :: stack)
  | .op2swap, stack => do
    needs stack 4
    swaptop (← swaptop stack 4 2) 3 1
  | .opIfdup, stack => do
    needs stack 1
    let vch ← stacktop stack 1
    pure (if castToBool vch then vch :: stack else stack)
  | .opDepth, stack => pure (getvch stack.length :: stack)
  | .opDrop, stack => do
    needs stack 1
    popstack stack
  | .opDup, stack => do
    needs stack 1
    let vch ← stacktop stack 1
    pure (vch :: stack)
  | .opNip, stack => do
    needs stack 2
    erasetop stack 2
  | .opOver, stack => do
    needs stack 2
    let vch ← stacktop stack 2
    pure (vch :: stack)
  | .opPick, stack => execPick false stack
  | .opRoll, stack => execPick true stack
  | .opRot, stack => do
    needs stack 3
    swaptop (← swaptop stack 3 2) 2 1
  | .opSwap, stack => do
    needs stack 2
    swaptop stack 2 1
  | .opTuck, stack => do
    needs stack 2
    let vch ← stacktop stack 1
    inserttop stack 2 vch
  | .opSize, stack => do
    needs stack 1
    let vch ← stacktop stack 1
    pure (getvch vch.length :: stack)
  | .opEqual, stack => execEqual stack
  | .opEqualverify, stack => do verifytop (← execEqual stack)
  | .opNumeric op, stack => do
    needs stack 1
    let bn ← castToBigNum (← stacktop stack 1)
    let stack ← popstack stack
    pure (getvch (op.exec bn) :: stack)
  | .opNumeric2 op, stack => do
    let stack ← execNumeric2 op stack
    if op = .opNumequalverify then verifytop stack else pure stack
  | .opWithin, stack => do
    needs stack 3
    let bn1 ← castToBigNum (← stacktop stack 3)
    let bn2 ← castToBigNum (← stacktop stack 2)
    let bn3 ← castToBigNum (← stacktop stack 1)
    let stack ← popstack stack
    let stack ← popstack stack
    let stack ← popstack stack
    pure (vchBool (bn2 ≤ bn1 && bn1 < bn3) :: stack)
  | .opHash op, stack => do
    needs stack 1
    let vch ← stacktop stack 1
    let stack ← popstack stack
    pure (op.exec env vch :: stack)

end FoxCoin
