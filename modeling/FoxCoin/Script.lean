import FoxCoin.DataModel

/-! # Script parsing and signature-operation counting

`CScript::GetOp2` splits one operation off a serialized script. The two `GetSigOpCount` functions
count signature operations over the operations it yields. -/

namespace FoxCoin

/-! ## Opcodes -/

/-- `OP_PUSHDATA1`. -/
def opPushdata1 : ℕ := 0x4c
/-- `OP_PUSHDATA2`. -/
def opPushdata2 : ℕ := 0x4d
/-- `OP_PUSHDATA4`. -/
def opPushdata4 : ℕ := 0x4e
/-- `OP_1`. -/
def op1 : ℕ := 0x51
/-- `OP_16`. -/
def op16 : ℕ := 0x60
/-- `OP_EQUAL`. -/
def opEqual : ℕ := 0x87
/-- `OP_HASH160`. -/
def opHash160 : ℕ := 0xa9
/-- `OP_CODESEPARATOR`. -/
def opCodeseparator : ℕ := 0xab
/-- `OP_CHECKSIG`. -/
def opChecksig : ℕ := 0xac
/-- `OP_CHECKSIGVERIFY`. -/
def opChecksigverify : ℕ := 0xad
/-- `OP_CHECKMULTISIG`. -/
def opCheckmultisig : ℕ := 0xae
/-- `OP_CHECKMULTISIGVERIFY`. -/
def opCheckmultisigverify : ℕ := 0xaf
/-- `OP_INVALIDOPCODE`. -/
def opInvalidopcode : ℕ := 0xff

/-- A little-endian unsigned integer. -/
def readLE : List UInt8 → ℕ
  | [] => 0
  | b :: bs => b.toNat + 256 * readLE bs

/-- The size operand of a push, and the script after it; `none` when the operand is cut short. -/
def CScript.getPushSize (opcode : ℕ) (pc : CScript) : Option (ℕ × CScript) :=
  if opcode < opPushdata1 then some (opcode, pc)
  else
    let nOperand := if opcode = opPushdata1 then 1 else if opcode = opPushdata2 then 2 else 4
    if pc.length < nOperand then none
    else some (readLE (pc.take nOperand), pc.drop nOperand)

/-- `CScript::GetOp2`: the opcode at `pc`, the data it pushes, and the script after it. -/
def CScript.getOp2 : CScript → Option (ℕ × List UInt8 × CScript)
  | [] => none
  | b :: pc =>
    let opcode := b.toNat
    if opcode ≤ opPushdata4 then
      match CScript.getPushSize opcode pc with
      | none => none
      | some (nSize, pc) =>
        if pc.length < nSize then none else some (opcode, pc.take nSize, pc.drop nSize)
    else some (opcode, [], pc)

/-- Reading a size operand never moves backwards. -/
theorem CScript.getPushSize_length_le {opcode nSize : ℕ} {pc rest : CScript}
    (h : CScript.getPushSize opcode pc = some (nSize, rest)) : rest.length ≤ pc.length := by
  unfold getPushSize at h
  by_cases hop : opcode < opPushdata1
  · rw [if_pos hop] at h
    cases h
    exact le_rfl
  · rw [if_neg hop] at h
    generalize (if opcode = opPushdata1 then 1 else if opcode = opPushdata2 then 2 else 4) = k at h
    by_cases hk : pc.length < k
    · rw [if_pos hk] at h; cases h
    · rw [if_neg hk] at h
      cases h
      rw [List.length_drop]
      exact Nat.sub_le _ _

/-- Reading an operation consumes at least its opcode byte. -/
theorem CScript.getOp2_length_lt {s pc : CScript} {opcode : ℕ} {vch : List UInt8}
    (h : s.getOp2 = some (opcode, vch, pc)) : pc.length < s.length := by
  cases s with
  | nil => simp [getOp2] at h
  | cons b s =>
    rw [List.length_cons, Nat.lt_succ_iff]
    unfold getOp2 at h
    dsimp only at h
    by_cases hop : b.toNat ≤ opPushdata4
    · rw [if_pos hop] at h
      cases hsize : getPushSize b.toNat s with
      | none => rw [hsize] at h; cases h
      | some p =>
        obtain ⟨nSize, rest⟩ := p
        have hrest := getPushSize_length_le hsize
        rw [hsize] at h
        dsimp only at h
        by_cases hlen : rest.length < nSize
        · rw [if_pos hlen] at h; cases h
        · rw [if_neg hlen] at h
          cases h
          rw [List.length_drop]
          omega
    · rw [if_neg hop] at h
      cases h
      exact le_rfl

/-- An opcode is a byte. -/
theorem CScript.getOp2_opcode_lt {s pc : CScript} {opcode : ℕ} {vch : List UInt8}
    (h : s.getOp2 = some (opcode, vch, pc)) : opcode < 256 := by
  cases s with
  | nil => simp [getOp2] at h
  | cons b s =>
    have hb := b.toNat_lt
    unfold getOp2 at h
    dsimp only at h
    split at h
    · split at h
      · cases h
      · split at h
        · cases h
        · cases h
          exact hb
    · cases h
      exact hb

/-- The signature operations one opcode adds, given the opcode before it. -/
def opSigOps (fAccurate : Bool) (lastOpcode opcode : ℕ) : ℕ :=
  if opcode = opChecksig ∨ opcode = opChecksigverify then 1
  else if opcode = opCheckmultisig ∨ opcode = opCheckmultisigverify then
    if fAccurate ∧ op1 ≤ lastOpcode ∧ lastOpcode ≤ op16 then lastOpcode - (op1 - 1) else 20
  else 0

/-- The counting loop of `GetSigOpCount(bool)`, which stops at the end or at a bad operation. -/
def CScript.sigOpLoop (fAccurate : Bool) : ℕ → ℕ → CScript → ℕ
  | 0, _, _ => 0
  | nFuel + 1, lastOpcode, pc =>
    match pc.getOp2 with
    | none => 0
    | some (opcode, _, pc') =>
      opSigOps fAccurate lastOpcode opcode + CScript.sigOpLoop fAccurate nFuel opcode pc'

/-- `CScript::GetSigOpCount(bool)`. Every operation consumes a byte, so the length of the script
bounds the number of rounds. -/
def CScript.getSigOpCount (s : CScript) (fAccurate : Bool) : ℕ :=
  CScript.sigOpLoop fAccurate s.length opInvalidopcode s

/-- `CScript::IsPayToScriptHash`. -/
def CScript.isPayToScriptHash (s : CScript) : Bool :=
  s.length == 23 && (s.getD 0 0).toNat == opHash160 && (s.getD 1 0).toNat == 0x14 &&
    (s.getD 22 0).toNat == opEqual

/-- The last data element a push-only `scriptSig` leaves; `none` when the script holds anything but
pushes. -/
def CScript.lastPush : ℕ → List UInt8 → CScript → Option (List UInt8)
  | 0, data, _ => some data
  | nFuel + 1, data, pc =>
    if pc.isEmpty then some data
    else
      match pc.getOp2 with
      | none => none
      | some (opcode, vch, pc') => if op16 < opcode then none else lastPush nFuel vch pc'

/-- `CScript::GetSigOpCount(const CScript& scriptSig)`: for a pay-to-script-hash output, the count
of the script that the `scriptSig` pushes last. -/
def CScript.getP2SHSigOpCount (s scriptSig : CScript) : ℕ :=
  if !s.isPayToScriptHash then s.getSigOpCount true
  else
    match CScript.lastPush scriptSig.length [] scriptSig with
    | none => 0
    | some data => CScript.getSigOpCount data true

/-- `CScript::IsPushOnly`, the loop of `lastPush` without the data. -/
def CScript.isPushOnly (s : CScript) : Bool := (CScript.lastPush s.length [] s).isSome

/-- `CScript::operator<<` of a byte vector: the push of `b`. -/
def CScript.pushData (s : CScript) (b : List UInt8) : CScript :=
  if b.length < opPushdata1 then s ++ [UInt8.ofNat b.length] ++ b
  else if b.length ≤ 0xff then
    s ++ [UInt8.ofNat opPushdata1, UInt8.ofNat b.length] ++ b
  else if b.length ≤ 0xffff then
    s ++ [UInt8.ofNat opPushdata2, UInt8.ofNat b.length, UInt8.ofNat (b.length / 256)] ++ b
  else
    s ++ [UInt8.ofNat opPushdata4, UInt8.ofNat b.length, UInt8.ofNat (b.length / 256),
      UInt8.ofNat (b.length / 65536), UInt8.ofNat (b.length / 16777216)] ++ b

/-! ## FindAndDelete -/

/-- The inner loop of `FindAndDelete`: drop `b` as often as it stands at `pc`. -/
def CScript.dropMatches (b : CScript) : ℕ → CScript → CScript
  | 0, pc => pc
  | nFuel + 1, pc => if b.isPrefixOf pc then CScript.dropMatches b nFuel (pc.drop b.length) else pc

/-- The outer loop of `FindAndDelete`, which goes on behind the next operation. -/
def CScript.findAndDeleteLoop (b : CScript) : ℕ → CScript → CScript
  | 0, pc => pc
  | nFuel + 1, pc =>
    let pc := CScript.dropMatches b pc.length pc
    match pc.getOp2 with
    | none => pc
    | some (_, _, pc') =>
      pc.take (pc.length - pc'.length) ++ CScript.findAndDeleteLoop b nFuel pc'

/-- `CScript::FindAndDelete`: the script without the occurrences of `b` between operations. Every
round consumes a byte, so the length of the script bounds their number. -/
def CScript.findAndDelete (s b : CScript) : CScript :=
  if b.isEmpty then s else CScript.findAndDeleteLoop b s.length s

theorem CScript.dropMatches_length_le (b : CScript) (nFuel : ℕ) (pc : CScript) :
    (CScript.dropMatches b nFuel pc).length ≤ pc.length := by
  induction nFuel generalizing pc with
  | zero => exact le_rfl
  | succ nFuel ih =>
    unfold dropMatches
    split
    · exact (ih _).trans (by rw [List.length_drop]; exact Nat.sub_le _ _)
    · exact le_rfl

theorem CScript.findAndDeleteLoop_length_le (b : CScript) (nFuel : ℕ) (pc : CScript) :
    (CScript.findAndDeleteLoop b nFuel pc).length ≤ pc.length := by
  induction nFuel generalizing pc with
  | zero => exact le_rfl
  | succ nFuel ih =>
    have hdrop := dropMatches_length_le b pc.length pc
    unfold findAndDeleteLoop
    dsimp only
    cases hop : CScript.getOp2 (CScript.dropMatches b pc.length pc) with
    | none => exact hdrop
    | some p =>
      obtain ⟨opcode, vch, pc'⟩ := p
      -- the kept operation and the rest are together no longer than before
      have hrest := ih pc'
      have hlt := getOp2_length_lt hop
      rw [List.length_append, List.length_take]
      omega

/-- Deleting makes no script longer. -/
theorem CScript.findAndDelete_length_le (s b : CScript) :
    (s.findAndDelete b).length ≤ s.length := by
  unfold findAndDelete
  split
  · exact le_rfl
  · exact findAndDeleteLoop_length_le b _ s

end FoxCoin
