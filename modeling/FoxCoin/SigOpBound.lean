import FoxCoin.EvalScript

/-! # Signature checks and their static count

`GetSigOpCount` counts signature operations without running the script: one for `OP_CHECKSIG`, and
for `OP_CHECKMULTISIG` the number that the operation before it pushes, or twenty. A run of the
script makes no more `CheckSig` calls than that, whatever it branches on and however it ends. -/

namespace FoxCoin

open Checked Counting

variable {env : ScriptEnv} {ctx : SigContext} {stack : Stack} {s s' : EvalState} {opcode : ℕ}

/-! ## Calls of one operation -/

theorem execChecksig_count_le (fVerify : Bool) (scriptCode : CScript) :
    (execChecksig env ctx fVerify scriptCode stack).count ≤ 1 := by
  unfold execChecksig
  refine lift_bind_count_le fun _ _ => lift_bind_count_le fun vchSig _ => ?_
  refine lift_bind_count_le fun vchPubKey _ => bind_count_le (m := 1) (n := 0) le_rfl fun _ _ => ?_
  refine lift_bind_count_le fun _ _ => lift_bind_count_le fun _ _ => ?_
  split_ifs <;> rfl

/-- Each round of the loop uses up a key. -/
theorem multisigLoop_count_le {check : Valtype → Valtype → Counted ScriptError Bool}
    (hcheck : ∀ vchSig vchPubKey, (check vchSig vchPubKey).count ≤ 1)
    (isig ikey nSigsCount nKeysCount : ℕ) :
    (multisigLoop check stack isig ikey nSigsCount nKeysCount).count ≤ nKeysCount := by
  induction nKeysCount generalizing isig ikey nSigsCount with
  | zero => cases nSigsCount <;> exact le_rfl
  | succ nKeysCount ih =>
    cases nSigsCount with
    | zero => exact Nat.zero_le _
    | succ nSigsCount =>
      rw [multisigLoop]
      split_ifs
      · exact Nat.zero_le _
      · refine lift_bind_count_le fun vchSig _ => lift_bind_count_le fun vchPubKey _ => ?_
        refine (bind_count_le (n := nKeysCount) (hcheck vchSig vchPubKey) fun found _ => ?_).trans
          (Nat.add_comm _ _).le
        split_ifs
        · exact ih _ _ _
        · exact ih _ _ _

/-- No more calls than keys, whose number is read from the top of the stack. -/
theorem execCheckmultisig_count_le {k : ℕ} (fVerify : Bool) (scriptCode : CScript) (nOpCount : ℕ)
    (hk : ∀ vch bn, stacktop stack 1 = .ok vch → castToBigNum vch = .ok bn → getint bn ≤ 20 →
      (getint bn).toNat ≤ k) :
    (execCheckmultisig env ctx fVerify scriptCode nOpCount stack).count ≤ k := by
  unfold execCheckmultisig
  refine lift_bind_count_le fun _ _ => lift_bind_count_le fun vch hvch => ?_
  refine lift_bind_count_le fun bn hbn => lift_bind_count_le fun _ hkeys => ?_
  have hkeys' : 0 ≤ getint bn ∧ getint bn ≤ 20 := by simpa using hkeys
  refine lift_bind_count_le fun _ _ => lift_bind_count_le fun _ _ => ?_
  refine lift_bind_count_le fun _ _ => lift_bind_count_le fun _ _ => ?_
  refine lift_bind_count_le fun _ _ => lift_bind_count_le fun _ _ => ?_
  refine lift_bind_count_le fun vSigs _ => ?_
  refine bind_count_le (m := k) (n := 0) ?_ fun _ _ => ?_
  · exact (multisigLoop_count_le (fun _ _ => le_rfl) _ _ _ _).trans (hk vch bn hvch hbn hkeys'.2)
  · refine lift_bind_count_le fun _ _ => ?_
    split_ifs
    · exact lift_bind_count_le fun _ _ => le_rfl
    · exact le_rfl

/-- The number that one of `OP_1` to `OP_16` pushes. -/
def opNumber (opcode : ℕ) : Valtype := getvch ((opcode : ℤ) - ((op1 : ℤ) - 1))

theorem getint_opNumber : ∀ opcode < 256, op1 ≤ opcode → opcode ≤ op16 →
    (castToBigNum (opNumber opcode)).toOption.map getint = some (opcode - (op1 - 1) : ℕ) := by
  decide +kernel

theorem opCase_opN (hlo : op1 ≤ opcode) (hhi : opcode ≤ op16) : opCase opcode = some .opN :=
  if_pos (.inr ⟨hlo, hhi⟩)

theorem opCase_opChecksig : ∀ opcode < 256, ∀ fVerify, opCase opcode = some (.opChecksig fVerify) →
    opcode = opChecksig ∨ opcode = opChecksigverify := by
  decide +kernel

theorem opCase_opCheckmultisig : ∀ opcode < 256, ∀ fVerify,
    opCase opcode = some (.opCheckmultisig fVerify) →
      opcode = opCheckmultisig ∨ opcode = opCheckmultisigverify := by
  decide +kernel

theorem opSigOps_multisig {last : ℕ}
    (h : opcode = opCheckmultisig ∨ opcode = opCheckmultisigverify) :
    opSigOps true last opcode = if op1 ≤ last ∧ last ≤ op16 then last - (op1 - 1) else 20 := by
  have hnot : ¬(opcode = opChecksig ∨ opcode = opChecksigverify) := by
    rcases h with rfl | rfl <;> decide
  simp only [opSigOps, if_neg hnot, if_pos h, true_and]

/-- The calls of one case of the switch are in the static count, when the last opcode was one of
`OP_1` to `OP_16` only if its number is on the top. -/
theorem OpCode.exec_count_le {op : OpCode} {last : ℕ} (hcase : opCase opcode = some op)
    (hopcode : opcode < 256) (hlast : last < 256)
    (htop : FoxCoin.opEndif < opcode → op1 ≤ last → last ≤ op16 →
      ∃ rest, s.stack = opNumber last :: rest) :
    (op.exec env ctx opcode s).count ≤ opSigOps true last opcode := by
  cases op with
  | opN | opNop | opReturn | opCodeseparator => exact Nat.zero_le _
  | opIf fNot => exact Nat.zero_le _
  | opElse | opEndif | opToaltstack | opFromaltstack | opStack =>
    refine le_trans (b := 0) ?_ (Nat.zero_le _)
    unfold OpCode.exec
    repeat refine lift_bind_count_le fun _ _ => ?_
    exact le_rfl
  | opChecksig fVerify =>
    have hone : opSigOps true last opcode = 1 := if_pos (opCase_opChecksig opcode hopcode fVerify hcase)
    rw [hone, OpCode.exec]
    exact bind_count_le (n := 0) (execChecksig_count_le fVerify _) fun _ _ => le_rfl
  | opCheckmultisig fVerify =>
    have hcode := opCase_opCheckmultisig opcode hopcode fVerify hcase
    have hafter : FoxCoin.opEndif < opcode := by
      rcases hcode with rfl | rfl <;> decide
    rw [opSigOps_multisig hcode, OpCode.exec]
    refine bind_count_le (m := if op1 ≤ last ∧ last ≤ op16 then last - (op1 - 1) else 20) (n := 0)
      (execCheckmultisig_count_le fVerify _ _ ?_) fun _ _ => le_rfl
    intro vch bn hvch hbn htwenty
    by_cases hn : op1 ≤ last ∧ last ≤ op16
    · -- the operation before has pushed the number of keys
      obtain ⟨rest, hstack⟩ := htop hafter hn.1 hn.2
      have hnumber := getint_opNumber last hlast hn.1 hn.2
      rw [hstack] at hvch
      cases hvch
      rw [hbn] at hnumber
      have hkeys : getint bn = (last - (op1 - 1) : ℕ) := Option.some.inj hnumber
      rw [if_pos hn, hkeys, Int.toNat_natCast]
    · rw [if_neg hn]
      omega

/-! ## Calls of a run -/

/-- After one of `OP_1` to `OP_16` in an executed branch, its number is on the top. -/
def KeyCountOnTop (last : ℕ) (s : EvalState) : Prop :=
  last < 256 ∧ (op1 ≤ last → last ≤ op16 → s.fExec = true → ∃ rest, s.stack = opNumber last :: rest)

/-- No case of the switch moves in the script. -/
theorem OpCode.exec_pc (op : OpCode) :
    Ends (fun s' => s'.pc = s.pc) (fun _ => True) (op.exec env ctx opcode s).result := by
  cases op with
  | opN | opNop | opCodeseparator => exact rfl
  | opReturn => trivial
  | opIf fNot =>
    rw [OpCode.exec, lift_result, execIf]
    by_cases hexec : s.fExec = true
    · rw [if_pos hexec]
      exact ends_of_bind fun _ => ends_of_bind fun _ => ends_of_bind fun _ => rfl
    · rw [if_neg hexec]
      exact rfl
  | opElse | opEndif | opStack | opChecksig =>
    simp only [OpCode.exec, bind_result]
    exact ends_of_bind fun _ => rfl
  | opCheckmultisig =>
    simp only [OpCode.exec, bind_result]
    exact ends_of_bind fun _ => rfl
  | opToaltstack | opFromaltstack =>
    simp only [OpCode.exec, bind_result]
    exact ends_of_bind fun _ => ends_of_bind fun _ => ends_of_bind fun _ => rfl

/-- What one operation of the main loop does to the script and to the number on the top. -/
theorem ends_execOp (vchPushValue : Valtype) (hopcode : opcode < 256) :
    Ends (fun s' => s'.pc = s.pc ∧ KeyCountOnTop opcode s') (fun _ => True)
      (execOp env ctx opcode vchPushValue s).result := by
  have hnumber : ∀ s' : EvalState, ¬(op1 ≤ opcode ∧ opcode ≤ op16) → KeyCountOnTop opcode s' :=
    fun s' hn => ⟨hopcode, fun hlo hhi => absurd ⟨hlo, hhi⟩ hn⟩
  unfold execOp
  by_cases hn : op1 ≤ opcode ∧ opcode ≤ op16
  · have hpush : ¬opcode ≤ opPushdata4 := by
      have := hn.1
      rw [op1] at this
      rw [opPushdata4]
      omega
    have hbranch : ¬opIf ≤ opcode := by
      have := hn.2
      rw [op16] at this
      rw [opIf]
      omega
    cases hexec : s.fExec with
    | true =>
      simp only [hpush, decide_false, Bool.and_false, Bool.false_eq_true, if_false, Bool.true_or,
        if_true, opCase_opN hn.1 hn.2]
      exact ⟨rfl, hopcode, fun _ _ _ => ⟨s.stack, rfl⟩⟩
    | false =>
      simp only [hbranch, decide_false, Bool.false_and, Bool.false_eq_true, if_false, Bool.or_false]
      refine ⟨rfl, hopcode, fun _ _ hexec' => ?_⟩
      rw [hexec] at hexec'
      cases hexec'
  · split_ifs
    · exact ⟨rfl, hnumber _ hn⟩
    · cases opCase opcode with
      | none => trivial
      | some op => exact op.exec_pc.mono fun s' hpc => ⟨hpc, hnumber s' hn⟩
    · exact ⟨rfl, hnumber s hn⟩

/-- The calls of one operation of the main loop are in the static count. -/
theorem execOp_count_le {last : ℕ} (vchPushValue : Valtype) (hopcode : opcode < 256)
    (h : KeyCountOnTop last s) :
    (execOp env ctx opcode vchPushValue s).count ≤ opSigOps true last opcode := by
  unfold execOp
  split_ifs with hpush hexec
  · exact Nat.zero_le _
  · cases hcase : opCase opcode with
    | none => exact Nat.zero_le _
    | some op =>
      refine OpCode.exec_count_le hcase hopcode h.1 fun hafter hlo hhi => h.2 hlo hhi ?_
      -- in a skipped branch only the operations from `OP_IF` to `OP_ENDIF` are executed
      by_contra hskip
      simp only [Bool.not_eq_true] at hskip
      simp [hskip, not_le.mpr hafter] at hexec
  · exact Nat.zero_le _

theorem evalStep_count_le {last : ℕ} {vchPushValue : Valtype} {pc : CScript}
    (hop : s.pc.getOp2 = some (opcode, vchPushValue, pc)) (h : KeyCountOnTop last s) :
    (evalStep env ctx s).count ≤ opSigOps true last opcode := by
  simp only [evalStep, hop]
  refine lift_bind_count_le fun _ _ => lift_bind_count_le fun _ _ => lift_bind_count_le fun _ _ => ?_
  refine bind_count_le (n := 0) (execOp_count_le vchPushValue (CScript.getOp2_opcode_lt hop) h)
    fun _ _ => lift_bind_count_le fun _ _ => le_rfl

theorem ends_evalStep_keyCount {vchPushValue : Valtype} {pc : CScript}
    (hop : s.pc.getOp2 = some (opcode, vchPushValue, pc)) :
    Ends (fun s' => s'.pc = pc ∧ KeyCountOnTop opcode s') (fun _ => True)
      (evalStep env ctx s).result := by
  simp only [evalStep, hop, bind_result, lift_result]
  refine ends_of_bind fun _ => ends_of_bind fun _ => ends_of_bind fun _ => ?_
  exact (ends_execOp vchPushValue (CScript.getOp2_opcode_lt hop)).bind fun s1 h1 =>
    ends_ensure_bind trivial fun _ => h1

/-- The calls of the main loop are in the count of the script that is left. -/
theorem evalLoop_count_le (nFuel : ℕ) {last : ℕ} (h : KeyCountOnTop last s) :
    (evalLoop env ctx nFuel s).count ≤ CScript.sigOpLoop true nFuel last s.pc := by
  induction nFuel generalizing s last with
  | zero => exact le_rfl
  | succ nFuel ih =>
    rw [evalLoop]
    split_ifs
    · exact Nat.zero_le _
    cases hop : s.pc.getOp2 with
    | none =>
      -- a bad operation ends both the run and the count
      simp only [evalStep, hop]
      exact Nat.zero_le _
    | some p =>
      obtain ⟨opcode, vchPushValue, pc⟩ := p
      rw [CScript.sigOpLoop, hop]
      refine bind_count_le (evalStep_count_le hop h) fun s1 hs1 => ?_
      obtain ⟨hpc, hnext⟩ := (ends_evalStep_keyCount hop).of_eq_ok hs1
      rw [← hpc]
      exact ih hnext

/-- **A run makes no more `CheckSig` calls than `GetSigOpCount` counts**, whether it succeeds or
fails. -/
theorem evalScript_count_le (env : ScriptEnv) (ctx : SigContext) (stack : Stack) (script : CScript) :
    (evalScript env ctx stack script).count ≤ script.getSigOpCount true := by
  unfold evalScript
  refine lift_bind_count_le fun _ _ => bind_count_le (n := 0) ?_ fun _ _ =>
    lift_bind_count_le fun _ _ => le_rfl
  exact evalLoop_count_le script.length ⟨by decide, fun _ hhi => absurd hhi (by decide)⟩

end FoxCoin
