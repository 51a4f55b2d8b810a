import FoxCoin.ConnectInputs
import FoxCoin.EvalBounds
import FoxCoin.SigOpBound

/-! # Signature operations of redeem scripts

The signature operations of a pay-to-script-hash input are counted in the last data that its
`scriptSig` pushes, found without running it. When the input verifies, this is the script that
`VerifyScript` takes from the top of the stack and runs. -/

namespace FoxCoin

open Checked Counting

variable {env : ScriptEnv} {ctx : SigContext} {stack : Stack} {s s' : EvalState} {opcode : ℕ}

/-! ## Push-only scripts -/

/-- The operations that push a number. -/
def PushesNumber (opcode : ℕ) : Prop := opcode = op1negate ∨ op1 ≤ opcode ∧ opcode ≤ op16

instance (opcode : ℕ) : Decidable (PushesNumber opcode) := inferInstanceAs (Decidable (_ ∨ _))

/-- What the data that was last extracted says about the stack: it is on the top, unless the last
operation has pushed a number, or there was none. -/
def PushedLast (data : Valtype) (stack : Stack) : Prop :=
  stack = [] ∨ (∃ rest, stack = data :: rest) ∨
    ∃ opcode rest, PushesNumber opcode ∧ stack = opNumber opcode :: rest

/-- One operation of a push-only script. -/
theorem ends_evalStep_push {vch : Valtype} {pc : CScript}
    (hop : s.pc.getOp2 = some (opcode, vch, pc)) (hpush : opcode ≤ op16) (hexec : s.vfExec = []) :
    Ends (fun s' => s'.pc = pc ∧ s'.vfExec = [] ∧ PushedLast vch s'.stack) (fun _ => True)
      (evalStep env ctx s).result := by
  simp only [evalStep, hop, bind_result, lift_result]
  refine ends_of_bind fun _ => ends_of_bind fun _ => ends_of_bind fun _ => ?_
  generalize (if op16 < opcode then s.nOpCount + 1 else s.nOpCount) = nOpCount
  refine Ends.bind ?_ fun s1 h1 => ends_ensure_bind trivial fun _ => h1
  have hf : ({ s with pc := pc, nOpCount := nOpCount } : EvalState).fExec = true := by
    simp [EvalState.fExec, hexec]
  simp only [execOp, hf, Bool.true_and, Bool.true_or, if_true, decide_eq_true_eq]
  split_ifs with hdata
  · exact ⟨rfl, hexec, .inr (.inl ⟨s.stack, rfl⟩)⟩
  · by_cases hnumber : PushesNumber opcode
    · have hcase : opCase opcode = some .opN := if_pos hnumber
      rw [hcase]
      exact ⟨rfl, hexec, .inr (.inr ⟨opcode, s.stack, hnumber, rfl⟩)⟩
    · -- `OP_RESERVED`, which passes as a push, has no case
      have hreserved : opcode = 0x50 := by
        simp only [PushesNumber, op1negate, op1, op16, opPushdata4] at hnumber hpush hdata
        omega
      rw [hreserved]
      trivial

/-- A push-only script leaves the data that the scan extracts last. -/
theorem evalLoop_pushedLast {nFuel : ℕ} {data data' : Valtype} (hexec : s.vfExec = [])
    (h : PushedLast data s.stack) (hscan : CScript.lastPush nFuel data s.pc = some data')
    (heval : (evalLoop env ctx nFuel s).result = .ok s') : PushedLast data' s'.stack := by
  induction nFuel generalizing s data with
  | zero =>
    cases heval
    cases hscan
    exact h
  | succ nFuel ih =>
    rw [evalLoop] at heval
    rw [CScript.lastPush] at hscan
    by_cases hempty : s.pc.isEmpty = true
    · rw [if_pos hempty] at heval hscan
      cases heval
      cases hscan
      exact h
    rw [if_neg hempty] at heval hscan
    cases hop : s.pc.getOp2 with
    | none =>
      rw [hop] at hscan
      cases hscan
    | some p =>
      obtain ⟨opcode, vch, pc⟩ := p
      rw [hop] at hscan
      dsimp only at hscan
      by_cases hpush : op16 < opcode
      · rw [if_pos hpush] at hscan
        cases hscan
      rw [if_neg hpush] at hscan
      rw [bind_result] at heval
      obtain ⟨s1, hs1, hrest⟩ := bind_eq_ok.mp heval
      obtain ⟨hpc, hexec1, hlast⟩ :=
        (ends_evalStep_push hop (not_lt.mp hpush) hexec).of_eq_ok hs1
      rw [← hpc] at hscan
      exact ih hexec1 hlast hscan hrest

/-- A script that starts with a bad operation fails. -/
theorem evalScript_bad {script : CScript} (hne : script ≠ []) (hop : script.getOp2 = none) :
    ∃ e, (evalScript env ctx stack script).result = .error e := by
  have hstep : (evalStep env ctx (.init stack script)).result = .error .returnFalse := by
    simp only [evalStep, EvalState.init, hop]
    rfl
  have hloop : (evalLoop env ctx script.length (.init stack script)).result =
      .error .returnFalse := by
    obtain ⟨b, rest, rfl⟩ := List.exists_cons_of_ne_nil hne
    rw [List.length_cons, evalLoop, if_neg (by simp [EvalState.init]), bind_result, hstep]
    rfl
  rw [evalScript, bind_result, lift_result]
  cases hlen : decide (script.length ≤ 10000) with
  | false => exact ⟨_, rfl⟩
  | true =>
    rw [ensure_true, bind_result, hloop]
    exact ⟨_, rfl⟩

theorem opNumber_bad : ∀ opcode < 256, PushesNumber opcode →
    opNumber opcode ≠ [] ∧ (CScript.getOp2 (opNumber opcode) = none ∨ opNumber opcode = [0x81]) := by
  decide +kernel

/-- No number that an operation pushes is a script that succeeds: its byte pushes more data than
there is, or is a disabled operation. -/
theorem evalScript_opNumber (h : PushesNumber opcode) :
    ∃ e, (evalScript env ctx stack (opNumber opcode)).result = .error e := by
  have hlt : opcode < 256 := by
    simp only [PushesNumber, op1negate, op16] at h
    omega
  obtain ⟨hne, hop | hop⟩ := opNumber_bad opcode hlt h
  · exact evalScript_bad hne hop
  · rw [hop]
    exact ⟨_, rfl⟩

/-! ## The redeem script -/

/-- What a verified pay-to-script-hash input has been checked for: its `scriptSig` is push-only and
leaves a stack, whose top runs as a script on the rest. -/
theorem verifyScript_p2sh {scriptSig scriptPubKey : CScript}
    (hp2sh : scriptPubKey.isPayToScriptHash = true)
    (h : verifyScript env ctx scriptSig scriptPubKey true = .ok true) :
    scriptSig.isPushOnly = true ∧ ∃ redeem rest last,
      (evalScript env ctx [] scriptSig).result = .ok (redeem :: rest) ∧
      (evalScript env ctx rest redeem).result = .ok last := by
  unfold verifyScript at h
  cases hsig : (evalScript env ctx [] scriptSig).result with
  | error e =>
    rw [hsig] at h
    cases h
  | ok stackCopy =>
    rw [hsig] at h
    dsimp only at h
    cases hpub : (evalScript env ctx stackCopy scriptPubKey).result with
    | error e =>
      rw [hpub] at h
      cases h
    | ok stack =>
      rw [hpub] at h
      dsimp only at h
      cases stack with
      | nil => cases h
      | cons vch stack =>
        have hback : stackBack (vch :: stack) = .ok vch := rfl
        rw [List.isEmpty_cons, if_neg Bool.false_ne_true, hback] at h
        by_cases htrue : castToBool vch = false
        · simp [bind, Except.bind, htrue] at h
        by_cases hpush : scriptSig.isPushOnly = true
        · refine ⟨hpush, ?_⟩
          cases stackCopy with
          | nil =>
            -- the hash operation of the output has failed before
            obtain ⟨b, rest, rfl, hb⟩ := CScript.isPayToScriptHash_cons hp2sh
            obtain ⟨e, he⟩ : ∃ e, (evalScript env ctx [] (b :: rest)).result = .error e :=
              evalScript_hash160_nil hb
            rw [he] at hpub
            cases hpub
          | cons redeem rest =>
            cases hredeem : (evalScript env ctx rest redeem).result with
            | error e =>
              simp [bind, Except.bind, htrue, hp2sh, hpush, stackBack, stacktop, popstack,
                hredeem] at h
            | ok last => exact ⟨redeem, rest, last, rfl, hredeem⟩
        · simp [bind, Except.bind, htrue, hp2sh, hpush] at h

/-- The scan and the run see the same redeem script. -/
theorem lastPush_of_verifyScript {scriptSig scriptPubKey : CScript}
    (hp2sh : scriptPubKey.isPayToScriptHash = true)
    (h : verifyScript env ctx scriptSig scriptPubKey true = .ok true) :
    ∃ redeem rest, (evalScript env ctx [] scriptSig).result = .ok (redeem :: rest) ∧
      CScript.lastPush scriptSig.length [] scriptSig = some redeem := by
  obtain ⟨hpush, redeem, rest, last, hsig, hredeem⟩ := verifyScript_p2sh hp2sh h
  refine ⟨redeem, rest, hsig, ?_⟩
  obtain ⟨data, hdata⟩ := Option.isSome_iff_exists.mp hpush
  rw [hdata]
  rw [evalScript, bind_result, lift_result] at hsig
  obtain ⟨-, -, hsig⟩ := bind_eq_ok.mp hsig
  rw [bind_result] at hsig
  obtain ⟨s1, hloop, hsig⟩ := bind_eq_ok.mp hsig
  rw [bind_result, lift_result] at hsig
  obtain ⟨-, -, hsig⟩ := bind_eq_ok.mp hsig
  have hstack : s1.stack = redeem :: rest := Except.ok.inj hsig
  have hlast : PushedLast data s1.stack :=
    evalLoop_pushedLast (s := .init [] scriptSig) rfl (.inl rfl) hdata hloop
  rw [hstack] at hlast
  rcases hlast with hnil | ⟨rest', htop⟩ | ⟨opcode, rest', hnumber, htop⟩
  · cases hnil
  · cases htop
    rfl
  · -- a pushed number is no script that succeeds
    cases htop
    obtain ⟨e, he⟩ : ∃ e, (evalScript env ctx rest (opNumber opcode)).result = .error e :=
      evalScript_opNumber hnumber
    rw [he] at hredeem
    cases hredeem

/-- The `CheckSig` calls that `VerifyScript` makes for the redeem script of an input. -/
def redeemCalls (env : ScriptEnv) (ctx : SigContext) (scriptSig : CScript) : ℕ :=
  match (evalScript env ctx [] scriptSig).result with
  | .ok (redeem :: rest) => (evalScript env ctx rest redeem).count
  | _ => 0

/-- The calls for the redeem scripts of a transaction's pay-to-script-hash inputs. -/
def CTransaction.redeemCalls (env : ScriptEnv) (inputs : MapPrevTx) (tx : CTransaction) : ℕ :=
  (tx.vin.zipIdx.map fun p =>
    match getOutputFor inputs p.1 with
    | .ok prevout =>
      if prevout.scriptPubKey.isPayToScriptHash then
        FoxCoin.redeemCalls env ⟨tx, p.2, 0⟩ p.1.scriptSig
      else 0
    | .error _ => 0).sum

/-- The calls for the redeem script of a verified input are in its count. -/
theorem redeemCalls_le {scriptSig scriptPubKey : CScript}
    (hp2sh : scriptPubKey.isPayToScriptHash = true)
    (h : verifyScript env ctx scriptSig scriptPubKey true = .ok true) :
    redeemCalls env ctx scriptSig ≤ scriptPubKey.getP2SHSigOpCount scriptSig := by
  obtain ⟨redeem, rest, hsig, hlast⟩ := lastPush_of_verifyScript hp2sh h
  simp only [redeemCalls, hsig, CScript.getP2SHSigOpCount, hp2sh, hlast]
  exact evalScript_count_le env ctx rest redeem

/-- The loop of `GetP2SHSigOpCount` charges for every input at least what its redeem script
calls. -/
theorem redeemCalls_sum_le {inputs : MapPrevTx} {tx : CTransaction} {vin : List CTxIn} {k n m : ℕ}
    (hverify : ∀ p ∈ vin.zipIdx k, ∀ prevout, getOutputFor inputs p.1 = .ok prevout →
      prevout.scriptPubKey.isPayToScriptHash = true →
        verifyScript env ⟨tx, p.2, 0⟩ p.1.scriptSig prevout.scriptPubKey true = .ok true)
    (h : vin.foldlM (fun nSigOps txin => do
      let prevout ← getOutputFor inputs txin
      pure (if prevout.scriptPubKey.isPayToScriptHash then
        nSigOps + prevout.scriptPubKey.getP2SHSigOpCount txin.scriptSig else nSigOps)) n =
        (.ok m : Result ℕ)) :
    n + ((vin.zipIdx k).map fun p =>
      match getOutputFor inputs p.1 with
      | .ok prevout =>
        if prevout.scriptPubKey.isPayToScriptHash then redeemCalls env ⟨tx, p.2, 0⟩ p.1.scriptSig
        else 0
      | .error _ => 0).sum ≤ m := by
  induction vin generalizing k n with
  | nil =>
    cases h
    exact le_rfl
  | cons txin vin ih =>
    obtain ⟨n', hstep, hrest⟩ := foldlM_cons_eq_ok.mp h
    obtain ⟨prevout, hprevout, hn'⟩ := bind_eq_ok.mp hstep
    have hcalls := ih (k := k + 1) (fun p hp => hverify p (List.mem_cons_of_mem _ hp)) hrest
    rw [List.zipIdx_cons, List.map_cons, List.sum_cons]
    simp only [hprevout]
    by_cases hp2sh : prevout.scriptPubKey.isPayToScriptHash = true
    · have hinput := redeemCalls_le hp2sh (hverify (txin, k) List.mem_cons_self prevout hprevout hp2sh)
      rw [if_pos hp2sh] at hn' ⊢
      cases hn'
      dsimp only at hinput
      omega
    · rw [if_neg hp2sh] at hn' ⊢
      cases hn'
      omega

/-- **The count of a pay-to-script-hash input is that of the script it runs.** When an input
verifies, the data extracted from its `scriptSig` is the top of the stack that running it leaves,
and its count is the count of that script, which bounds the `CheckSig` calls of running it. So the
operations charged for a transaction bound the calls for all its redeem scripts. -/
theorem p2shSigOps (env : ScriptEnv) :
    (∀ (ctx : SigContext) (scriptSig scriptPubKey : CScript),
      scriptPubKey.isPayToScriptHash = true →
      verifyScript env ctx scriptSig scriptPubKey true = .ok true →
      ∃ redeem rest, (evalScript env ctx [] scriptSig).result = .ok (redeem :: rest) ∧
        CScript.lastPush scriptSig.length [] scriptSig = some redeem ∧
        scriptPubKey.getP2SHSigOpCount scriptSig = CScript.getSigOpCount redeem true ∧
        (evalScript env ctx rest redeem).count ≤ scriptPubKey.getP2SHSigOpCount scriptSig) ∧
    ∀ (inputs : MapPrevTx) (tx : CTransaction) (nSigOps : ℕ), tx.isCoinBase = false →
      (∀ p ∈ tx.vin.zipIdx, ∀ prevout, getOutputFor inputs p.1 = .ok prevout →
        prevout.scriptPubKey.isPayToScriptHash = true →
          verifyScript env ⟨tx, p.2, 0⟩ p.1.scriptSig prevout.scriptPubKey true = .ok true) →
      tx.getP2SHSigOpCount inputs = .ok nSigOps → tx.redeemCalls env inputs ≤ nSigOps := by
  constructor
  · intro ctx scriptSig scriptPubKey hp2sh h
    obtain ⟨redeem, rest, hsig, hlast⟩ := lastPush_of_verifyScript hp2sh h
    have hcount : scriptPubKey.getP2SHSigOpCount scriptSig = CScript.getSigOpCount redeem true := by
      simp only [CScript.getP2SHSigOpCount, hp2sh, hlast]
      rfl
    exact ⟨redeem, rest, hsig, hlast, hcount, hcount ▸ evalScript_count_le env ctx rest redeem⟩
  · intro inputs tx nSigOps hcb hverify h
    rw [CTransaction.getP2SHSigOpCount, if_neg (by simp [hcb])] at h
    have := redeemCalls_sum_le (k := 0) (n := 0) hverify h
    rwa [Nat.zero_add] at this

/-- The hypotheses hold of an input whose redeem script checks one signature. -/
theorem p2shSigOps_checksig :
    let scriptPubKey : CScript := [0xa9, 0x14] ++ List.replicate 20 1 ++ [0x87]
    -- the signature `[7]` with its hash type, and the script that checks it with the key `[7]`
    let scriptSig : CScript := [2, 7, 1, 3, 1, 7, 0xac]
    ∃ redeem rest,
      (evalScript exampleScriptEnv exampleContext [] scriptSig).result = .ok (redeem :: rest) ∧
        CScript.lastPush scriptSig.length [] scriptSig = some redeem ∧
        scriptPubKey.getP2SHSigOpCount scriptSig = CScript.getSigOpCount redeem true ∧
        (evalScript exampleScriptEnv exampleContext rest redeem).count ≤
          scriptPubKey.getP2SHSigOpCount scriptSig :=
  (p2shSigOps exampleScriptEnv).1 exampleContext _ _ (by decide) rfl

end FoxCoin
