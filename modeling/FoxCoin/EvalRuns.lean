import FoxCoin.EvalBounds
import FoxCoin.Lib.OrderedMatch
import FoxCoin.SigOpBound
import FoxCoin.Solver
import Mathlib.Data.List.GetD

/-! # Runs of straight-line scripts

Rules to run a script without branches forwards: each says what one operation does to the stack, and
they compose along the operations that are read. Standard scripts and the data pushed to claim them
are run by these rules. -/

namespace FoxCoin

open Checked Counting OrderedMatch Wire

variable {env : ScriptEnv} {ctx : SigContext} {script s pc : CScript} {stack stack' : Stack}
  {opcode k : ℕ} {vch : Valtype}

/-! ## Completed runs -/

/-- A state outside of any branch, with an empty alternative stack and no code separator passed. -/
def frame (script pc : CScript) (stack : Stack) (nOpCount : ℕ) : EvalState :=
  ⟨pc, script, stack, [], [], nOpCount⟩

/-- The main loop follows the completed rounds, and goes on from the last of them. -/
theorem exists_evalLoop_of_reaches {st st' : EvalState} {nFuel : ℕ} (h : EvalReaches env ctx st st')
    (hfuel : st.pc.length ≤ nFuel) :
    ∃ nFuel', st'.pc.length ≤ nFuel' ∧
      (evalLoop env ctx nFuel st).result = (evalLoop env ctx nFuel' st').result := by
  induction h using Relation.ReflTransGen.head_induction_on generalizing nFuel with
  | refl => exact ⟨nFuel, hfuel, rfl⟩
  | @head st st1 hstep hrest ih =>
    cases nFuel with
    | zero => exact absurd (List.length_eq_zero_iff.mp (Nat.le_zero.mp hfuel)) hstep.1
    | succ nFuel =>
      -- the round has consumed a byte
      have hlt : st1.pc.length < st.pc.length := by
        cases hop : st.pc.getOp2 with
        | none =>
          have := hstep.2
          simp only [evalStep, hop] at this
          cases this
        | some p =>
          obtain ⟨opcode, vch, pc⟩ := p
          rw [((ends_evalStep_keyCount hop).of_eq_ok hstep.2).1]
          exact CScript.getOp2_length_lt hop
      rw [evalLoop, if_neg (by simpa using hstep.1), bind_result, hstep.2]
      exact ih (by omega)

theorem evalLoop_of_reaches {st st' : EvalState} {nFuel : ℕ} (h : EvalReaches env ctx st st')
    (hend : st'.pc = []) (hfuel : st.pc.length ≤ nFuel) :
    (evalLoop env ctx nFuel st).result = .ok st' := by
  obtain ⟨nFuel', -, hloop⟩ := exists_evalLoop_of_reaches h hfuel
  rw [hloop]
  cases nFuel' with
  | zero => rfl
  | succ nFuel' =>
    rw [evalLoop, hend]
    rfl

/-- A script that is run to its end leaves the stack of the last state. -/
theorem evalScript_of_reaches (hsize : script.length ≤ 10000)
    (h : EvalReaches env ctx (frame script script stack 0) (frame script [] stack' k)) :
    (evalScript env ctx stack script).result = .ok stack' := by
  have hloop : (evalLoop env ctx script.length (frame script script stack 0)).result = _ :=
    evalLoop_of_reaches h rfl le_rfl
  have hinit : EvalState.init stack script = frame script script stack 0 := rfl
  rw [evalScript, bind_result, lift_result, decide_eq_true hsize, ensure_true, bind_result, hinit]
  show ((evalLoop env ctx script.length (frame script script stack 0)).result >>= _) = _
  rw [hloop]
  rfl

/-! ## Operations -/

/-- Data is only pushed by the opcodes up to `OP_PUSHDATA4`. -/
theorem CScript.getOp2_data (hop : s.getOp2 = some (opcode, vch, pc)) :
    opcode ≤ opPushdata4 ∨ vch = [] := by
  cases s with
  | nil => cases hop
  | cons b s =>
    rw [getOp2] at hop
    by_cases hpush : b.toNat ≤ opPushdata4
    · rw [if_pos hpush] at hop
      split at hop
      · cases hop
      · split_ifs at hop
        cases hop
        exact .inl hpush
    · rw [if_neg hpush] at hop
      cases hop
      exact .inr rfl

theorem CScript.Reads.data {ops : List (ℕ × Valtype)} (hreads : s.Reads ops pc) {p : ℕ × Valtype}
    (hp : p ∈ ops) (hne : p.2 ≠ []) : p.1 ≤ opPushdata4 := by
  induction ops generalizing s with
  | nil => cases hp
  | cons op ops ih =>
    obtain ⟨pc1, hop, hrest⟩ := hreads
    rcases List.mem_cons.mp hp with rfl | hp
    · exact (getOp2_data hop).resolve_right hne
    · exact ih hrest hp

/-- A push of data. -/
theorem evalStep_push (hop : s.getOp2 = some (opcode, vch, pc)) (hdata : opcode ≤ opPushdata4)
    (hsize : vch.length ≤ 520) (hroom : stack.length < 1000) :
    EvalStep env ctx (frame script s stack k) (frame script pc (vch :: stack) k) := by
  have hlow : ¬op16 < opcode := by
    rw [opPushdata4] at hdata
    rw [op16]
    omega
  have henabled : disabledOpcodes.contains opcode = false := by
    have hle : opcode ≤ 0x4e := hdata
    interval_cases opcode <;> rfl
  refine ⟨fun hnil => ?_, ?_⟩
  · rw [show s = [] from hnil] at hop
    cases hop
  · have hexec : (execOp env ctx opcode vch (frame script pc stack k)).result =
        .ok (frame script pc (vch :: stack) k) := by
      have hf : (frame script pc stack k).fExec = true := rfl
      simp only [execOp, hf, hdata, decide_true, Bool.and_self, if_true]
      rfl
    simp only [evalStep, frame, hop, bind_result, lift_result, if_neg hlow, henabled]
    simp only [frame] at hexec
    simp [bind, Except.bind, hsize, hlow, hexec, hroom]

/-- A push of too much data after completed rounds fails the script. -/
theorem evalScript_of_reaches_large (h : EvalReaches env ctx (frame script script stack 0)
    (frame script s stack' k)) (hop : s.getOp2 = some (opcode, vch, pc)) (hsize : 520 < vch.length) :
    (evalScript env ctx stack script).result = .error .returnFalse := by
  obtain ⟨nFuel, hfuel, hloop⟩ := @exists_evalLoop_of_reaches env ctx _ _ script.length h le_rfl
  have hstep : (evalStep env ctx (frame script s stack' k)).result = .error .returnFalse := by
    simp only [evalStep, frame, hop, bind_result, lift_result, decide_eq_false (not_le.mpr hsize)]
    rfl
  have hne : s ≠ [] := by
    rintro rfl
    cases hop
  have herror : (evalLoop env ctx script.length (frame script script stack 0)).result =
      .error .returnFalse := by
    rw [hloop]
    cases nFuel with
    | zero => exact absurd (List.length_eq_zero_iff.mp (Nat.le_zero.mp hfuel)) hne
    | succ nFuel =>
      rw [evalLoop, if_neg (by simpa [frame] using hne), bind_result, hstep]
      rfl
  have hinit : EvalState.init stack script = frame script script stack 0 := rfl
  rw [evalScript, bind_result, lift_result]
  by_cases hlen : script.length ≤ 10000
  · rw [decide_eq_true hlen, ensure_true, bind_result, hinit]
    show ((evalLoop env ctx script.length (frame script script stack 0)).result >>= _) = _
    rw [herror]
    rfl
  · rw [decide_eq_false hlen]
    rfl

/-- An operation above the pushes of data, where `k'` operations are counted with it. -/
theorem evalStep_op {op : OpCode} {st' : EvalState} {k' : ℕ}
    (hop : s.getOp2 = some (opcode, vch, pc)) (habove : opPushdata4 < opcode)
    (hk : (if op16 < opcode then k + 1 else k) = k') (hcount : k' ≤ 201)
    (henabled : disabledOpcodes.contains opcode = false) (hcase : opCase opcode = some op)
    (hresult : (op.exec env ctx opcode (frame script pc stack k')).result = .ok st')
    (hroom : st'.stack.length + st'.altstack.length ≤ 1000) :
    EvalStep env ctx (frame script s stack k) st' := by
  have hpush : ¬opcode ≤ opPushdata4 := not_le.mpr habove
  have hvch : vch = [] := (CScript.getOp2_data hop).resolve_left hpush
  subst hvch
  refine ⟨fun hnil => ?_, ?_⟩
  · rw [show s = [] from hnil] at hop
    cases hop
  · have hcount' : ¬201 < k' := not_lt.mpr hcount
    have hexec : (execOp env ctx opcode [] (frame script pc stack k')).result = .ok st' := by
      have hf : (frame script pc stack k').fExec = true := rfl
      simp only [execOp, hf, hpush, decide_false, Bool.and_false, Bool.false_eq_true, if_false,
        Bool.true_or, if_true, hcase]
      exact hresult
    simp only [evalStep, frame, hop, bind_result, lift_result, hk, henabled]
    simp only [frame] at hexec
    simp [bind, Except.bind, hcount', hexec, hroom]

/-- The data that is read is left on the stack, the last on the top. -/
theorem evalReaches_pushes (env : ScriptEnv) (ctx : SigContext) (script : CScript) (k : ℕ)
    (stack : Stack) {ops : List (ℕ × Valtype)} (hreads : s.Reads ops pc)
    (hdata : ∀ p ∈ ops, p.1 ≤ opPushdata4 ∧ p.2.length ≤ 520)
    (hroom : stack.length + ops.length ≤ 1000) :
    EvalReaches env ctx (frame script s stack k)
      (frame script pc ((ops.map Prod.snd).reverse ++ stack) k) := by
  induction ops generalizing s stack with
  | nil =>
    cases hreads
    exact .refl
  | cons op ops ih =>
    obtain ⟨pc1, hop, hrest⟩ := hreads
    have hfirst := hdata op List.mem_cons_self
    rw [List.length_cons] at hroom
    refine .head (evalStep_push hop hfirst.1 hfirst.2 (by omega)) ?_
    have := @ih pc1 (op.2 :: stack) hrest (fun p hp => hdata p (List.mem_cons_of_mem op hp))
      (by rw [List.length_cons]; omega)
    rwa [List.map_cons, List.reverse_cons, List.append_assoc, List.singleton_append]

/-- `OP_1` to `OP_16`. -/
theorem evalStep_opN {m : ℕ} (hop : s.getOp2 = some (op1 + m, vch, pc)) (hm : m < 16)
    (hcount : k ≤ 201) (hroom : stack.length < 1000) :
    EvalStep env ctx (frame script s stack k) (frame script pc (opNumber (op1 + m) :: stack) k) := by
  have hhi : op1 + m ≤ op16 := by
    rw [op1, op16]
    omega
  have henabled : disabledOpcodes.contains (op1 + m) = false := by
    interval_cases m <;> rfl
  exact evalStep_op hop (by rw [op1, opPushdata4]; omega) (if_neg (not_lt.mpr hhi)) hcount henabled
    (opCase_opN (Nat.le_add_right _ _) hhi) rfl hroom

theorem evalStep_opDup (hop : s.getOp2 = some (opDup, [], pc)) (hcount : k < 201)
    (hroom : stack.length < 999) :
    EvalStep env ctx (frame script s (vch :: stack) k) (frame script pc (vch :: vch :: stack) (k + 1)) :=
  evalStep_op hop (by decide) rfl hcount rfl (rfl : opCase opDup = some (.opStack .opDup)) rfl
    (by simp only [frame, List.length_cons, List.length_nil]; omega)

theorem evalStep_opHash160 (hop : s.getOp2 = some (opHash160, [], pc)) (hcount : k < 201)
    (hroom : stack.length < 1000) :
    EvalStep env ctx (frame script s (vch :: stack) k)
      (frame script pc ((env.hash160 vch).toList :: stack) (k + 1)) :=
  evalStep_op hop (by decide) rfl hcount rfl
    (rfl : opCase opHash160 = some (.opStack (.opHash .opHash160))) rfl
    (by simp only [frame, List.length_cons, List.length_nil]; omega)

/-- `OP_EQUAL` on equal values. -/
theorem evalStep_opEqual (hop : s.getOp2 = some (opEqual, [], pc)) (hcount : k < 201)
    (hroom : stack.length < 1000) :
    EvalStep env ctx (frame script s (vch :: vch :: stack) k)
      (frame script pc (vchTrue :: stack) (k + 1)) := by
  have hresult : ((OpCode.opStack .opEqual).exec env ctx opEqual
      (frame script pc (vch :: vch :: stack) (k + 1))).result =
        .ok (frame script pc (vchBool (vch == vch) :: stack) (k + 1)) := rfl
  rw [beq_self_eq_true] at hresult
  exact evalStep_op hop (by decide) rfl hcount rfl rfl hresult
    (by simp only [frame, List.length_cons, List.length_nil]; omega)

/-- `OP_EQUALVERIFY` on equal values. -/
theorem evalStep_opEqualverify (hop : s.getOp2 = some (opEqualverify, [], pc)) (hcount : k < 201)
    (hroom : stack.length < 1000) :
    EvalStep env ctx (frame script s (vch :: vch :: stack) k) (frame script pc stack (k + 1)) := by
  have hresult : ((OpCode.opStack .opEqualverify).exec env ctx opEqualverify
      (frame script pc (vch :: vch :: stack) (k + 1))).result =
        (verifytop (vchBool (vch == vch) :: stack) >>= fun stack =>
          .ok (frame script pc stack (k + 1))) := by
    simp only [OpCode.exec, bind_result, lift_result]
    rfl
  rw [beq_self_eq_true] at hresult
  exact evalStep_op hop (by decide) rfl hcount rfl rfl hresult
    (by simp only [frame, List.length_nil]; omega)

/-- `OP_CHECKSIG` on a signature that verifies. -/
theorem evalStep_opChecksig {vchSig vchPubKey : Valtype}
    (hop : s.getOp2 = some (opChecksig, [], pc)) (hcount : k < 201) (hroom : stack.length < 1000)
    (hcheck : checkSig env ctx vchSig vchPubKey
      (script.findAndDelete (CScript.pushData [] vchSig)) = true) :
    EvalStep env ctx (frame script s (vchPubKey :: vchSig :: stack) k)
      (frame script pc (vchTrue :: stack) (k + 1)) := by
  have hresult : ((OpCode.opChecksig false).exec env ctx opChecksig
      (frame script pc (vchPubKey :: vchSig :: stack) (k + 1))).result =
        .ok (frame script pc (vchBool (checkSig env ctx vchSig vchPubKey
          (script.findAndDelete (CScript.pushData [] vchSig))) :: stack) (k + 1)) := rfl
  rw [hcheck] at hresult
  exact evalStep_op hop (by decide) rfl hcount rfl rfl hresult
    (by simp only [frame, List.length_cons, List.length_nil]; omega)

/-! ## OP_CHECKMULTISIG -/

/-- A loop whose rounds all succeed. -/
theorem mapM_eq_ok {α β ε : Type} {l : List α} {f : α → Except ε β} {g : α → β}
    (h : ∀ a ∈ l, f a = .ok (g a)) : l.mapM f = .ok (l.map g) := by
  induction l with
  | nil => rfl
  | cons a l ih =>
    rw [List.mapM_cons, h a List.mem_cons_self, ih fun a' ha' => h a' (List.mem_cons_of_mem a ha')]
    rfl

theorem popstackN_eq {i : ℕ} (h : i ≤ stack.length) : popstackN i stack = .ok (stack.drop i) := by
  induction i generalizing stack with
  | zero => rfl
  | succ i ih =>
    cases stack with
    | nil => cases h
    | cons vch stack => exact ih (Nat.le_of_succ_le_succ h)

/-- **The loop is the search for keys in order**, from the tops of the two ranges of the stack down. -/
theorem multisigLoop_eq {check : Valtype → Valtype → Bool} {isig ikey : ℕ} {keys sigs : List Valtype}
    (hsigs : ∀ i (hi : i < sigs.length), stacktop stack (isig + i) = .ok sigs[i])
    (hkeys : ∀ i (hi : i < keys.length), stacktop stack (ikey + i) = .ok keys[i]) :
    (multisigLoop (fun vchSig vchPubKey => do tick; pure (check vchSig vchPubKey)) stack isig ikey
      sigs.length keys.length).result = (.ok (greedy check sigs keys) : Except ScriptError Bool) := by
  induction keys generalizing ikey isig sigs with
  | nil =>
    cases sigs with
    | nil => rfl
    | cons vchSig sigs => rfl
  | cons vchPubKey keys ih =>
    cases sigs with
    | nil => rfl
    | cons vchSig sigs =>
      have hkeys' : ∀ i (hi : i < keys.length), stacktop stack (ikey + 1 + i) = .ok keys[i] := by
        intro i hi
        have := hkeys (i + 1) (Nat.succ_lt_succ hi)
        rwa [← Nat.add_assoc, Nat.add_right_comm] at this
      rw [List.length_cons, List.length_cons, multisigLoop]
      split
      next hlt =>
        -- too few keys are left
        rw [greedy_eq_false_of_length_lt (by rwa [List.length_cons, List.length_cons])]
        rfl
      next =>
        rw [bind_result, lift_result, show stacktop stack isig = .ok vchSig from
          hsigs 0 (Nat.succ_pos _)]
        show (Counted.result _) = _
        rw [bind_result, lift_result, show stacktop stack ikey = .ok vchPubKey from
          hkeys 0 (Nat.succ_pos _)]
        show (Counted.result _) = _
        rw [bind_result, greedy]
        show (Counted.result (if check vchSig vchPubKey = true then _ else _)) = _
        cases check vchSig vchPubKey with
        | true =>
          -- the signature and the key are used up
          rw [if_pos rfl, if_pos rfl]
          refine ih (fun i hi => ?_) hkeys'
          have := hsigs (i + 1) (Nat.succ_lt_succ hi)
          rwa [← Nat.add_assoc, Nat.add_right_comm] at this
        | false =>
          -- only the key is used up
          rw [if_neg Bool.false_ne_true, if_neg Bool.false_ne_true]
          exact ih hsigs hkeys'

/-- The stack that `OP_CHECKMULTISIG` is run on: the number of keys and the keys, the number of
signatures and the signatures, and one element more. -/
def multisigStack (n m : ℕ) (keys sigs : List Valtype) (vch : Valtype) (stack : Stack) : Stack :=
  opNumber (op1 + n) :: (keys ++ opNumber (op1 + m) :: (sigs ++ vch :: stack))

variable {n m : ℕ} {keys sigs : List Valtype}

theorem multisigStack_length :
    (multisigStack n m keys sigs vch stack).length = keys.length + sigs.length + stack.length + 3 := by
  simp only [multisigStack, List.length_cons, List.length_append]
  omega

theorem stacktop_eq_getElem? {i : ℕ} (h : stack[i - 1]? = some vch) :
    stacktop stack i = .ok vch := by
  rw [stacktop, h]

theorem stacktop_multisigStack_key {i : ℕ} (hi : i < keys.length) :
    stacktop (multisigStack n m keys sigs vch stack) (2 + i) = .ok keys[i] := by
  refine stacktop_eq_getElem? ?_
  rw [multisigStack, show 2 + i - 1 = i + 1 by omega, List.getElem?_cons_succ,
    List.getElem?_append_left hi, List.getElem?_eq_getElem hi]

theorem stacktop_multisigStack_number :
    stacktop (multisigStack n m keys sigs vch stack) (2 + keys.length) =
      .ok (opNumber (op1 + m)) := by
  refine stacktop_eq_getElem? ?_
  rw [multisigStack, show 2 + keys.length - 1 = keys.length + 1 by omega, List.getElem?_cons_succ,
    List.getElem?_append_right le_rfl, Nat.sub_self, List.getElem?_cons_zero]

theorem stacktop_multisigStack_sig {i : ℕ} (hi : i < sigs.length) :
    stacktop (multisigStack n m keys sigs vch stack) (2 + keys.length + 1 + i) = .ok sigs[i] := by
  refine stacktop_eq_getElem? ?_
  rw [multisigStack, show 2 + keys.length + 1 + i - 1 = keys.length + (i + 1) + 1 by omega,
    List.getElem?_cons_succ, List.getElem?_append_right (Nat.le_add_right _ _),
    Nat.add_sub_cancel_left, List.getElem?_cons_succ, List.getElem?_append_left hi,
    List.getElem?_eq_getElem hi]

/-- The signatures are read from the stack. -/
theorem multisigSigs_multisigStack (hkeysLen : keys.length = n + 1) (hsigsLen : sigs.length = m + 1) :
    multisigSigs (multisigStack n m keys sigs vch stack) (2 + (n + 1) + 1) (m + 1) = .ok sigs := by
  have hrange : (List.range (m + 1)).map (fun i => sigs.getD i []) = sigs := by
    refine List.ext_getElem (by simp [hsigsLen]) fun i _ hi => ?_
    rw [List.getElem_map, List.getElem_range, List.getD_eq_getElem _ _ hi]
  rw [multisigSigs]
  refine (mapM_eq_ok fun i hi => ?_).trans (congrArg Except.ok hrange)
  have hi' : i < sigs.length := by
    have := List.mem_range.mp hi
    omega
  rw [← hkeysLen, stacktop_multisigStack_sig hi', List.getD_eq_getElem _ _ hi']

/-- The numbers, the keys, the signatures and the element more are popped. -/
theorem popstackN_multisigStack (hkeysLen : keys.length = n + 1) (hsigsLen : sigs.length = m + 1) :
    popstackN (2 + (n + 1) + 1 + (m + 1)) (multisigStack n m keys sigs vch stack) = .ok stack := by
  have hlen : (multisigStack n m keys sigs vch stack).length = _ := multisigStack_length
  rw [popstackN_eq (by omega)]
  have hsplit : multisigStack n m keys sigs vch stack =
      (opNumber (op1 + n) :: (keys ++ opNumber (op1 + m) :: (sigs ++ [vch]))) ++ stack := by
    simp [multisigStack]
  rw [hsplit, List.drop_left']
  simp only [List.length_cons, List.length_append, List.length_nil]
  omega

theorem castToBigNum_opNumber {i : ℕ} (hi : i < 16) :
    castToBigNum (opNumber (op1 + i)) = .ok ((i + 1 : ℕ) : ℤ) := by
  interval_cases i <;> rfl

/-- The script that signatures are checked on: without the signatures. -/
def withoutSigs (sigs : List Valtype) (script : CScript) : CScript :=
  sigs.foldl (fun scriptCode vchSig => scriptCode.findAndDelete (CScript.pushData [] vchSig)) script

variable (env ctx) in
/-- Whether `OP_CHECKMULTISIG` finds the keys of the signatures, both from the top of the stack. -/
def multisigFound (script : CScript) (sigs keys : List Valtype) : Bool :=
  greedy (fun vchSig vchPubKey => checkSig env ctx vchSig vchPubKey (withoutSigs sigs script)) sigs
    keys

/-- **`OP_CHECKMULTISIG`** on its stack. -/
theorem execCheckmultisig_eq (hn : n < 16) (hm : m < 16) (hkeysLen : keys.length = n + 1)
    (hsigsLen : sigs.length = m + 1) (hle : m ≤ n) (hcount : k + (n + 1) ≤ 201) :
    (execCheckmultisig env ctx false script k (multisigStack n m keys sigs vch stack)).result =
      .ok (k + (n + 1), vchBool (multisigFound env ctx script sigs keys) :: stack) := by
  have hlen : (multisigStack n m keys sigs vch stack).length = _ := multisigStack_length
  have htop : stacktop (multisigStack n m keys sigs vch stack) 1 = .ok (opNumber (op1 + n)) := rfl
  have hnumber : stacktop (multisigStack n m keys sigs vch stack) _ = _ :=
    stacktop_multisigStack_number
  have hsigs : multisigSigs (multisigStack n m keys sigs vch stack) _ _ = _ :=
    multisigSigs_multisigStack hkeysLen hsigsLen
  have hpop : popstackN _ (multisigStack n m keys sigs vch stack) = _ :=
    popstackN_multisigStack hkeysLen hsigsLen
  have hloop : (multisigLoop (fun vchSig vchPubKey =>
      callCheckSig env ctx vchSig vchPubKey (withoutSigs sigs script))
      (multisigStack n m keys sigs vch stack) (2 + (n + 1) + 1) 2 (m + 1) (n + 1)).result =
        .ok (multisigFound env ctx script sigs keys) := by
    rw [← hsigsLen, ← hkeysLen]
    exact multisigLoop_eq (fun i hi => stacktop_multisigStack_sig hi)
      fun i hi => stacktop_multisigStack_key hi
  have hgetN : getint ((n + 1 : ℕ) : ℤ) = ((n + 1 : ℕ) : ℤ) := if_neg (by omega)
  have hgetM : getint ((m + 1 : ℕ) : ℤ) = ((m + 1 : ℕ) : ℤ) := if_neg (by omega)
  rw [hkeysLen] at hnumber
  -- of the stack only what is read of it is needed from here on
  generalize multisigStack n m keys sigs vch stack = st at hlen htop hnumber hsigs hloop hpop
  have hneeds : ∀ i ≤ st.length, needs st i = .ok () := fun i hi => by
    rw [needs, decide_eq_true hi, ensure_true]
  simp only [execCheckmultisig, bind_result, lift_result, hneeds 1 (by omega), htop, ok_bind,
    castToBigNum_opNumber hn, castToBigNum_opNumber hm, hgetN, hgetM,
    Int.toNat_natCast, hneeds (2 + (n + 1)) (by omega), hnumber]
  have hrangeN : (decide (0 ≤ ((n + 1 : ℕ) : ℤ)) && decide (((n + 1 : ℕ) : ℤ) ≤ 20)) = true := by
    simp only [Bool.and_eq_true, decide_eq_true_eq]
    omega
  have hrangeM : (decide (0 ≤ ((m + 1 : ℕ) : ℤ)) &&
      decide (((m + 1 : ℕ) : ℤ) ≤ ((n + 1 : ℕ) : ℤ))) = true := by
    simp only [Bool.and_eq_true, decide_eq_true_eq]
    omega
  rw [hrangeN, hrangeM, decide_eq_true hcount, hneeds _ (by omega), hsigs]
  have hcode : sigs.foldl (fun scriptCode vchSig =>
      scriptCode.findAndDelete (CScript.pushData [] vchSig)) script = withoutSigs sigs script := rfl
  simp only [ensure_true, ok_bind, hcode, hloop, hpop]
  rfl

theorem evalStep_opCheckmultisig (hop : s.getOp2 = some (opCheckmultisig, [], pc)) (hn : n < 16)
    (hm : m < 16) (hkeysLen : keys.length = n + 1) (hsigsLen : sigs.length = m + 1) (hle : m ≤ n)
    (hcount : k + 1 + (n + 1) ≤ 201) (hroom : stack.length < 1000) :
    EvalStep env ctx (frame script s (multisigStack n m keys sigs vch stack) k)
      (frame script pc (vchBool (multisigFound env ctx script sigs keys) :: stack)
        (k + 1 + (n + 1))) := by
  have hexec : (execCheckmultisig env ctx false script (k + 1)
      (multisigStack n m keys sigs vch stack)).result =
        .ok (k + 1 + (n + 1), vchBool (multisigFound env ctx script sigs keys) :: stack) :=
    execCheckmultisig_eq hn hm hkeysLen hsigsLen hle hcount
  have hresult : ((OpCode.opCheckmultisig false).exec env ctx opCheckmultisig
      (frame script pc (multisigStack n m keys sigs vch stack) (k + 1))).result =
        .ok (frame script pc (vchBool (multisigFound env ctx script sigs keys) :: stack)
          (k + 1 + (n + 1))) := by
    rw [OpCode.exec, bind_result]
    show ((execCheckmultisig env ctx false script (k + 1)
      (multisigStack n m keys sigs vch stack)).result >>= _) = _
    rw [hexec]
    rfl
  exact evalStep_op hop (by decide) rfl (by omega : k + 1 ≤ 201) rfl rfl hresult
    (by simp only [frame, List.length_cons, List.length_nil]; omega)

/-! ## Pushes -/

theorem CScript.pushData_eq (s b : CScript) : s.pushData b = s ++ CScript.pushData [] b := by
  simp only [pushData]
  split_ifs <;> simp

/-- An opcode with its size operand and as much data after it. -/
theorem CScript.getOp2_of_size (operand : CScript) {b rest : CScript} (hop : opcode ≤ opPushdata4)
    (hsize : CScript.getPushSize opcode (operand ++ (b ++ rest)) = some (b.length, b ++ rest)) :
    getOp2 (UInt8.ofNat opcode :: (operand ++ (b ++ rest))) = some (opcode, b, rest) := by
  have hbyte : (UInt8.ofNat opcode).toNat = opcode := by
    rw [UInt8.toNat_ofNat_of_lt']
    exact lt_of_le_of_lt hop (by decide)
  have hfit : ¬(b ++ rest).length < b.length := by
    rw [List.length_append]
    omega
  rw [getOp2]
  simp only [hbyte, if_pos hop, hsize, if_neg hfit, List.take_left, List.drop_left]

/-- The operand of the longer pushes. -/
theorem CScript.getPushSize_operand {operand b rest : CScript} (hop : opPushdata1 ≤ opcode)
    (hlen : operand.length =
      if opcode = opPushdata1 then 1 else if opcode = opPushdata2 then 2 else 4)
    (hread : readLE operand = b.length) :
    CScript.getPushSize opcode (operand ++ (b ++ rest)) = some (b.length, b ++ rest) := by
  rw [getPushSize, if_neg (not_lt.mpr hop)]
  simp only [← hlen]
  rw [if_neg (by rw [List.length_append]; omega), List.take_left, List.drop_left, hread]

/-- The push of data is read as that data. -/
theorem CScript.getOp2_pushData {b : List UInt8} (hlen : b.length < 2 ^ 32) (rest : CScript) :
    ∃ opcode, opcode ≤ opPushdata4 ∧
      (CScript.pushData [] b ++ rest).getOp2 = some (opcode, b, rest) := by
  have hbyte : ∀ n, (UInt8.ofNat n).toNat = n % 256 := fun n => UInt8.toNat_ofNat
  unfold pushData
  by_cases h1 : b.length < opPushdata1
  · rw [if_pos h1, List.nil_append, List.append_assoc, List.singleton_append]
    have hop : b.length ≤ opPushdata4 := h1.le.trans (by decide)
    exact ⟨b.length, hop, getOp2_of_size [] hop (if_pos h1)⟩
  rw [if_neg h1]
  by_cases h2 : b.length ≤ 0xff
  · rw [if_pos h2, List.nil_append, List.append_assoc]
    refine ⟨opPushdata1, by decide, getOp2_of_size [UInt8.ofNat b.length] (by decide)
      (getPushSize_operand le_rfl rfl ?_)⟩
    simp only [readLE, hbyte]
    omega
  rw [if_neg h2]
  by_cases h3 : b.length ≤ 0xffff
  · rw [if_pos h3, List.nil_append, List.append_assoc]
    refine ⟨opPushdata2, by decide, getOp2_of_size
      [UInt8.ofNat b.length, UInt8.ofNat (b.length / 256)] (by decide)
      (getPushSize_operand (by decide) rfl ?_)⟩
    simp only [readLE, hbyte]
    omega
  · rw [if_neg h3, List.nil_append, List.append_assoc]
    refine ⟨opPushdata4, le_rfl, getOp2_of_size
      [UInt8.ofNat b.length, UInt8.ofNat (b.length / 256),
        UInt8.ofNat (b.length / 65536), UInt8.ofNat (b.length / 16777216)] le_rfl
      (getPushSize_operand (by decide) rfl ?_)⟩
    simp only [readLE, hbyte]
    omega

/-- The pushes of data one after the other are read as that data. -/
theorem CScript.reads_pushes (values : List Valtype) (hlen : ∀ b ∈ values, b.length < 2 ^ 32)
    (rest : CScript) :
    ∃ ops, ops.map Prod.snd = values ∧ (∀ p ∈ ops, p.1 ≤ opPushdata4) ∧
      CScript.Reads (values.flatMap (CScript.pushData []) ++ rest) ops rest := by
  induction values with
  | nil => exact ⟨[], rfl, by simp, rfl⟩
  | cons b values ih =>
    obtain ⟨ops, hvalues, hdata, hreads⟩ := ih fun b' hb' => hlen b' (List.mem_cons_of_mem b hb')
    obtain ⟨opcode, hop, hread⟩ :=
      getOp2_pushData (hlen b List.mem_cons_self) (values.flatMap (CScript.pushData []) ++ rest)
    refine ⟨(opcode, b) :: ops, by rw [List.map_cons, hvalues], List.forall_mem_cons.mpr ⟨hop, hdata⟩,
      values.flatMap (CScript.pushData []) ++ rest, ?_, hreads⟩
    rw [List.flatMap_cons, List.append_assoc, hread]

/-! ## Deleting what is not there -/

/-- The size operand is read off the front. -/
theorem CScript.getPushSize_eq_append {nSize : ℕ} {rest : CScript}
    (hsize : CScript.getPushSize opcode s = some (nSize, rest)) :
    ∃ operand, s = operand ++ rest ∧ operand.length ≤ 4 := by
  rw [getPushSize] at hsize
  by_cases hop : opcode < opPushdata1
  · rw [if_pos hop] at hsize
    cases hsize
    exact ⟨[], rfl, Nat.zero_le _⟩
  rw [if_neg hop] at hsize
  have hle : (if opcode = opPushdata1 then 1 else if opcode = opPushdata2 then 2 else 4) ≤ 4 := by
    split_ifs <;> decide
  generalize (if opcode = opPushdata1 then 1 else if opcode = opPushdata2 then 2 else 4) = nOperand
    at hsize hle
  dsimp only at hsize
  split_ifs at hsize
  cases hsize
  exact ⟨s.take nOperand, (List.take_append_drop nOperand s).symm,
    (List.length_take_le _ _).trans hle⟩

/-- An operation is read off the front. -/
theorem CScript.getOp2_eq_append (hop : s.getOp2 = some (opcode, vch, pc)) :
    ∃ front, s = front ++ pc ∧ front.length ≤ 5 + vch.length := by
  cases s with
  | nil => cases hop
  | cons b s =>
    rw [getOp2] at hop
    by_cases hpush : b.toNat ≤ opPushdata4
    · rw [if_pos hpush] at hop
      cases hsize : getPushSize b.toNat s with
      | none =>
        rw [hsize] at hop
        cases hop
      | some p =>
        obtain ⟨nSize, rest⟩ := p
        rw [hsize] at hop
        dsimp only at hop
        split_ifs at hop
        cases hop
        obtain ⟨operand, rfl, hoperand⟩ := getPushSize_eq_append hsize
        refine ⟨b :: (operand ++ rest.take nSize), ?_, ?_⟩
        · rw [List.cons_append, List.append_assoc, List.take_append_drop]
        · rw [List.length_cons, List.length_append]
          omega
    · rw [if_neg hpush] at hop
      cases hop
      exact ⟨[b], rfl, by rw [List.length_singleton]; omega⟩

/-- The size of a script is bounded by what it reads. -/
theorem CScript.Reads.length_le {ops : List (ℕ × Valtype)} {n : ℕ} (hreads : s.Reads ops pc)
    (hn : ∀ p ∈ ops, p.2.length ≤ n) : s.length ≤ ops.length * (n + 5) + pc.length := by
  induction ops generalizing s with
  | nil =>
    rw [show s = pc from hreads]
    exact Nat.le_add_left _ _
  | cons op ops ih =>
    obtain ⟨pc', hop, hrest⟩ := hreads
    obtain ⟨front, rfl, hfront⟩ := getOp2_eq_append hop
    have := ih hrest fun p hp => hn p (List.mem_cons_of_mem op hp)
    have := hn op List.mem_cons_self
    rw [List.length_append, List.length_cons, Nat.add_mul, Nat.one_mul]
    omega

/-- Standard scripts are far below the limit of an evaluation. -/
theorem Standard.length_le {s : CScript} {type : TxnOutType} {vSolutions : List Valtype}
    (h : Standard s type vSolutions) : s.length ≤ 10000 := by
  cases h with
  | @pubkey opcode pubkey hreads hsize =>
    have hsize' : 33 ≤ pubkey.length ∧ pubkey.length ≤ 120 := by
      simpa [isPubkeySize] using hsize
    have := hreads.length_le (n := 120) (by simp [hsize'.2])
    simp at this
    omega
  | pubkeyhash hreads hsize =>
    have := hreads.length_le (n := 20) (by simp [hsize])
    simp at this
    omega
  | scripthash hp2sh =>
    simp only [CScript.isPayToScriptHash, Bool.and_eq_true, beq_iff_eq] at hp2sh
    omega
  | @multisig m n vchM vchN keys hreads hkeys hm hn hlength =>
    -- the numbers are read without data
    have hnodata : ∀ p ∈ (op1 + m, vchM) :: (keys ++ [(op1 + n, vchN), (opCheckmultisig, [])]),
        p.2.length ≤ 120 := by
      intro p hp
      by_cases hnil : p.2 = []
      · rw [hnil]
        exact Nat.zero_le _
      have hlow := hreads.data hp hnil
      simp only [List.mem_cons, List.mem_append, List.not_mem_nil, or_false] at hp
      rcases hp with rfl | hp | rfl | rfl
      · rw [opPushdata4, op1] at hlow
        omega
      · have := hkeys p hp
        simp only [isPubkeySize, Bool.and_eq_true, decide_eq_true_eq] at this
        exact this.2
      · rw [opPushdata4, op1] at hlow
        omega
      · exact absurd rfl hnil
    have := hreads.length_le hnodata
    simp [hlength] at this
    omega

/-- **Nothing is deleted** from a script that does not push the data. -/
theorem CScript.findAndDelete_eq_self {ops : List (ℕ × Valtype)} {b : Valtype}
    (hlen : b.length < 2 ^ 32) (hreads : s.Reads ops []) (hne : ∀ p ∈ ops, p.2 ≠ b) :
    s.findAndDelete (CScript.pushData [] b) = s := by
  have hloop : ∀ (nFuel : ℕ) (pc : CScript) (ops : List (ℕ × Valtype)), pc.Reads ops [] →
      (∀ p ∈ ops, p.2 ≠ b) → CScript.findAndDeleteLoop (CScript.pushData [] b) nFuel pc = pc := by
    intro nFuel
    induction nFuel with
    | zero => exact fun _ _ _ _ => rfl
    | succ nFuel ih =>
      intro pc ops hreads hne
      have hkeep : CScript.dropMatches (CScript.pushData [] b) pc.length pc = pc := by
        cases hlength : pc.length with
        | zero => rfl
        | succ n =>
          refine if_neg fun hmatch => ?_
          -- a match would be read as a push of the data
          obtain ⟨rest, rfl⟩ := List.isPrefixOf_iff_prefix.mp hmatch
          obtain ⟨opcode, -, hread⟩ := getOp2_pushData hlen rest
          cases ops with
          | nil =>
            rw [show CScript.pushData [] b ++ rest = [] from hreads] at hlength
            cases hlength
          | cons op ops =>
            obtain ⟨pc', hop, -⟩ := hreads
            rw [hread] at hop
            cases hop
            exact hne _ List.mem_cons_self rfl
      rw [findAndDeleteLoop]
      simp only [hkeep]
      cases ops with
      | nil =>
        rw [show pc = [] from hreads]
        rfl
      | cons op ops =>
        obtain ⟨pc', hop, hrest⟩ := hreads
        rw [hop]
        dsimp only
        rw [ih pc' ops hrest fun p hp => hne p (List.mem_cons_of_mem op hp)]
        obtain ⟨front, rfl, -⟩ := getOp2_eq_append hop
        rw [List.length_append, Nat.add_sub_cancel, List.take_left]
  rw [findAndDelete]
  split_ifs
  · rfl
  · exact hloop _ s ops hreads hne

/-! ## Multi-signature scripts -/

variable {m n : ℕ} {vchM vchN : Valtype} {keys : List (ℕ × Valtype)} {sigs : List Valtype}

/-- Nothing is deleted when the script pushes none of the signatures. -/
theorem withoutSigs_eq_self
    (hreads : s.Reads ((op1 + m, vchM) :: (keys ++ [(op1 + n, vchN), (opCheckmultisig, [])])) [])
    (hsigs : ∀ vchSig ∈ sigs, vchSig ≠ [] ∧ vchSig.length < 2 ^ 32 ∧ vchSig ∉ keys.map Prod.snd) :
    withoutSigs sigs s = s := by
  -- the numbers are read without data
  have hnodata : ∀ i, ∀ p ∈ (op1 + m, vchM) :: (keys ++ [(op1 + n, vchN), (opCheckmultisig, [])]),
      p.1 = op1 + i → p.2 = [] := by
    intro i p hp hopcode
    by_contra hne
    have hlow := hreads.data hp hne
    rw [hopcode, op1, opPushdata4] at hlow
    omega
  refine List.foldlRecOn (motive := fun code => code = s) _ _ rfl fun code hcode vchSig hmem => ?_
  obtain ⟨hne, hlen, hnotin⟩ := hsigs vchSig hmem
  rw [hcode]
  refine CScript.findAndDelete_eq_self hlen hreads fun p hp heq => ?_
  have hmem' := hp
  simp only [List.mem_cons, List.mem_append, List.not_mem_nil, or_false] at hmem'
  rcases hmem' with rfl | hkey | rfl | rfl
  · exact hne (heq.symm.trans (hnodata m _ hp rfl))
  · exact hnotin (heq ▸ List.mem_map_of_mem hkey)
  · exact hne (heq.symm.trans (hnodata n _ hp rfl))
  · exact hne heq.symm

/-- **The run of a multi-signature script** on signatures and the one element more. -/
theorem evalScript_multisig
    (hreads : s.Reads ((op1 + m, vchM) :: (keys ++ [(op1 + n, vchN), (opCheckmultisig, [])])) [])
    (hsize : ∀ p ∈ keys, isPubkeySize p.2 = true) (hm : m ≤ n) (hn : n < 16)
    (hlength : keys.length = n + 1) (hsigsLen : sigs.length = m + 1) :
    (evalScript env ctx (sigs ++ [[]]) s).result =
      .ok [vchBool (multisigFound env ctx s sigs (keys.map Prod.snd).reverse)] := by
  have hsize' : ∀ p ∈ keys, 33 ≤ p.2.length ∧ p.2.length ≤ 120 := fun p hp => by
    simpa [isPubkeySize] using hsize p hp
  have hstandard : Standard s .txMultisig _ := .multisig hreads hsize hm hn hlength
  obtain ⟨pc1, hopM, hrest⟩ := id hreads
  obtain ⟨pc2, hreadKeys, pc3, hopN, pc4, hop, hend⟩ := CScript.Reads.of_append hrest
  obtain rfl : pc4 = [] := hend
  have hpushes := evalReaches_pushes env ctx s 0 (opNumber (op1 + m) :: (sigs ++ [[]])) hreadKeys
    (fun p hp => by
      have := hsize' p hp
      have hne : p.2 ≠ [] := fun hnil => by
        rw [hnil] at this
        simp at this
      exact ⟨hreadKeys.data hp hne, by omega⟩) (by simp [hsigsLen, hlength]; omega)
  have hmultisig : EvalStep env ctx (frame s pc3
      (multisigStack n m (keys.map Prod.snd).reverse sigs [] []) 0)
      (frame s [] [vchBool (multisigFound env ctx s sigs (keys.map Prod.snd).reverse)]
        (0 + 1 + (n + 1))) :=
    evalStep_opCheckmultisig hop hn (by omega) (by simpa using hlength) hsigsLen hm (by omega)
      (by simp)
  exact evalScript_of_reaches (k := 0 + 1 + (n + 1)) hstandard.length_le
    (.head (evalStep_opN hopM (by omega) (by decide) (by simp [hsigsLen]; omega))
      (hpushes.trans (.head (evalStep_opN hopN hn (by decide)
        (by simp [hsigsLen, hlength]; omega)) (.single hmultisig))))

end FoxCoin
