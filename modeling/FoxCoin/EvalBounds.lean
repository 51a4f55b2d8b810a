import FoxCoin.EvalScript

/-! # The bounds of the script stacks

No script makes the interpreter read below the bottom of a stack: each operation compares the size
of the stack with the elements it reaches. No step leaves more than 1000 elements, and no element
has more than 520 bytes. -/

namespace FoxCoin

open Checked Counting Wire

variable {env : ScriptEnv} {ctx : SigContext} {stack : Stack}

/-- Every element has at most 520 bytes. -/
def Small (stack : Stack) : Prop := ∀ vch ∈ stack, vch.length ≤ 520

theorem Small.cons {vch : Valtype} (hvch : vch.length ≤ 520) (h : Small stack) :
    Small (vch :: stack) :=
  List.forall_mem_cons.mpr ⟨hvch, h⟩

theorem Small.of_subset {stack' : Stack} (h : Small stack) (hsub : ∀ v ∈ stack', v ∈ stack) :
    Small stack' :=
  fun v hv => h v (hsub v hv)

/-! ## Accesses -/

theorem guarded_returnFalse : ScriptError.returnFalse.Guarded := ⟨nofun, nofun⟩

theorem guarded_overflow : ScriptError.overflow.Guarded := ⟨nofun, nofun⟩

/-- After the comparison the stack is known to be large enough. -/
theorem ends_needs_bind {α : Type} {R : α → Prop} {n : ℕ} {f : Unit → Except ScriptError α}
    (hf : n ≤ stack.length → Ends R ScriptError.Guarded (f ())) :
    Ends R ScriptError.Guarded (needs stack n >>= f) :=
  ends_ensure_bind guarded_returnFalse fun h => hf (of_decide_eq_true h)

theorem stacktop_eq_ok {i : ℕ} (h : i - 1 < stack.length) :
    stacktop stack i = .ok (stack.get ⟨i - 1, h⟩) := by
  rw [stacktop, List.getElem?_eq_getElem h]
  rfl

/-- An access within the stack finds one of its elements. -/
theorem ends_stacktop {i : ℕ} (h : i - 1 < stack.length) :
    Ends (fun vch => vch ∈ stack) ScriptError.Guarded (stacktop stack i) := by
  rw [stacktop_eq_ok h]
  exact List.getElem_mem h

theorem ends_popstack (h : 0 < stack.length) :
    Ends (fun stack' => stack'.length + 1 = stack.length ∧ ∀ v ∈ stack', v ∈ stack)
      ScriptError.Guarded (popstack stack) := by
  cases stack with
  | nil => cases h
  | cons vch stack => exact ⟨rfl, fun v hv => List.mem_cons_of_mem vch hv⟩

theorem ends_erasetop {i : ℕ} (hpos : 0 < i) (h : i ≤ stack.length) :
    Ends (fun stack' => stack'.length + 1 = stack.length ∧ ∀ v ∈ stack', v ∈ stack)
      ScriptError.Guarded (erasetop stack i) := by
  rw [erasetop, decide_eq_true h, ensure_true]
  refine ⟨?_, fun v hv => List.mem_of_mem_eraseIdx hv⟩
  rw [List.length_eraseIdx_of_lt (by omega)]
  omega

theorem ends_inserttop {i : ℕ} {vch : Valtype} (h : i ≤ stack.length) (hvch : vch ∈ stack) :
    Ends (fun stack' => ∀ v ∈ stack', v ∈ stack) ScriptError.Guarded (inserttop stack i vch) := by
  rw [inserttop, decide_eq_true h, ensure_true]
  intro v hv
  rcases (List.mem_insertIdx h).mp hv with rfl | hv
  · exact hvch
  · exact hv

theorem ends_swaptop {i j : ℕ} (hi : i - 1 < stack.length) (hj : j - 1 < stack.length) :
    Ends (fun stack' => stack'.length = stack.length ∧ ∀ v ∈ stack', v ∈ stack)
      ScriptError.Guarded (swaptop stack i j) := by
  refine (ends_stacktop hi).bind fun vch1 h1 => (ends_stacktop hj).bind fun vch2 h2 => ?_
  refine ⟨by rw [List.length_set, List.length_set], fun v hv => ?_⟩
  rcases List.mem_or_eq_of_mem_set hv with hv | rfl
  · rcases List.mem_or_eq_of_mem_set hv with hv | rfl
    · exact hv
    · exact h2
  · exact h1

theorem ends_popstackN {i : ℕ} (h : i ≤ stack.length) :
    Ends (fun stack' => ∀ v ∈ stack', v ∈ stack) ScriptError.Guarded (popstackN i stack) := by
  induction i generalizing stack with
  | zero => exact fun v hv => hv
  | succ i ih =>
    refine (ends_popstack (by omega)).bind fun stack' hstack' => ?_
    exact (ih (by omega)).mono fun _ hsub v hv => hstack'.2 v (hsub v hv)

/-! ## Numbers -/

theorem getvch_length (bn : ℤ) : (getvch bn).length = mpiSize bn.natAbs := leBytes_length _ _

/-- A number takes no more bytes than it needs. -/
theorem mpiSize_le {n k : ℕ} (h : 2 * n < 256 ^ k) : mpiSize n ≤ k := Mpi.size_le h

/-- The numbers that four bytes hold, and what one operation makes of them, are short. -/
theorem getvch_length_le {bn : ℤ} (h : bn.natAbs < 2 ^ 33) : (getvch bn).length ≤ 520 := by
  rw [getvch_length]
  exact (mpiSize_le (k := 5) (by omega)).trans (by decide)

theorem vchBool_length (fValue : Bool) : (vchBool fValue).length ≤ 520 := by
  cases fValue <;> decide

theorem readLE_lt (bs : List UInt8) : readLE bs < 256 ^ bs.length := by
  induction bs with
  | nil => exact Nat.one_pos
  | cons b bs ih =>
    have := b.toNat_lt
    rw [readLE, List.length_cons, pow_succ]
    omega

theorem readLE_leBytes (k n : ℕ) : readLE (leBytes k n) = n % 256 ^ k := by
  induction k generalizing n with
  | zero => rw [leBytes, readLE, pow_zero, Nat.mod_one]
  | succ k ih =>
    have hbyte : (UInt8.ofNat n).toNat = n % 256 := UInt8.toNat_ofNat
    rw [leBytes, readLE, ih, hbyte, pow_succ', Nat.mod_mul]

/-- The magnitude of a value is below half of what its bytes hold. -/
theorem setvch_natAbs_lt {vch : Valtype} {k : ℕ} (h : vch.length ≤ k + 1) :
    2 * (setvch vch).natAbs < 256 ^ (k + 1) := by
  have hlt := readLE_lt vch
  have hle : 256 ^ vch.length ≤ 256 ^ (k + 1) := Nat.pow_le_pow_right (by decide) h
  unfold setvch
  dsimp only
  cases vch with
  | nil =>
    rw [if_neg (by simp), readLE]
    exact Nat.pow_pos (by decide)
  | cons b vch =>
    have heven : 256 ^ (b :: vch).length = 2 * (256 ^ (b :: vch).length / 2) := by
      rw [List.length_cons, pow_succ]
      omega
    generalize 256 ^ (b :: vch).length = m at *
    split_ifs with hsign
    · rw [Int.natAbs_neg, Int.natAbs_natCast]
      omega
    · have := (not_and.mp hsign) (by simp)
      rw [Int.natAbs_natCast]
      omega

/-- `CastToBigNum` leaves a number of four bytes. -/
theorem ends_castToBigNum (vch : Valtype) :
    Ends (fun bn => bn.natAbs < 2 ^ 31) ScriptError.Guarded (castToBigNum vch) := by
  refine ends_ensure_bind guarded_overflow fun h => ?_
  have hfirst := setvch_natAbs_lt (k := 3) (of_decide_eq_true h)
  have hlen : (getvch (setvch vch)).length ≤ 4 := by
    rw [getvch_length]
    exact mpiSize_le hfirst
  have := setvch_natAbs_lt (k := 3) hlen
  rw [ends_pure]
  omega

theorem NumericOp.exec_natAbs_lt (op : NumericOp) {bn : ℤ} (h : bn.natAbs < 2 ^ 31) :
    (op.exec bn).natAbs < 2 ^ 33 := by
  cases op with
  | op1add | op1sub | opNegate => simp only [NumericOp.exec]; omega
  | opAbs => simp only [NumericOp.exec]; split_ifs <;> omega
  | opNot | op0notequal => simp only [NumericOp.exec, boolBigNum]; split_ifs <;> decide

theorem NumericOp2.exec_natAbs_lt (op : NumericOp2) {bn1 bn2 : ℤ} (h1 : bn1.natAbs < 2 ^ 31)
    (h2 : bn2.natAbs < 2 ^ 31) : (op.exec bn1 bn2).natAbs < 2 ^ 33 := by
  have hbool : ∀ fValue, (boolBigNum fValue).natAbs < 2 ^ 33 := by
    intro fValue
    cases fValue <;> decide
  cases op with
  | opAdd | opSub => simp only [NumericOp2.exec]; omega
  | opMin | opMax => simp only [NumericOp2.exec]; split_ifs <;> omega
  | _ => exact hbool _

/-! ## Operations -/

theorem HashOp.exec_length (op : HashOp) (vch : Valtype) : (op.exec env vch).length ≤ 520 := by
  cases op <;> simp [HashOp.exec]

/-- The value on the top is read, found to be a number and popped. -/
theorem ends_bignum_bind {α : Type} {R : α → Prop} {i : ℕ} {f : ℤ → Except ScriptError α}
    (h : i - 1 < stack.length)
    (hf : ∀ bn : ℤ, bn.natAbs < 2 ^ 31 → Ends R ScriptError.Guarded (f bn)) :
    Ends R ScriptError.Guarded (do f (← castToBigNum (← stacktop stack i))) :=
  (ends_stacktop h).bind fun vch _ => (ends_castToBigNum vch).bind hf

theorem ends_verifytop (h : Small stack) (hlen : 0 < stack.length) :
    Ends Small ScriptError.Guarded (verifytop stack) := by
  refine (ends_stacktop (by omega)).bind fun vch _ => ?_
  refine ends_ensure_bind guarded_returnFalse fun _ => ?_
  exact (ends_popstack hlen).mono fun stack' hstack' => h.of_subset hstack'.2

theorem ends_execEqual (h : Small stack) :
    Ends (fun stack' => Small stack' ∧ 0 < stack'.length) ScriptError.Guarded (execEqual stack) := by
  refine ends_needs_bind fun hlen => ?_
  refine (ends_stacktop (by omega)).bind fun vch1 _ => (ends_stacktop (by omega)).bind fun vch2 _ => ?_
  refine (ends_popstack (by omega)).bind fun stack1 h1 => ?_
  refine (ends_popstack (by omega)).bind fun stack2 h2 => ?_
  exact ⟨((h.of_subset h1.2).of_subset h2.2).cons (vchBool_length _), Nat.succ_pos _⟩

theorem ends_execPick (fRoll : Bool) (h : Small stack) :
    Ends Small ScriptError.Guarded (execPick fRoll stack) := by
  refine ends_needs_bind fun hlen => ends_bignum_bind (by omega) fun bn _ => ?_
  refine (ends_popstack (by omega)).bind fun stack1 h1 => ?_
  refine ends_ensure_bind guarded_returnFalse fun hn => ?_
  have hn' : 0 ≤ getint bn ∧ getint bn < stack1.length := by simpa using hn
  have hsmall := h.of_subset h1.2
  refine (ends_stacktop (by omega)).bind fun vch hvch => ?_
  cases fRoll with
  | false => exact hsmall.cons (hsmall vch hvch)
  | true =>
    refine (ends_erasetop (by omega) (by omega)).bind fun stack2 h2 => ?_
    exact (hsmall.of_subset h2.2).cons (hsmall vch hvch)

theorem ends_execNumeric2 (op : NumericOp2) (h : Small stack) :
    Ends (fun stack' => Small stack' ∧ 0 < stack'.length) ScriptError.Guarded
      (execNumeric2 op stack) := by
  refine ends_needs_bind fun hlen => ?_
  refine ends_bignum_bind (by omega) fun bn1 hbn1 => ends_bignum_bind (by omega) fun bn2 hbn2 => ?_
  refine (ends_popstack (by omega)).bind fun stack1 h1 => ?_
  refine (ends_popstack (by omega)).bind fun stack2 h2 => ?_
  exact ⟨((h.of_subset h1.2).of_subset h2.2).cons
    (getvch_length_le (op.exec_natAbs_lt hbn1 hbn2)), Nat.succ_pos _⟩

/-- **The operations on the stack never read below its bottom**, and all values they leave are
short. -/
theorem StackOp.ends_exec (op : StackOp) (h : Small stack) (hsize : stack.length ≤ 1000) :
    Ends Small ScriptError.Guarded (op.exec env stack) := by
  cases op with
  | opVerify => exact ends_needs_bind fun hlen => ends_verifytop h hlen
  | op2drop =>
    refine ends_needs_bind fun hlen => (ends_popstack (by omega)).bind fun stack1 h1 => ?_
    exact (ends_popstack (by omega)).mono fun _ h2 => (h.of_subset h1.2).of_subset h2.2
  | op2dup =>
    refine ends_needs_bind fun hlen => (ends_stacktop (by omega)).bind fun vch1 h1 => ?_
    refine (ends_stacktop (by omega)).bind fun vch2 h2 => ?_
    exact (h.cons (h vch1 h1)).cons (h vch2 h2)
  | op3dup =>
    refine ends_needs_bind fun hlen => (ends_stacktop (by omega)).bind fun vch1 h1 => ?_
    refine (ends_stacktop (by omega)).bind fun vch2 h2 => ?_
    refine (ends_stacktop (by omega)).bind fun vch3 h3 => ?_
    exact ((h.cons (h vch1 h1)).cons (h vch2 h2)).cons (h vch3 h3)
  | op2over =>
    refine ends_needs_bind fun hlen => (ends_stacktop (by omega)).bind fun vch1 h1 => ?_
    refine (ends_stacktop (by omega)).bind fun vch2 h2 => ?_
    exact (h.cons (h vch1 h1)).cons (h vch2 h2)
  | op2rot =>
    refine ends_needs_bind fun hlen => (ends_stacktop (by omega)).bind fun vch1 h1 => ?_
    refine (ends_stacktop (by omega)).bind fun vch2 h2 => ?_
    refine (ends_erasetop (by omega) (by omega)).bind fun stack1 hstack1 => ?_
    refine (ends_erasetop (by omega) (by omega)).bind fun stack2 hstack2 => ?_
    exact (((h.of_subset hstack1.2).of_subset hstack2.2).cons (h vch1 h1)).cons (h vch2 h2)
  | op2swap =>
    refine ends_needs_bind fun hlen => (ends_swaptop (by omega) (by omega)).bind fun stack1 h1 => ?_
    refine (ends_swaptop (by omega) (by omega)).mono fun stack2 h2 => ?_
    exact (h.of_subset h1.2).of_subset h2.2
  | opIfdup =>
    refine ends_needs_bind fun hlen => (ends_stacktop (by omega)).bind fun vch hvch => ?_
    rw [ends_pure]
    split_ifs
    · exact h.cons (h vch hvch)
    · exact h
  | opDepth => exact h.cons (getvch_length_le (by omega))
  | opDrop =>
    refine ends_needs_bind fun hlen => ?_
    exact (ends_popstack (by omega)).mono fun _ h1 => h.of_subset h1.2
  | opDup =>
    refine ends_needs_bind fun hlen => (ends_stacktop (by omega)).bind fun vch hvch => ?_
    exact h.cons (h vch hvch)
  | opNip =>
    refine ends_needs_bind fun hlen => ?_
    exact (ends_erasetop (by omega) (by omega)).mono fun _ h1 => h.of_subset h1.2
  | opOver =>
    refine ends_needs_bind fun hlen => (ends_stacktop (by omega)).bind fun vch hvch => ?_
    exact h.cons (h vch hvch)
  | opPick => exact ends_execPick false h
  | opRoll => exact ends_execPick true h
  | opRot =>
    refine ends_needs_bind fun hlen => (ends_swaptop (by omega) (by omega)).bind fun stack1 h1 => ?_
    refine (ends_swaptop (by omega) (by omega)).mono fun stack2 h2 => ?_
    exact (h.of_subset h1.2).of_subset h2.2
  | opSwap =>
    refine ends_needs_bind fun hlen => ?_
    exact (ends_swaptop (by omega) (by omega)).mono fun _ h1 => h.of_subset h1.2
  | opTuck =>
    refine ends_needs_bind fun hlen => (ends_stacktop (by omega)).bind fun vch hvch => ?_
    exact (ends_inserttop (by omega) hvch).mono fun _ h1 => h.of_subset h1
  | opSize =>
    refine ends_needs_bind fun hlen => (ends_stacktop (by omega)).bind fun vch hvch => ?_
    have := h vch hvch
    exact h.cons (getvch_length_le (by omega))
  | opEqual => exact (ends_execEqual h).mono fun _ h1 => h1.1
  | opEqualverify => exact (ends_execEqual h).bind fun _ h1 => ends_verifytop h1.1 h1.2
  | opNumeric op =>
    refine ends_needs_bind fun hlen => ends_bignum_bind (by omega) fun bn hbn => ?_
    refine (ends_popstack (by omega)).bind fun stack1 h1 => ?_
    exact (h.of_subset h1.2).cons (getvch_length_le (op.exec_natAbs_lt hbn))
  | opNumeric2 op =>
    refine (ends_execNumeric2 op h).bind fun stack1 h1 => ?_
    split_ifs
    · exact ends_verifytop h1.1 h1.2
    · exact h1.1
  | opWithin =>
    refine ends_needs_bind fun hlen => ends_bignum_bind (by omega) fun bn1 _ => ?_
    refine ends_bignum_bind (by omega) fun bn2 _ => ends_bignum_bind (by omega) fun bn3 _ => ?_
    refine (ends_popstack (by omega)).bind fun stack1 h1 => ?_
    refine (ends_popstack (by omega)).bind fun stack2 h2 => ?_
    refine (ends_popstack (by omega)).bind fun stack3 h3 => ?_
    exact (((h.of_subset h1.2).of_subset h2.2).of_subset h3.2).cons (vchBool_length _)
  | opHash op =>
    refine ends_needs_bind fun hlen => (ends_stacktop (by omega)).bind fun vch hvch => ?_
    refine (ends_popstack (by omega)).bind fun stack1 h1 => ?_
    exact (h.of_subset h1.2).cons (op.exec_length vch)

/-! ## Signatures -/

theorem ends_execChecksig (fVerify : Bool) (scriptCode : CScript) (h : Small stack) :
    Ends Small ScriptError.Guarded (execChecksig env ctx fVerify scriptCode stack).result := by
  simp only [execChecksig, callCheckSig, bind_result, lift_result, pure_result, tick_result]
  refine ends_needs_bind fun hlen => (ends_stacktop (by omega)).bind fun vchSig _ => ?_
  refine (ends_stacktop (by omega)).bind fun vchPubKey _ => ?_
  refine (ends_popstack (by omega)).bind fun stack1 h1 => ?_
  refine (ends_popstack (by omega)).bind fun stack2 h2 => ?_
  have hsmall := ((h.of_subset h1.2).of_subset h2.2).cons
    (vchBool_length (checkSig env ctx vchSig vchPubKey
      (scriptCode.findAndDelete (CScript.pushData [] vchSig))))
  cases fVerify with
  | false => exact hsmall
  | true => exact ends_verifytop hsmall (Nat.succ_pos _)

/-- The loop reaches no further than the signatures and the keys it was given. -/
theorem ends_multisigLoop {check : Valtype → Valtype → Counted ScriptError Bool}
    (hcheck : ∀ vchSig vchPubKey, ∃ b, (check vchSig vchPubKey).result = .ok b) {isig ikey nSigsCount
    nKeysCount : ℕ} (hpos : 0 < ikey) (hsig : isig + nSigsCount ≤ stack.length + 1)
    (hkey : ikey + nKeysCount ≤ isig) :
    Ends (fun _ => True) ScriptError.Guarded
      (multisigLoop check stack isig ikey nSigsCount nKeysCount).result := by
  induction nKeysCount generalizing isig ikey nSigsCount with
  | zero => cases nSigsCount <;> trivial
  | succ nKeysCount ih =>
    cases nSigsCount with
    | zero => trivial
    | succ nSigsCount =>
      rw [multisigLoop]
      split_ifs
      · trivial
      · rw [bind_result]
        refine (ends_stacktop (by omega)).bind fun vchSig _ => ?_
        rw [bind_result]
        refine (ends_stacktop (by omega)).bind fun vchPubKey _ => ?_
        obtain ⟨b, hb⟩ := hcheck vchSig vchPubKey
        rw [bind_result, hb]
        cases b with
        | false => exact ih (by omega) (by omega) (by omega)
        | true => exact ih (by omega) (by omega) (by omega)

theorem ends_execCheckmultisig (fVerify : Bool) (scriptCode : CScript) (nOpCount : ℕ)
    (h : Small stack) :
    Ends (fun p => Small p.2) ScriptError.Guarded
      (execCheckmultisig env ctx fVerify scriptCode nOpCount stack).result := by
  simp only [execCheckmultisig, bind_result, lift_result]
  refine ends_needs_bind fun hone => ends_bignum_bind (by omega) fun bnKeys _ => ?_
  refine ends_ensure_bind guarded_returnFalse fun hkeys => ?_
  refine ends_ensure_bind guarded_returnFalse fun _ => ends_needs_bind fun hlen => ?_
  refine ends_bignum_bind (by omega) fun bnSigs _ => ?_
  refine ends_ensure_bind guarded_returnFalse fun hsigs => ends_needs_bind fun hall => ?_
  -- the signatures and the keys lie within the elements that were compared
  have hsigsAt : Ends (fun vSigs => ∀ b ∈ vSigs, b ∈ stack) ScriptError.Guarded
      (multisigSigs stack (2 + (getint bnKeys).toNat + 1) (getint bnSigs).toNat) := by
    refine ends_mapM fun k hk => ends_stacktop ?_
    have := List.mem_range.mp hk
    omega
  refine hsigsAt.bind fun vSigs _ => ?_
  refine (ends_multisigLoop (fun _ _ => ⟨_, rfl⟩) (by omega) (by omega) (by omega)).bind
    fun fSuccess _ => ?_
  refine (ends_popstackN hall).bind fun stack1 h1 => ?_
  have hsmall := (h.of_subset h1).cons (vchBool_length fSuccess)
  cases fVerify with
  | false => exact hsmall
  | true =>
    rw [if_pos rfl, bind_result]
    exact (ends_verifytop hsmall (Nat.succ_pos _)).bind fun stack2 h2 => h2

/-! ## Steps -/

/-- The invariant of the main loop. -/
structure EvalState.Bounded (s : EvalState) : Prop where
  size_le : s.stack.length + s.altstack.length ≤ 1000
  stack : Small s.stack
  altstack : Small s.altstack

variable {s s' : EvalState} {opcode : ℕ}

/-- Each case of the switch keeps all values short. -/
theorem OpCode.ends_exec (op : OpCode) (h : s.Bounded) (hopcode : opcode < 256) :
    Ends (fun s' => Small s'.stack ∧ Small s'.altstack) ScriptError.Guarded
      (op.exec env ctx opcode s).result := by
  have hsize := h.size_le
  -- an operation leaves elements that were on one of the stacks, or short new ones
  cases op with
  | opN =>
    refine ⟨h.stack.cons (getvch_length_le ?_), h.altstack⟩
    rw [op1]
    omega
  | opNop => exact ⟨h.stack, h.altstack⟩
  | opIf fNot =>
    rw [OpCode.exec, lift_result, execIf]
    by_cases hexec : s.fExec = true
    · rw [if_pos hexec]
      refine ends_needs_bind fun hlen => (ends_stacktop (by omega)).bind fun vch _ => ?_
      refine (ends_popstack (by omega)).bind fun stack1 h1 => ?_
      exact ⟨h.stack.of_subset h1.2, h.altstack⟩
    · rw [if_neg hexec]
      exact ⟨h.stack, h.altstack⟩
  | opElse =>
    simp only [OpCode.exec, bind_result, lift_result]
    exact ends_ensure_bind guarded_returnFalse fun _ => ⟨h.stack, h.altstack⟩
  | opEndif =>
    simp only [OpCode.exec, bind_result, lift_result]
    exact ends_ensure_bind guarded_returnFalse fun _ => ⟨h.stack, h.altstack⟩
  | opReturn => exact guarded_returnFalse
  | opToaltstack =>
    simp only [OpCode.exec, bind_result, lift_result]
    refine ends_needs_bind fun hlen => (ends_stacktop (by omega)).bind fun vch hvch => ?_
    refine (ends_popstack (by omega)).bind fun stack1 h1 => ?_
    exact ⟨h.stack.of_subset h1.2, h.altstack.cons (h.stack vch hvch)⟩
  | opFromaltstack =>
    simp only [OpCode.exec, bind_result, lift_result]
    refine ends_needs_bind fun hlen => (ends_stacktop (by omega)).bind fun vch hvch => ?_
    refine (ends_popstack (by omega)).bind fun stack1 h1 => ?_
    exact ⟨h.stack.cons (h.altstack vch hvch), h.altstack.of_subset h1.2⟩
  | opStack op =>
    simp only [OpCode.exec, bind_result, lift_result]
    exact (op.ends_exec h.stack (by omega)).bind fun stack1 h1 => ⟨h1, h.altstack⟩
  | opCodeseparator => exact ⟨h.stack, h.altstack⟩
  | opChecksig fVerify =>
    simp only [OpCode.exec, bind_result]
    exact (ends_execChecksig fVerify s.pbegincodehash h.stack).bind fun stack1 h1 =>
      ⟨h1, h.altstack⟩
  | opCheckmultisig fVerify =>
    simp only [OpCode.exec, bind_result]
    exact (ends_execCheckmultisig fVerify s.pbegincodehash s.nOpCount h.stack).bind fun p hp =>
      ⟨hp, h.altstack⟩

/-- **One round keeps the bounds**, and does not end below the bottom of a stack. -/
theorem ends_evalStep (h : s.Bounded) :
    Ends EvalState.Bounded ScriptError.Guarded (evalStep env ctx s).result := by
  unfold evalStep
  cases hop : s.pc.getOp2 with
  | none => exact guarded_returnFalse
  | some p =>
    obtain ⟨opcode, vchPushValue, pc⟩ := p
    dsimp only
    simp only [bind_result, lift_result]
    refine ends_ensure_bind guarded_returnFalse fun hpush => ?_
    refine ends_ensure_bind guarded_returnFalse fun _ => ?_
    refine ends_ensure_bind guarded_returnFalse fun _ => ?_
    generalize (if op16 < opcode then s.nOpCount + 1 else s.nOpCount) = nOpCount
    have hstate : EvalState.Bounded { s with pc := pc, nOpCount := nOpCount } :=
      ⟨h.size_le, h.stack, h.altstack⟩
    generalize { s with pc := pc, nOpCount := nOpCount } = s1 at hstate
    have hexec : Ends (fun s' => Small s'.stack ∧ Small s'.altstack) ScriptError.Guarded
        (execOp env ctx opcode vchPushValue s1).result := by
      unfold execOp
      split_ifs
      · exact ⟨hstate.stack.cons (of_decide_eq_true hpush), hstate.altstack⟩
      · cases opCase opcode with
        | none => exact guarded_returnFalse
        | some op => exact op.ends_exec hstate (CScript.getOp2_opcode_lt hop)
      · exact ⟨hstate.stack, hstate.altstack⟩
    refine hexec.bind fun s2 hs2 => ends_ensure_bind guarded_returnFalse fun hsize => ?_
    exact ⟨of_decide_eq_true hsize, hs2.1, hs2.2⟩

/-! ## Evaluations -/

/-- One completed round. -/
def EvalStep (env : ScriptEnv) (ctx : SigContext) (s s' : EvalState) : Prop :=
  s.pc ≠ [] ∧ (evalStep env ctx s).result = .ok s'

/-- The rounds completed after one another. -/
abbrev EvalReaches (env : ScriptEnv) (ctx : SigContext) : EvalState → EvalState → Prop :=
  Relation.ReflTransGen (EvalStep env ctx)

theorem EvalReaches.bounded (h : EvalReaches env ctx s s') (hs : s.Bounded) : s'.Bounded := by
  induction h with
  | refl => exact hs
  | tail _ hstep ih =>
    have hends : Ends EvalState.Bounded ScriptError.Guarded (evalStep env ctx _).result :=
      ends_evalStep ih
    rw [hstep.2] at hends
    exact hends

/-- The main loop keeps the bounds. -/
theorem ends_evalLoop (nFuel : ℕ) (h : s.Bounded) :
    Ends EvalState.Bounded ScriptError.Guarded (evalLoop env ctx nFuel s).result := by
  induction nFuel generalizing s with
  | zero => exact h
  | succ nFuel ih =>
    rw [evalLoop]
    split_ifs
    · exact h
    · rw [bind_result]
      exact (ends_evalStep h).bind fun s1 h1 => ih h1

theorem EvalState.bounded_init {script : CScript} (hlen : stack.length ≤ 1000) (h : Small stack) :
    (EvalState.init stack script).Bounded :=
  ⟨hlen, h, fun _ hv => absurd hv List.not_mem_nil⟩

theorem ends_evalScript (script : CScript) (hlen : stack.length ≤ 1000) (h : Small stack) :
    Ends (fun stack' => stack'.length ≤ 1000 ∧ Small stack') ScriptError.Guarded
      (evalScript env ctx stack script).result := by
  simp only [evalScript, bind_result, lift_result]
  refine ends_ensure_bind guarded_returnFalse fun _ => ?_
  refine (ends_evalLoop _ (EvalState.bounded_init hlen h)).bind fun s1 h1 => ?_
  refine ends_ensure_bind guarded_returnFalse fun _ => ?_
  have := h1.size_le
  exact ⟨by omega, h1.stack⟩

/-! ## VerifyScript -/

/-- A byte above the pushes is an operation of its own. -/
theorem CScript.getOp2_cons {b : UInt8} {pc : CScript} (h : opPushdata4 < b.toNat) :
    CScript.getOp2 (b :: pc) = some (b.toNat, [], pc) := by
  rw [CScript.getOp2]
  exact if_neg (not_le.mpr h)

/-- A hash operation has nothing to hash on an empty stack. -/
theorem evalScript_hash160_nil {b : UInt8} {rest : CScript} (hb : b.toNat = opHash160) :
    ∃ e, (evalScript env ctx [] (b :: rest)).result = .error e := by
  have hstep : (evalStep env ctx (.init [] (b :: rest))).result = .error .returnFalse := by
    have hop : CScript.getOp2 (b :: rest) = some (opHash160, [], rest) := by
      rw [CScript.getOp2_cons (by rw [hb]; decide), hb]
    simp only [evalStep, EvalState.init, hop]
    rfl
  have hloop : (evalLoop env ctx (b :: rest).length (.init [] (b :: rest))).result =
      .error .returnFalse := by
    rw [List.length_cons, evalLoop, if_neg (by simp [EvalState.init]), bind_result, hstep]
    rfl
  rw [evalScript, bind_result, lift_result]
  cases hlen : decide ((b :: rest).length ≤ 10000) with
  | false => exact ⟨_, rfl⟩
  | true =>
    rw [ensure_true, bind_result, hloop]
    exact ⟨_, rfl⟩

/-- A pay-to-script-hash output is hashed first. -/
theorem CScript.isPayToScriptHash_cons {s : CScript} (h : s.isPayToScriptHash = true) :
    ∃ b rest, s = b :: rest ∧ b.toNat = opHash160 := by
  cases s with
  | nil => cases h
  | cons b rest =>
    simp only [isPayToScriptHash, Bool.and_eq_true, beq_iff_eq] at h
    exact ⟨b, rest, rfl, h.1.1.2⟩

/-- **`VerifyScript` has an answer**: in particular the stack it copied for a pay-to-script-hash
output is not empty. -/
theorem verifyScript_eq_ok (scriptSig scriptPubKey : CScript) (fValidatePayToScriptHash : Bool) :
    ∃ b, verifyScript env ctx scriptSig scriptPubKey fValidatePayToScriptHash = .ok b := by
  unfold verifyScript
  cases hsig : (evalScript env ctx [] scriptSig).result with
  | error e => exact ⟨false, rfl⟩
  | ok stackCopy =>
    dsimp only
    cases hpub : (evalScript env ctx stackCopy scriptPubKey).result with
    | error e => exact ⟨false, rfl⟩
    | ok stack =>
      dsimp only
      cases stack with
      | nil => exact ⟨false, rfl⟩
      | cons vch stack =>
        have hback : stackBack (vch :: stack) = .ok vch := rfl
        simp only [hback, List.isEmpty_cons, Bool.false_eq_true, if_false]
        by_cases htrue : castToBool vch = false
        · exact ⟨false, if_pos htrue⟩
        by_cases hp2sh : (fValidatePayToScriptHash && scriptPubKey.isPayToScriptHash) = true
        · by_cases hpush : (!scriptSig.isPushOnly) = true
          · exact ⟨false, by simp [bind, Except.bind, htrue, hp2sh, hpush]⟩
          cases stackCopy with
          | nil =>
            -- the hash operation of the output has failed before
            obtain ⟨b, rest, rfl, hb⟩ :=
              CScript.isPayToScriptHash_cons (Bool.and_eq_true_iff.mp hp2sh).2
            obtain ⟨e, he⟩ : ∃ e, (evalScript env ctx [] (b :: rest)).result = .error e :=
              evalScript_hash160_nil hb
            rw [he] at hpub
            cases hpub
          | cons pubKey2 rest =>
            cases hredeem : (evalScript env ctx rest pubKey2).result with
            | error e =>
              exact ⟨false, by simp [bind, Except.bind, htrue, hp2sh, hpush, stackBack, stacktop,
                popstack, hredeem]⟩
            | ok last =>
              cases last with
              | nil =>
                exact ⟨false, by simp [bind, Except.bind, htrue, hp2sh, hpush, stackBack, stacktop,
                  popstack, hredeem]⟩
              | cons vch' last =>
                exact ⟨castToBool vch', by simp [bind, Except.bind, htrue, hp2sh, hpush, stackBack,
                  stacktop, popstack, hredeem]⟩
        · exact ⟨true, by simp [bind, Except.bind, htrue, hp2sh]⟩

/-- **No script reads below the bottom of a stack.** From a stack within the bounds every completed
round leaves the stacks within the bounds, no round and no evaluation ends with an access below the
bottom, and `VerifyScript` never takes the back of an empty stack. -/
theorem evalScript_safe (env : ScriptEnv) (ctx : SigContext) (script : CScript)
    (hlen : stack.length ≤ 1000) (hsmall : ∀ vch ∈ stack, vch.length ≤ 520) :
    (∀ s, EvalReaches env ctx (.init stack script) s →
      s.stack.length + s.altstack.length ≤ 1000 ∧
      (∀ vch ∈ s.stack ++ s.altstack, vch.length ≤ 520) ∧
      ∀ e, (evalStep env ctx s).result = .error e → e ≠ .outOfRange ∧ e ≠ .stackEmpty) ∧
    (∀ e, (evalScript env ctx stack script).result = .error e → e ≠ .outOfRange ∧ e ≠ .stackEmpty) ∧
    ∀ scriptSig scriptPubKey fValidatePayToScriptHash,
      ∃ b, verifyScript env ctx scriptSig scriptPubKey fValidatePayToScriptHash = .ok b := by
  refine ⟨fun s hs => ?_, fun e he => ?_, verifyScript_eq_ok⟩
  · have hbounded := hs.bounded (EvalState.bounded_init hlen hsmall)
    refine ⟨hbounded.size_le, fun vch hvch => ?_, fun e he => ?_⟩
    · rcases List.mem_append.mp hvch with hvch | hvch
      · exact hbounded.stack vch hvch
      · exact hbounded.altstack vch hvch
    · have hends : Ends EvalState.Bounded ScriptError.Guarded (evalStep env ctx s).result :=
        ends_evalStep hbounded
      rw [he] at hends
      exact hends
  · have hends : Ends _ ScriptError.Guarded (evalScript env ctx stack script).result :=
      ends_evalScript script hlen hsmall
    rw [he] at hends
    exact hends

/-- The hypotheses hold of a stack that is too small for an addition. -/
theorem evalScript_safe_add :
    ∃ e, (evalScript exampleScriptEnv exampleContext [[1]] [0x93]).result = .error e ∧
      e ≠ .outOfRange ∧ e ≠ .stackEmpty :=
  have hlen : ([[1]] : Stack).length ≤ 1000 := by decide
  ⟨.returnFalse, rfl, (evalScript_safe exampleScriptEnv exampleContext [0x93] hlen
    (by decide)).2.1 _ rfl⟩

end FoxCoin
