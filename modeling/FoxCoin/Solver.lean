import FoxCoin.EvalScript

/-! # Standard scripts

`Solver` compares a script with the templates of the standard transaction types and extracts the
data that stands in for the parameters of the template. -/

namespace FoxCoin

/-! ## Templates -/

/-- `txnouttype`, but for `TX_NONSTANDARD`, with which `Solver` fails. -/
inductive TxnOutType where
  | txPubkey | txPubkeyhash | txScripthash | txMultisig
  deriving DecidableEq, Repr

/-- `OP_DUP`. -/
def opDup : ℕ := 0x76
/-- `OP_EQUALVERIFY`. -/
def opEqualverify : ℕ := 0x88
/-- `OP_SMALLINTEGER`, which stands for `OP_0` or one of `OP_1` to `OP_16`. -/
def opSmallinteger : ℕ := 0xfa
/-- `OP_PUBKEYS`, which stands for public keys. -/
def opPubkeys : ℕ := 0xfb
/-- `OP_PUBKEYHASH`, which stands for the hash of a public key. -/
def opPubkeyhash : ℕ := 0xfd
/-- `OP_PUBKEY`, which stands for a public key. -/
def opPubkey : ℕ := 0xfe

/-- `CScript::operator<<` of an opcode, one after the other. -/
def CScript.ofOpcodes (opcodes : List ℕ) : CScript := opcodes.map UInt8.ofNat

/-- `mTemplates`, in the order of the map. -/
def mTemplates : List (TxnOutType × CScript) :=
  [(.txPubkey, .ofOpcodes [opPubkey, opChecksig]),
    (.txPubkeyhash, .ofOpcodes [opDup, opHash160, opPubkeyhash, opEqualverify, opChecksig]),
    (.txMultisig, .ofOpcodes [opSmallinteger, opPubkeys, opSmallinteger, opCheckmultisig])]

/-- `CScript::DecodeOP_N`. -/
def decodeOpN (opcode : ℕ) : ℕ := if opcode = 0 then 0 else opcode - (op1 - 1)

/-! ## Matching -/

/-- Data of the size of a public key. -/
def isPubkeySize (vch : Valtype) : Bool := decide (33 ≤ vch.length) && decide (vch.length ≤ 120)

/-- One operation of the script against one of the template, which may add to the solutions. -/
def matchOp (opcode1 : ℕ) (vch1 : Valtype) (opcode2 : ℕ) (vch2 : Valtype)
    (vSolutions : List Valtype) : Option (List Valtype) :=
  if opcode2 = opPubkey then
    if isPubkeySize vch1 then some (vSolutions ++ [vch1]) else none
  else if opcode2 = opPubkeyhash then
    if vch1.length = 20 then some (vSolutions ++ [vch1]) else none
  else if opcode2 = opSmallinteger then
    if opcode1 = 0 ∨ op1 ≤ opcode1 ∧ opcode1 ≤ op16 then
      some (vSolutions ++ [[UInt8.ofNat (decodeOpN opcode1)]])
    else none
  else if opcode1 = opcode2 ∧ vch1 = vch2 then some vSolutions
  else none

/-- What was read of the script, and the solutions so far. -/
structure MatchState where
  opcode1 : ℕ
  vch1 : Valtype
  pc1 : CScript
  vSolutions : List Valtype

/-- The loop of `OP_PUBKEYS`, which takes public keys until an operation is none. -/
def matchPubkeys : ℕ → MatchState → MatchState
  | 0, st => st
  | nFuel + 1, st =>
    if isPubkeySize st.vch1 then
      let vSolutions := st.vSolutions ++ [st.vch1]
      match st.pc1.getOp2 with
      | none => ⟨opInvalidopcode, [], [], vSolutions⟩
      | some (opcode1, vch1, pc1) => matchPubkeys nFuel ⟨opcode1, vch1, pc1, vSolutions⟩
    else st

/-- The comparison of a script with a template, until both are at their end. -/
def matchTemplate : ℕ → CScript → CScript → List Valtype → Option (List Valtype)
  | 0, _, _, _ => none
  | nFuel + 1, pc1, pc2, vSolutions =>
    if pc1.isEmpty && pc2.isEmpty then some vSolutions
    else
      match pc1.getOp2, pc2.getOp2 with
      | some (opcode1, vch1, pc1), some (opcode2, vch2, pc2) =>
        if opcode2 = opPubkeys then
          let st := matchPubkeys (pc1.length + 1) ⟨opcode1, vch1, pc1, vSolutions⟩
          match pc2.getOp2 with
          | none => none
          | some (opcode2, vch2, pc2) =>
            (matchOp st.opcode1 st.vch1 opcode2 vch2 st.vSolutions).bind
              (matchTemplate nFuel st.pc1 pc2)
        else (matchOp opcode1 vch1 opcode2 vch2 vSolutions).bind (matchTemplate nFuel pc1 pc2)
      | _, _ => none

/-- The additional checks for `TX_MULTISIG`. -/
def checkMultisigSolutions (vSolutions : List Valtype) : Bool :=
  let m := ((vSolutions.headD []).headD 0).toNat
  let n := ((vSolutions.getLastD []).headD 0).toNat
  !(decide (m < 1) || decide (n < 1) || decide (n < m) || vSolutions.length - 2 != n)

/-- The scan of the templates: the first that matches decides. -/
def solverLoop (scriptPubKey : CScript) :
    List (TxnOutType × CScript) → Option (TxnOutType × List Valtype)
  | [] => none
  | (type, script2) :: templates =>
    match matchTemplate (script2.length + 1) scriptPubKey script2 [] with
    | none => solverLoop scriptPubKey templates
    | some vSolutions =>
      if type = .txMultisig ∧ checkMultisigSolutions vSolutions = false then none
      else some (type, vSolutions)

/-- `Solver`: the type and the solutions; `none` when it returns false. -/
def solver (scriptPubKey : CScript) : Option (TxnOutType × List Valtype) :=
  if scriptPubKey.isPayToScriptHash then
    some (.txScripthash, [(scriptPubKey.drop 2).take 20])
  else solverLoop scriptPubKey mTemplates

/-- What a call of `Solver` comes to: whether it succeeds, `typeRet`, where `none` is
`TX_NONSTANDARD`, and `vSolutionsRet`. -/
structure SolverRet where
  success : Bool
  typeRet : Option TxnOutType
  vSolutionsRet : List Valtype
  deriving DecidableEq

/-- The scan of the templates with all that it leaves. The additional checks return on their own,
with the type and the solutions as they are. -/
def solverRetLoop (scriptPubKey : CScript) : List (TxnOutType × CScript) → SolverRet
  | [] => ⟨false, none, []⟩
  | (type, script2) :: templates =>
    match matchTemplate (script2.length + 1) scriptPubKey script2 [] with
    | none => solverRetLoop scriptPubKey templates
    | some vSolutions =>
      if type = .txMultisig ∧ checkMultisigSolutions vSolutions = false then
        ⟨false, some type, vSolutions⟩
      else ⟨true, some type, vSolutions⟩

/-- `Solver` with all that it leaves in the variables of its caller. -/
def solverRet (vSolutionsRet : List Valtype) (scriptPubKey : CScript) : SolverRet :=
  if scriptPubKey.isPayToScriptHash then
    ⟨true, some .txScripthash, vSolutionsRet ++ [(scriptPubKey.drop 2).take 20]⟩
  else solverRetLoop scriptPubKey mTemplates

theorem solverRetLoop_success {scriptPubKey : CScript} {templates : List (TxnOutType × CScript)}
    {type : TxnOutType} {vSolutions : List Valtype} :
    solverRetLoop scriptPubKey templates = ⟨true, some type, vSolutions⟩ ↔
      solverLoop scriptPubKey templates = some (type, vSolutions) := by
  induction templates with
  | nil => simp [solverRetLoop, solverLoop]
  | cons tplate templates ih =>
    rw [solverRetLoop, solverLoop]
    cases matchTemplate (tplate.2.length + 1) scriptPubKey tplate.2 [] with
    | none => exact ih
    | some result =>
      simp only
      split_ifs with hbad
      · simp
      · simp

/-- **`Solver` succeeds with a type and solutions** when the scan finds them. -/
theorem solverRet_success {scriptPubKey : CScript} {type : TxnOutType} {vSolutions : List Valtype} :
    solverRet [] scriptPubKey = ⟨true, some type, vSolutions⟩ ↔
      solver scriptPubKey = some (type, vSolutions) := by
  rw [solverRet, solver]
  split_ifs with hp2sh
  · simp
  · exact solverRetLoop_success

/-- `ScriptSigArgsExpected`; `none` when it is negative. -/
def scriptSigArgsExpected : TxnOutType → List Valtype → Option ℕ
  | .txPubkey, _ => some 1
  | .txPubkeyhash, _ => some 2
  | .txMultisig, vSolutions =>
    match vSolutions with
    | (m :: _) :: _ => some (m.toNat + 1)
    | _ => none
  | .txScripthash, _ => some 1

/-- A one-of-two script, with public keys of one repeated byte. -/
example : solver ([0x51, 33] ++ List.replicate 33 2 ++ [33] ++ List.replicate 33 3 ++ [0x52, 0xae]) =
    some (.txMultisig, [[1], List.replicate 33 2, List.replicate 33 3, [2]]) := by decide +kernel

/-! ## What a match says about the script -/

/-- The script starts with these operations, and `rest` comes after them. -/
def CScript.Reads : CScript → List (ℕ × Valtype) → CScript → Prop
  | s, [], rest => s = rest
  | s, (opcode, vch) :: ops, rest => ∃ pc, s.getOp2 = some (opcode, vch, pc) ∧ pc.Reads ops rest

theorem CScript.Reads.append {s pc rest : CScript} {ops ops' : List (ℕ × Valtype)}
    (h : s.Reads ops pc) (h' : pc.Reads ops' rest) : s.Reads (ops ++ ops') rest := by
  induction ops generalizing s with
  | nil =>
    cases h
    exact h'
  | cons op ops ih =>
    obtain ⟨pc1, hop, hrest⟩ := h
    exact ⟨pc1, hop, ih hrest⟩

theorem CScript.Reads.of_append {s rest : CScript} {ops ops' : List (ℕ × Valtype)}
    (h : s.Reads (ops ++ ops') rest) : ∃ pc, s.Reads ops pc ∧ pc.Reads ops' rest := by
  induction ops generalizing s with
  | nil => exact ⟨s, rfl, h⟩
  | cons op ops ih =>
    obtain ⟨pc1, hop, hrest⟩ := h
    obtain ⟨pc, hfirst, hlast⟩ := ih hrest
    exact ⟨pc, ⟨pc1, hop, hfirst⟩, hlast⟩

/-- One operation that is no loop over public keys. -/
theorem matchTemplate_eq_some {nFuel : ℕ} {pc1 pc2 pc2' : CScript} {opcode2 : ℕ} {vch2 : Valtype}
    {vSolutions result : List Valtype} (hop2 : pc2.getOp2 = some (opcode2, vch2, pc2'))
    (hkeys : opcode2 ≠ opPubkeys)
    (h : matchTemplate (nFuel + 1) pc1 pc2 vSolutions = some result) :
    ∃ opcode1 vch1 pc1' vSolutions', pc1.getOp2 = some (opcode1, vch1, pc1') ∧
      matchOp opcode1 vch1 opcode2 vch2 vSolutions = some vSolutions' ∧
      matchTemplate nFuel pc1' pc2' vSolutions' = some result := by
  have hne : pc2.isEmpty = false := by
    cases pc2 with
    | nil => cases hop2
    | cons b pc2 => rfl
  rw [matchTemplate, hne, Bool.and_false, if_neg Bool.false_ne_true, hop2] at h
  cases hop1 : pc1.getOp2 with
  | none =>
    rw [hop1] at h
    cases h
  | some p =>
    obtain ⟨opcode1, vch1, pc1'⟩ := p
    rw [hop1] at h
    dsimp only at h
    rw [if_neg hkeys] at h
    obtain ⟨vSolutions', hmatch, hrest⟩ := Option.bind_eq_some_iff.mp h
    exact ⟨opcode1, vch1, pc1', vSolutions', rfl, hmatch, hrest⟩

/-- The end of the template is the end of the script. -/
theorem matchTemplate_nil {nFuel : ℕ} {pc1 : CScript} {vSolutions result : List Valtype}
    (h : matchTemplate nFuel pc1 [] vSolutions = some result) : pc1 = [] ∧ result = vSolutions := by
  cases nFuel with
  | zero => cases h
  | succ nFuel =>
    rw [matchTemplate] at h
    cases pc1 with
    | nil => exact ⟨rfl, (Option.some.inj h).symm⟩
    | cons b pc1 =>
      simp only [List.isEmpty_cons, Bool.false_and, Bool.false_eq_true, if_false] at h
      cases hop : CScript.getOp2 (b :: pc1) with
      | none =>
        rw [hop] at h
        cases h
      | some p =>
        rw [hop] at h
        cases h

theorem matchOp_pubkey {opcode1 : ℕ} {vch1 vch2 : Valtype} {vSolutions result : List Valtype}
    (h : matchOp opcode1 vch1 opPubkey vch2 vSolutions = some result) :
    isPubkeySize vch1 = true ∧ result = vSolutions ++ [vch1] := by
  rw [matchOp, if_pos rfl] at h
  split_ifs at h with hsize
  exact ⟨hsize, (Option.some.inj h).symm⟩

theorem matchOp_pubkeyhash {opcode1 : ℕ} {vch1 vch2 : Valtype} {vSolutions result : List Valtype}
    (h : matchOp opcode1 vch1 opPubkeyhash vch2 vSolutions = some result) :
    vch1.length = 20 ∧ result = vSolutions ++ [vch1] := by
  rw [matchOp, if_neg (by decide), if_pos rfl] at h
  split_ifs at h with hsize
  exact ⟨hsize, (Option.some.inj h).symm⟩

theorem matchOp_smallinteger {opcode1 : ℕ} {vch1 vch2 : Valtype} {vSolutions result : List Valtype}
    (h : matchOp opcode1 vch1 opSmallinteger vch2 vSolutions = some result) :
    (opcode1 = 0 ∨ op1 ≤ opcode1 ∧ opcode1 ≤ op16) ∧
      result = vSolutions ++ [[UInt8.ofNat (decodeOpN opcode1)]] := by
  rw [matchOp, if_neg (by decide), if_neg (by decide), if_pos rfl] at h
  split_ifs at h with hsmall
  exact ⟨hsmall, (Option.some.inj h).symm⟩

/-- Another operation of the template stands for itself. -/
theorem matchOp_self {opcode1 opcode2 : ℕ} {vch1 vch2 : Valtype} {vSolutions result : List Valtype}
    (hplain : opcode2 < opSmallinteger)
    (h : matchOp opcode1 vch1 opcode2 vch2 vSolutions = some result) :
    (opcode1 = opcode2 ∧ vch1 = vch2) ∧ result = vSolutions := by
  have hne : ∀ opcode, opSmallinteger ≤ opcode → opcode2 ≠ opcode := fun opcode hle => by omega
  rw [matchOp, if_neg (hne _ (by decide)), if_neg (hne _ (by decide)), if_neg (hne _ le_rfl)] at h
  split_ifs at h with hself
  exact ⟨hself, (Option.some.inj h).symm⟩

/-- The loop over public keys reads data of their size, up to the operation it ends with. -/
theorem matchPubkeys_reads {nFuel : ℕ} {s : CScript} {st : MatchState}
    (hop : s.getOp2 = some (st.opcode1, st.vch1, st.pc1))
    (hend : (matchPubkeys nFuel st).opcode1 ≠ opInvalidopcode) :
    ∃ keys : List (ℕ × Valtype), (∀ p ∈ keys, isPubkeySize p.2 = true) ∧
      (matchPubkeys nFuel st).vSolutions = st.vSolutions ++ keys.map Prod.snd ∧
      ∃ pc, s.Reads keys pc ∧ pc.getOp2 = some ((matchPubkeys nFuel st).opcode1,
        (matchPubkeys nFuel st).vch1, (matchPubkeys nFuel st).pc1) := by
  induction nFuel generalizing s st with
  | zero => exact ⟨[], by simp, by simp [matchPubkeys], s, rfl, hop⟩
  | succ nFuel ih =>
    rw [matchPubkeys] at hend ⊢
    by_cases hsize : isPubkeySize st.vch1 = true
    · rw [if_pos hsize] at hend ⊢
      cases hnext : st.pc1.getOp2 with
      | none =>
        rw [hnext] at hend
        exact absurd rfl hend
      | some p =>
        obtain ⟨opcode1, vch1, pc1⟩ := p
        rw [hnext] at hend
        dsimp only at hend ⊢
        obtain ⟨keys, hkeys, hsolutions, pc, hreads, hlast⟩ :=
          @ih st.pc1 ⟨opcode1, vch1, pc1, st.vSolutions ++ [st.vch1]⟩ hnext hend
        refine ⟨(st.opcode1, st.vch1) :: keys, ?_, ?_, pc, ⟨st.pc1, hop, hreads⟩, hlast⟩
        · exact List.forall_mem_cons.mpr ⟨hsize, hkeys⟩
        · rw [hsolutions, List.map_cons, List.append_assoc, List.singleton_append]
    · rw [if_neg hsize] at hend ⊢
      exact ⟨[], by simp, by simp, s, rfl, hop⟩

/-- The operation of public keys, and the small integer after it. -/
theorem matchTemplate_pubkeys {nFuel : ℕ} {pc1 pc2 pc2' pc2'' : CScript} {vch2 vch2' : Valtype}
    {vSolutions result : List Valtype} (hop2 : pc2.getOp2 = some (opPubkeys, vch2, pc2'))
    (hop2' : pc2'.getOp2 = some (opSmallinteger, vch2', pc2''))
    (h : matchTemplate (nFuel + 1) pc1 pc2 vSolutions = some result) :
    ∃ (keys : List (ℕ × Valtype)) (opcode1 : ℕ) (vch1 : Valtype) (pc1' pc1'' : CScript),
      (∀ p ∈ keys, isPubkeySize p.2 = true) ∧ pc1.Reads keys pc1' ∧
      pc1'.getOp2 = some (opcode1, vch1, pc1'') ∧
      (opcode1 = 0 ∨ op1 ≤ opcode1 ∧ opcode1 ≤ op16) ∧
      matchTemplate nFuel pc1'' pc2''
        (vSolutions ++ keys.map Prod.snd ++ [[UInt8.ofNat (decodeOpN opcode1)]]) = some result := by
  have hne : pc2.isEmpty = false := by
    cases pc2 with
    | nil => cases hop2
    | cons b pc2 => rfl
  rw [matchTemplate, hne, Bool.and_false, if_neg Bool.false_ne_true, hop2] at h
  cases hop1 : pc1.getOp2 with
  | none =>
    rw [hop1] at h
    cases h
  | some p =>
    obtain ⟨opcode1, vch1, pc1'⟩ := p
    rw [hop1] at h
    dsimp only at h
    rw [if_pos rfl, hop2'] at h
    obtain ⟨vSolutions', hmatch, hrest⟩ := Option.bind_eq_some_iff.mp h
    obtain ⟨hsmall, rfl⟩ := matchOp_smallinteger hmatch
    -- the loop has not run off the end of the script
    have hend : (matchPubkeys (pc1'.length + 1) ⟨opcode1, vch1, pc1', vSolutions⟩).opcode1 ≠
        opInvalidopcode := by
      intro heq
      rw [heq] at hsmall
      revert hsmall
      decide
    obtain ⟨keys, hkeys, hsolutions, pc, hreads, hlast⟩ := matchPubkeys_reads (s := pc1) hop1 hend
    rw [hsolutions] at hrest
    exact ⟨keys, _, _, pc, _, hkeys, hreads, hlast, hsmall, hrest⟩

/-- The scripts of the standard types, with their solutions. -/
inductive Standard (s : CScript) : TxnOutType → List Valtype → Prop
  | pubkey {opcode : ℕ} {vchPubKey : Valtype}
      (hreads : s.Reads [(opcode, vchPubKey), (opChecksig, [])] [])
      (hsize : isPubkeySize vchPubKey = true) : Standard s .txPubkey [vchPubKey]
  | pubkeyhash {opcode : ℕ} {hash : Valtype}
      (hreads : s.Reads [(opDup, []), (opHash160, []), (opcode, hash), (opEqualverify, []),
        (opChecksig, [])] [])
      (hsize : hash.length = 20) : Standard s .txPubkeyhash [hash]
  | scripthash (hp2sh : s.isPayToScriptHash = true) :
      Standard s .txScripthash [(s.drop 2).take 20]
  | multisig {m n : ℕ} {vchM vchN : Valtype} {keys : List (ℕ × Valtype)}
      (hreads : s.Reads ((op1 + m, vchM) :: (keys ++ [(op1 + n, vchN), (opCheckmultisig, [])])) [])
      (hkeys : ∀ p ∈ keys, isPubkeySize p.2 = true) (hm : m ≤ n) (hn : n < 16)
      (hlength : keys.length = n + 1) :
      Standard s .txMultisig
        ([UInt8.ofNat (m + 1)] :: (keys.map Prod.snd ++ [[UInt8.ofNat (n + 1)]]))

theorem standard_pubkey {s : CScript} {result : List Valtype}
    (h : matchTemplate 3 s (.ofOpcodes [opPubkey, opChecksig]) [] = some result) :
    Standard s .txPubkey result := by
  obtain ⟨opcode, vch, pc, sols, hop, hmatch, h⟩ := matchTemplate_eq_some rfl (by decide) h
  obtain ⟨hsize, rfl⟩ := matchOp_pubkey hmatch
  obtain ⟨opcode', vch', pc', sols', hop', hmatch', h⟩ := matchTemplate_eq_some rfl (by decide) h
  obtain ⟨⟨rfl, rfl⟩, rfl⟩ := matchOp_self (by decide) hmatch'
  obtain ⟨rfl, rfl⟩ := matchTemplate_nil h
  exact .pubkey ⟨pc, hop, [], hop', rfl⟩ hsize

theorem standard_pubkeyhash {s : CScript} {result : List Valtype}
    (h : matchTemplate 6 s (.ofOpcodes [opDup, opHash160, opPubkeyhash, opEqualverify, opChecksig])
      [] = some result) : Standard s .txPubkeyhash result := by
  obtain ⟨_, _, pc1, _, hop1, hmatch1, h⟩ := matchTemplate_eq_some rfl (by decide) h
  obtain ⟨⟨rfl, rfl⟩, rfl⟩ := matchOp_self (by decide) hmatch1
  obtain ⟨_, _, pc2, _, hop2, hmatch2, h⟩ := matchTemplate_eq_some rfl (by decide) h
  obtain ⟨⟨rfl, rfl⟩, rfl⟩ := matchOp_self (by decide) hmatch2
  obtain ⟨opcode, hash, pc3, _, hop3, hmatch3, h⟩ := matchTemplate_eq_some rfl (by decide) h
  obtain ⟨hsize, rfl⟩ := matchOp_pubkeyhash hmatch3
  obtain ⟨_, _, pc4, _, hop4, hmatch4, h⟩ := matchTemplate_eq_some rfl (by decide) h
  obtain ⟨⟨rfl, rfl⟩, rfl⟩ := matchOp_self (by decide) hmatch4
  obtain ⟨_, _, pc5, _, hop5, hmatch5, h⟩ := matchTemplate_eq_some rfl (by decide) h
  obtain ⟨⟨rfl, rfl⟩, rfl⟩ := matchOp_self (by decide) hmatch5
  obtain ⟨rfl, rfl⟩ := matchTemplate_nil h
  exact .pubkeyhash ⟨pc1, hop1, pc2, hop2, pc3, hop3, pc4, hop4, [], hop5, rfl⟩ hsize

/-- The number of a small integer that the additional checks let through. -/
theorem exists_smallinteger {opcode : ℕ} (h : opcode = 0 ∨ op1 ≤ opcode ∧ opcode ≤ op16)
    (hpos : 1 ≤ decodeOpN opcode) :
    ∃ k, k < 16 ∧ opcode = op1 + k ∧ decodeOpN opcode = k + 1 := by
  rcases h with rfl | ⟨hlo, hhi⟩
  · exact absurd hpos (by decide)
  · refine ⟨opcode - op1, ?_, by omega, ?_⟩
    · rw [op1, op16] at *
      omega
    · rw [decodeOpN, if_neg (by rw [op1] at hlo; omega), op1] at *
      omega

theorem decodeOpN_le_of_smallinteger {opcode : ℕ} (h : opcode = 0 ∨ op1 ≤ opcode ∧ opcode ≤ op16) :
    decodeOpN opcode ≤ 16 := by
  by_cases hpos : 1 ≤ decodeOpN opcode
  · obtain ⟨k, hk, -, hdecode⟩ := exists_smallinteger h hpos
    omega
  · omega

/-- The multisig template takes two small integers with public keys between them. -/
theorem exists_keys_of_matchTemplate {s : CScript} {result : List Valtype}
    (h : matchTemplate 5 s (.ofOpcodes [opSmallinteger, opPubkeys, opSmallinteger, opCheckmultisig])
      [] = some result) :
    ∃ (opcodeM opcodeN : ℕ) (vchM vchN : Valtype) (keys : List (ℕ × Valtype)),
      (opcodeM = 0 ∨ op1 ≤ opcodeM ∧ opcodeM ≤ op16) ∧
      (opcodeN = 0 ∨ op1 ≤ opcodeN ∧ opcodeN ≤ op16) ∧ (∀ p ∈ keys, isPubkeySize p.2 = true) ∧
      s.Reads ((opcodeM, vchM) :: (keys ++ [(opcodeN, vchN), (opCheckmultisig, [])])) [] ∧
      result = [UInt8.ofNat (decodeOpN opcodeM)] ::
        (keys.map Prod.snd ++ [[UInt8.ofNat (decodeOpN opcodeN)]]) := by
  obtain ⟨opcodeM, vchM, pc1, _, hop1, hmatch1, h⟩ := matchTemplate_eq_some rfl (by decide) h
  obtain ⟨hsmallM, rfl⟩ := matchOp_smallinteger hmatch1
  obtain ⟨keys, opcodeN, vchN, pc2, pc3, hkeys, hreads, hop3, hsmallN, h⟩ :=
    matchTemplate_pubkeys rfl rfl h
  obtain ⟨_, _, pc4, _, hop4, hmatch4, h⟩ := matchTemplate_eq_some rfl (by decide) h
  obtain ⟨⟨rfl, rfl⟩, rfl⟩ := matchOp_self (by decide) hmatch4
  obtain ⟨rfl, rfl⟩ := matchTemplate_nil h
  exact ⟨opcodeM, opcodeN, vchM, vchN, keys, hsmallM, hsmallN, hkeys,
    ⟨pc1, hop1, hreads.append ⟨pc3, hop3, [], hop4, rfl⟩⟩, rfl⟩

/-- The additional checks compare the two numbers and the number of keys. -/
theorem checkMultisigSolutions_eq_true {m n : ℕ} {keys : List Valtype} (hm : m ≤ 16) (hn : n ≤ 16) :
    checkMultisigSolutions ([UInt8.ofNat m] :: (keys ++ [[UInt8.ofNat n]])) = true ↔
      1 ≤ m ∧ m ≤ n ∧ keys.length = n := by
  have htoNat : ∀ k ≤ 16, (UInt8.ofNat k).toNat = k := fun k hk =>
    UInt8.toNat_ofNat_of_lt' (by show k < 256; omega)
  simp only [checkMultisigSolutions, List.headD_cons, List.getLastD_cons, List.getLastD_concat,
    List.length_cons, List.length_append, List.length_nil, Bool.not_eq_true', Bool.or_eq_false_iff,
    bne_eq_false_iff_eq, decide_eq_false_iff_not, htoNat m hm, htoNat n hn]
  omega

theorem standard_multisig {s : CScript} {result : List Valtype}
    (h : matchTemplate 5 s (.ofOpcodes [opSmallinteger, opPubkeys, opSmallinteger, opCheckmultisig])
      [] = some result) (hcheck : checkMultisigSolutions result = true) :
    Standard s .txMultisig result := by
  obtain ⟨opcodeM, opcodeN, vchM, vchN, keys, hsmallM, hsmallN, hkeys, hreads, rfl⟩ :=
    exists_keys_of_matchTemplate h
  rw [checkMultisigSolutions_eq_true (decodeOpN_le_of_smallinteger hsmallM)
    (decodeOpN_le_of_smallinteger hsmallN), List.length_map] at hcheck
  -- both numbers are positive, so they were not written as `OP_0`
  obtain ⟨hposM, hle, hcount⟩ := hcheck
  obtain ⟨m, hm, rfl, hdecodeM⟩ := exists_smallinteger hsmallM hposM
  obtain ⟨n, hn, rfl, hdecodeN⟩ := exists_smallinteger hsmallN (hposM.trans hle)
  rw [hdecodeM, hdecodeN]
  exact .multisig hreads hkeys (by omega) hn (by omega)

/-- **`Solver` finds standard scripts**, and their parameters. -/
theorem standard_of_solver {s : CScript} {type : TxnOutType} {vSolutions : List Valtype}
    (h : solver s = some (type, vSolutions)) : Standard s type vSolutions := by
  rw [solver] at h
  by_cases hp2sh : s.isPayToScriptHash = true
  · rw [if_pos hp2sh] at h
    cases h
    exact .scripthash hp2sh
  rw [if_neg hp2sh, mTemplates, solverLoop] at h
  cases h1 : matchTemplate ((CScript.ofOpcodes [opPubkey, opChecksig]).length + 1) s
      (.ofOpcodes [opPubkey, opChecksig]) [] with
  | some result =>
    rw [h1] at h
    cases h
    exact standard_pubkey h1
  | none =>
    rw [h1] at h
    dsimp only at h
    rw [solverLoop] at h
    cases h2 : matchTemplate ((CScript.ofOpcodes
        [opDup, opHash160, opPubkeyhash, opEqualverify, opChecksig]).length + 1) s
        (.ofOpcodes [opDup, opHash160, opPubkeyhash, opEqualverify, opChecksig]) [] with
    | some result =>
      rw [h2] at h
      cases h
      exact standard_pubkeyhash h2
    | none =>
      rw [h2] at h
      dsimp only at h
      rw [solverLoop] at h
      cases h3 : matchTemplate ((CScript.ofOpcodes
          [opSmallinteger, opPubkeys, opSmallinteger, opCheckmultisig]).length + 1) s
          (.ofOpcodes [opSmallinteger, opPubkeys, opSmallinteger, opCheckmultisig]) [] with
      | some result =>
        rw [h3] at h
        dsimp only at h
        split_ifs at h with hcheck
        cases h
        exact standard_multisig h3 (by simpa using hcheck)
      | none =>
        rw [h3] at h
        cases h

end FoxCoin
