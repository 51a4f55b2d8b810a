import FoxCoin.Received
import FoxCoin.SpendMine
import FoxCoin.Key

/-! # The forms of scripts

`Solver` runs two cursors over a script and a template, with a loop of its own for the public keys.
The forms that it accepts are a grammar over the operations that the script reads. Its exits differ
in one place: a script of the multisig template with numbers that do not belong together leaves the
type and the solutions behind, although the call fails. -/

namespace FoxCoin

variable {s pc1 pc2 pc1' pc2' rest : CScript} {vSolutions result : List Valtype} {nFuel : ℕ}

/-! ## Operations -/

/-- `OP_0` or one of `OP_1` to `OP_16`. -/
def IsSmallInteger (opcode : ℕ) : Prop := opcode = 0 ∨ op1 ≤ opcode ∧ opcode ≤ op16

instance (opcode : ℕ) : Decidable (IsSmallInteger opcode) :=
  inferInstanceAs (Decidable (_ ∨ _))

/-- A small integer pushes no data of the script. -/
theorem CScript.getOp2_smallInteger {opcode : ℕ} {vch : Valtype} (h : IsSmallInteger opcode)
    (hop : s.getOp2 = some (opcode, vch, rest)) : vch = [] := by
  rcases h with rfl | ⟨hlo, hhi⟩
  · cases s with
    | nil => cases hop
    | cons b s =>
      have hb : b.toNat = 0 := by
        rw [getOp2] at hop
        split_ifs at hop with hpush
        · split at hop
          · cases hop
          · split_ifs at hop
            exact congrArg Prod.fst (Option.some.inj hop)
        · exact congrArg Prod.fst (Option.some.inj hop)
      have hsize : CScript.getPushSize 0 s = some (0, s) := rfl
      rw [getOp2, hb] at hop
      simp only [Nat.zero_le, if_true, hsize, Nat.not_lt_zero, if_false, List.take_zero] at hop
      cases hop
      rfl
  · exact (getOp2_data hop).resolve_left (by rw [op1, opPushdata4] at *; omega)

/-- Every operation read is at least a byte. -/
theorem CScript.Reads.length_add_le {ops : List (ℕ × Valtype)} (h : s.Reads ops rest) :
    ops.length + rest.length ≤ s.length := by
  induction ops generalizing s with
  | nil =>
    rw [show s = rest from h]
    exact (Nat.zero_add _).le
  | cons op ops ih =>
    obtain ⟨pc, hop, hrest⟩ := h
    have := ih hrest
    have := getOp2_length_lt hop
    rw [List.length_cons]
    omega

/-- The first operation is the same however the script is read. -/
theorem CScript.Reads.head_eq {ops ops' : List (ℕ × Valtype)} {op op' : ℕ × Valtype}
    (h : s.Reads (op :: ops) rest) (h' : s.Reads (op' :: ops') pc1) : op = op' := by
  obtain ⟨opcode, vch⟩ := op
  obtain ⟨opcode', vch'⟩ := op'
  obtain ⟨pc, hop, -⟩ := h
  obtain ⟨pc', hop', -⟩ := h'
  rw [hop] at hop'
  cases hop'
  rfl

/-! ## A match -/

/-- One operation that is no loop over public keys. -/
theorem matchTemplate_step {opcode1 opcode2 : ℕ} {vch1 vch2 : Valtype}
    (hop1 : pc1.getOp2 = some (opcode1, vch1, pc1')) (hop2 : pc2.getOp2 = some (opcode2, vch2, pc2'))
    (hkeys : opcode2 ≠ opPubkeys) :
    matchTemplate (nFuel + 1) pc1 pc2 vSolutions =
      (matchOp opcode1 vch1 opcode2 vch2 vSolutions).bind (matchTemplate nFuel pc1' pc2') := by
  have hne : pc2.isEmpty = false := by
    cases pc2 with
    | nil => cases hop2
    | cons b pc2 => rfl
  rw [matchTemplate, hne, Bool.and_false, if_neg Bool.false_ne_true, hop1, hop2]
  exact if_neg hkeys

/-- An operation of the template that stands for itself. -/
theorem matchTemplate_self {opcode : ℕ} {vch : Valtype} (hplain : opcode < opSmallinteger)
    (hop1 : pc1.getOp2 = some (opcode, vch, pc1')) (hop2 : pc2.getOp2 = some (opcode, vch, pc2')) :
    matchTemplate (nFuel + 1) pc1 pc2 vSolutions = matchTemplate nFuel pc1' pc2' vSolutions := by
  have hne : ∀ op, opSmallinteger ≤ op → opcode ≠ op := fun op hle => by omega
  rw [matchTemplate_step hop1 hop2 (hne _ (by decide)), matchOp, if_neg (hne _ (by decide)),
    if_neg (hne _ (by decide)), if_neg (hne _ le_rfl), if_pos ⟨rfl, rfl⟩, Option.bind_some]

/-- The loop over public keys takes all the keys, and stops at the operation after them. -/
theorem matchPubkeys_eq {keys : List (ℕ × Valtype)} {opcode : ℕ} {vch : Valtype} {st : MatchState}
    (hop : s.getOp2 = some (st.opcode1, st.vch1, st.pc1))
    (hreads : s.Reads (keys ++ [(opcode, vch)]) rest)
    (hkeys : ∀ p ∈ keys, isPubkeySize p.2 = true) (hend : isPubkeySize vch = false)
    (hfuel : keys.length < nFuel) :
    matchPubkeys nFuel st = ⟨opcode, vch, rest, st.vSolutions ++ keys.map Prod.snd⟩ := by
  induction keys generalizing s st nFuel with
  | nil =>
    obtain ⟨pc, hop', rfl⟩ := hreads
    rw [hop] at hop'
    obtain ⟨opcode1, vch1, pc1, vSolutions⟩ := st
    cases hop'
    obtain ⟨nFuel, rfl⟩ := Nat.exists_eq_succ_of_ne_zero hfuel.ne_bot
    rw [matchPubkeys, if_neg (by rw [hend]; exact Bool.false_ne_true), List.map_nil,
      List.append_nil]
  | cons p keys ih =>
    obtain ⟨pc, hop', hrest⟩ := hreads
    rw [hop] at hop'
    obtain ⟨opcode1, vch1, pc1, vSolutions⟩ := st
    cases hop'
    obtain ⟨nFuel, rfl⟩ := Nat.exists_eq_succ_of_ne_zero (Nat.ne_zero_of_lt hfuel)
    obtain ⟨hsize, hkeys⟩ := List.forall_mem_cons.mp hkeys
    -- another operation comes after this key
    obtain ⟨q, hnext⟩ : ∃ q : ℕ × Valtype × CScript, pc1.getOp2 = some q := by
      cases keys with
      | nil => exact ⟨_, hrest.choose_spec.1⟩
      | cons p' keys => exact ⟨_, hrest.choose_spec.1⟩
    rw [matchPubkeys, if_pos hsize]
    simp only [hnext]
    rw [ih hnext hrest hkeys (by simpa using hfuel), List.map_cons, List.append_assoc,
      List.singleton_append]

/-! ## The templates -/

theorem matchTemplate_pubkey {opcode : ℕ} {vchPubKey : Valtype}
    (hreads : s.Reads [(opcode, vchPubKey), (opChecksig, [])] [])
    (hsize : isPubkeySize vchPubKey = true) :
    matchTemplate 3 s (.ofOpcodes [opPubkey, opChecksig]) [] = some [vchPubKey] := by
  obtain ⟨pc1, hop1, pc2, hop2, rfl⟩ := hreads
  rw [matchTemplate_step hop1 rfl (by decide), show UInt8.toNat _ = opPubkey from rfl, matchOp,
    if_pos rfl, if_pos hsize, Option.bind_some, matchTemplate_self (by decide) hop2 rfl]
  rfl

theorem matchTemplate_pubkeyhash {opcode : ℕ} {hash : Valtype}
    (hreads : s.Reads [(opDup, []), (opHash160, []), (opcode, hash), (opEqualverify, []),
      (opChecksig, [])] [])
    (hsize : hash.length = 20) :
    matchTemplate 6 s (.ofOpcodes [opDup, opHash160, opPubkeyhash, opEqualverify, opChecksig]) [] =
      some [hash] := by
  obtain ⟨pc1, hop1, pc2, hop2, pc3, hop3, pc4, hop4, pc5, hop5, rfl⟩ := hreads
  rw [matchTemplate_self (by decide) hop1 rfl, matchTemplate_self (by decide) hop2 rfl,
    matchTemplate_step hop3 rfl (by decide), show UInt8.toNat _ = opPubkeyhash from rfl, matchOp,
    if_neg (by decide), if_pos rfl, if_pos hsize, Option.bind_some,
    matchTemplate_self (by decide) hop4 rfl, matchTemplate_self (by decide) hop5 rfl]
  rfl

theorem matchOp_of_smallInteger {opcode1 : ℕ} {vch1 vch2 : Valtype} (h : IsSmallInteger opcode1) :
    matchOp opcode1 vch1 opSmallinteger vch2 vSolutions =
      some (vSolutions ++ [[UInt8.ofNat (decodeOpN opcode1)]]) := by
  rw [matchOp, if_neg (by decide), if_neg (by decide), if_pos rfl]
  exact if_pos h

/-- The operation of public keys, and the small integer after it. -/
theorem matchTemplate_keys {keys : List (ℕ × Valtype)} {opcode : ℕ} {vch2 vch2' : Valtype}
    {pc2'' : CScript} (hsmall : IsSmallInteger opcode)
    (hkeys : ∀ p ∈ keys, isPubkeySize p.2 = true)
    (hreads : pc1.Reads (keys ++ [(opcode, [])]) rest)
    (hop2 : pc2.getOp2 = some (opPubkeys, vch2, pc2'))
    (hop2' : pc2'.getOp2 = some (opSmallinteger, vch2', pc2'')) :
    matchTemplate (nFuel + 1) pc1 pc2 vSolutions =
      matchTemplate nFuel rest pc2''
        (vSolutions ++ keys.map Prod.snd ++ [[UInt8.ofNat (decodeOpN opcode)]]) := by
  have hne : pc2.isEmpty = false := by
    cases pc2 with
    | nil => cases hop2
    | cons b pc2 => rfl
  -- the first operation is a key or, without any, the small integer; the loop has a round for each
  obtain ⟨opcode1, vch1, pc1', hop1, hlength⟩ : ∃ opcode1 vch1 pc1',
      pc1.getOp2 = some (opcode1, vch1, pc1') ∧ keys.length < pc1'.length + 1 := by
    cases keys with
    | nil =>
      obtain ⟨pc, hop, -⟩ := hreads
      exact ⟨_, _, pc, hop, Nat.succ_pos _⟩
    | cons p keys =>
      obtain ⟨pc, hop, hrest⟩ := hreads
      refine ⟨_, _, pc, hop, ?_⟩
      have hle : (keys ++ [(opcode, [])]).length + rest.length ≤ pc.length := hrest.length_add_le
      rw [List.length_append, List.length_singleton] at hle
      rw [List.length_cons]
      omega
  have hloop : matchPubkeys (pc1'.length + 1) ⟨opcode1, vch1, pc1', vSolutions⟩ =
      ⟨opcode, [], rest, vSolutions ++ keys.map Prod.snd⟩ :=
    matchPubkeys_eq (s := pc1) hop1 hreads hkeys rfl hlength
  rw [matchTemplate, hne, Bool.and_false, if_neg Bool.false_ne_true, hop1, hop2]
  simp only [if_true, hloop, hop2']
  rw [matchOp_of_smallInteger hsmall, Option.bind_some]

/-- A script of two small integers with public keys between them, for `OP_CHECKMULTISIG`. -/
structure CScript.IsMultisigForm (s : CScript) (opcodeM opcodeN : ℕ) (keys : List (ℕ × Valtype)) :
    Prop where
  smallM : IsSmallInteger opcodeM
  smallN : IsSmallInteger opcodeN
  keySize : ∀ p ∈ keys, isPubkeySize p.2 = true
  reads : s.Reads ((opcodeM, []) :: (keys ++ [(opcodeN, []), (opCheckmultisig, [])])) []

/-- The solutions of such a script. -/
def multisigSolutions (opcodeM opcodeN : ℕ) (keys : List (ℕ × Valtype)) : List Valtype :=
  [UInt8.ofNat (decodeOpN opcodeM)] ::
    (keys.map Prod.snd ++ [[UInt8.ofNat (decodeOpN opcodeN)]])

/-- The two numbers of a multisig script and its number of keys belong together. -/
def AreNumbered (opcodeM opcodeN : ℕ) (keys : List (ℕ × Valtype)) : Prop :=
  1 ≤ decodeOpN opcodeM ∧ decodeOpN opcodeM ≤ decodeOpN opcodeN ∧
    keys.length = decodeOpN opcodeN

/-- A script of the multisig template whose numbers do not belong together. -/
def CScript.IllNumbered (s : CScript) : Prop :=
  ∃ opcodeM opcodeN keys, s.IsMultisigForm opcodeM opcodeN keys ∧
    ¬AreNumbered opcodeM opcodeN keys

section Multisig

variable {opcodeM opcodeN : ℕ} {keys : List (ℕ × Valtype)}

theorem matchTemplate_multisig (h : s.IsMultisigForm opcodeM opcodeN keys) :
    matchTemplate 5 s (.ofOpcodes [opSmallinteger, opPubkeys, opSmallinteger, opCheckmultisig]) [] =
      some (multisigSolutions opcodeM opcodeN keys) := by
  obtain ⟨hsmallM, hsmallN, hkeys, pc1, hop1, hreads⟩ := h
  rw [show keys ++ [(opcodeN, []), (opCheckmultisig, [])] =
    keys ++ [(opcodeN, [])] ++ [(opCheckmultisig, [])] by rw [List.append_assoc]; rfl] at hreads
  obtain ⟨pc2, hkeysReads, pc3, hop3, rfl⟩ := hreads.of_append
  rw [matchTemplate_step hop1 rfl (by decide), show UInt8.toNat _ = opSmallinteger from rfl,
    matchOp_of_smallInteger hsmallM, Option.bind_some, matchTemplate_keys hsmallN hkeys hkeysReads rfl rfl, matchTemplate_self (by decide) hop3 rfl]
  rfl

/-- The template matches no other scripts. -/
theorem exists_isMultisigForm
    (h : matchTemplate 5 s (.ofOpcodes [opSmallinteger, opPubkeys, opSmallinteger, opCheckmultisig])
      [] = some result) :
    ∃ opcodeM opcodeN keys, s.IsMultisigForm opcodeM opcodeN keys ∧
      result = multisigSolutions opcodeM opcodeN keys := by
  obtain ⟨opcodeM, opcodeN, vchM, vchN, keys, hsmallM, hsmallN, hkeys, hreads, rfl⟩ :=
    exists_keys_of_matchTemplate h
  obtain ⟨pc1, hop1, hrest⟩ := hreads
  obtain ⟨pc2, hkeysReads, pc3, hop3, hend⟩ := hrest.of_append
  -- neither small integer pushes data
  cases CScript.getOp2_smallInteger hsmallM hop1
  cases CScript.getOp2_smallInteger hsmallN hop3
  exact ⟨opcodeM, opcodeN, keys,
    ⟨hsmallM, hsmallN, hkeys, pc1, hop1, hkeysReads.append ⟨pc3, hop3, hend⟩⟩, rfl⟩

theorem CScript.IsMultisigForm.checkMultisigSolutions (h : s.IsMultisigForm opcodeM opcodeN keys) :
    checkMultisigSolutions (multisigSolutions opcodeM opcodeN keys) = true ↔
      AreNumbered opcodeM opcodeN keys := by
  rw [multisigSolutions, checkMultisigSolutions_eq_true (decodeOpN_le_of_smallinteger h.smallM)
    (decodeOpN_le_of_smallinteger h.smallN), List.length_map, AreNumbered]

end Multisig

instance (opcodeM opcodeN : ℕ) (keys : List (ℕ × Valtype)) :
    Decidable (AreNumbered opcodeM opcodeN keys) :=
  inferInstanceAs (Decidable (_ ∧ _))

/-! ## The scan of the templates -/

/-- The hash of a script is between its first two bytes and its last one. -/
theorem CScript.isPayToScriptHash_iff :
    s.isPayToScriptHash = true ↔ ∃ hash : Valtype, hash.length = 20 ∧
      s = [0xa9, 20] ++ hash ++ [0x87] := by
  constructor
  · intro h
    simp only [isPayToScriptHash, Bool.and_eq_true, beq_iff_eq] at h
    obtain ⟨⟨⟨hlen, h0⟩, h1⟩, h22⟩ := h
    -- the hash is what lies between the bytes that are checked
    refine ⟨(s.drop 2).take 20, by rw [List.length_take, List.length_drop]; omega, ?_⟩
    refine List.ext_getElem (by simp [hlen]) fun i hi hi' => ?_
    rw [List.getD_eq_getElem _ _ (by omega)] at h0 h1 h22
    rcases Nat.lt_or_ge i 22 with hlt | hge
    · rw [List.getElem_append_left (by simp [hlen]; omega)]
      rcases i with _ | _ | i
      · exact UInt8.toNat_inj.mp h0
      · exact UInt8.toNat_inj.mp h1
      · simp [Nat.add_comm 2 i]
    · obtain rfl : i = 22 := by omega
      rw [List.getElem_append_right (by simp [hlen])]
      simpa using UInt8.toNat_inj.mp h22
  · rintro ⟨hash, hlen, rfl⟩
    have hlast : ([0xa9, 20] ++ hash ++ [0x87] : CScript).getD 22 0 = 0x87 := by
      rw [List.getD_append_right _ _ _ _ (by simp [hlen])]
      simp [hlen]
    simp only [isPayToScriptHash, hlast]
    simp [hlen]
    exact ⟨rfl, rfl⟩

variable {op : ℕ × Valtype} {ops : List (ℕ × Valtype)}

theorem isPayToScriptHash_of_reads (h : s.Reads (op :: ops) rest) (hop : op.1 ≠ opHash160) :
    s.isPayToScriptHash = false := by
  rw [Bool.eq_false_iff]
  intro hp2sh
  have := h.head_eq (reads_p2sh hp2sh)
  exact hop (congrArg Prod.fst this)

theorem matchTemplate_pubkey_eq_none (h : s.Reads (op :: ops) rest)
    (hsize : isPubkeySize op.2 = false) :
    matchTemplate 3 s (.ofOpcodes [opPubkey, opChecksig]) [] = none := by
  cases hmatch : matchTemplate 3 s (.ofOpcodes [opPubkey, opChecksig]) [] with
  | none => rfl
  | some result =>
    cases standard_pubkey hmatch with
    | pubkey hreads hsize' =>
      rw [h.head_eq hreads, hsize'] at hsize
      cases hsize

theorem matchTemplate_pubkeyhash_eq_none (h : s.Reads (op :: ops) rest) (hop : op.1 ≠ opDup) :
    matchTemplate 6 s (.ofOpcodes [opDup, opHash160, opPubkeyhash, opEqualverify, opChecksig]) [] =
      none := by
  cases hmatch : matchTemplate 6 s
      (.ofOpcodes [opDup, opHash160, opPubkeyhash, opEqualverify, opChecksig]) [] with
  | none => rfl
  | some result =>
    cases standard_pubkeyhash hmatch with
    | pubkeyhash hreads hsize => exact absurd (congrArg Prod.fst (h.head_eq hreads)) hop

/-- What comes of a script of the multisig template. -/
theorem solverRet_multisig {opcodeM opcodeN : ℕ} {keys : List (ℕ × Valtype)}
    (h : s.IsMultisigForm opcodeM opcodeN keys) :
    solverRet [] s = ⟨decide (AreNumbered opcodeM opcodeN keys), some .txMultisig,
      multisigSolutions opcodeM opcodeN keys⟩ := by
  have hother : ∀ opcode, op16 < opcode → opcodeM ≠ opcode := by
    rintro opcode hlt rfl
    rcases h.smallM with hzero | ⟨-, hle⟩
    · omega
    · omega
  -- no other template starts with a small integer
  rw [solverRet, isPayToScriptHash_of_reads h.reads (hother _ (by decide)),
    if_neg Bool.false_ne_true, mTemplates, solverRetLoop,
    show (CScript.ofOpcodes [opPubkey, opChecksig]).length + 1 = 3 from rfl,
    matchTemplate_pubkey_eq_none h.reads rfl, solverRetLoop,
    show (CScript.ofOpcodes [opDup, opHash160, opPubkeyhash, opEqualverify, opChecksig]).length + 1 =
      6 from rfl, matchTemplate_pubkeyhash_eq_none h.reads (hother _ (by decide)), solverRetLoop,
    show (CScript.ofOpcodes [opSmallinteger, opPubkeys, opSmallinteger, opCheckmultisig]).length + 1 =
      5 from rfl, matchTemplate_multisig h]
  simp only [true_and]
  by_cases hnumbered : AreNumbered opcodeM opcodeN keys
  · rw [if_neg (by rw [h.checkMultisigSolutions.mpr hnumbered]; exact Bool.noConfusion),
      decide_eq_true hnumbered]
  · rw [if_pos (Bool.eq_false_iff.mpr (mt h.checkMultisigSolutions.mp hnumbered)),
      decide_eq_false hnumbered]

/-- The script of a number of keys has the multisig form. -/
theorem isMultisigForm_of_reads {m n : ℕ} {vchM vchN : Valtype} {keys : List (ℕ × Valtype)}
    (hreads : s.Reads ((op1 + m, vchM) :: (keys ++ [(op1 + n, vchN), (opCheckmultisig, [])])) [])
    (hkeys : ∀ p ∈ keys, isPubkeySize p.2 = true) (hm : m < 16) (hn : n < 16) :
    s.IsMultisigForm (op1 + m) (op1 + n) keys := by
  have hsmall : ∀ k < 16, IsSmallInteger (op1 + k) := fun k hk =>
    .inr ⟨Nat.le_add_right _ _, by rw [op1, op16]; omega⟩
  obtain ⟨pc1, hop1, hrest⟩ := hreads
  obtain ⟨pc2, hkeysReads, pc3, hop3, hend⟩ := hrest.of_append
  cases CScript.getOp2_smallInteger (hsmall m hm) hop1
  cases CScript.getOp2_smallInteger (hsmall n hn) hop3
  exact ⟨hsmall m hm, hsmall n hn, hkeys, pc1, hop1, hkeysReads.append ⟨pc3, hop3, hend⟩⟩

theorem decodeOpN_op1_add (k : ℕ) : decodeOpN (op1 + k) = k + 1 := by
  rw [decodeOpN, if_neg (by rw [op1]; omega), op1]
  omega

/-- **`Solver` accepts the standard forms**, with their parameters. -/
theorem solverRet_of_standard {type : TxnOutType} (h : Standard s type vSolutions) :
    solverRet [] s = ⟨true, some type, vSolutions⟩ := by
  cases h with
  | @pubkey opcode vchPubKey hreads hsize =>
    -- the data rules the hash operation out
    have hop : opcode ≤ opPushdata4 :=
      hreads.data (p := (opcode, vchPubKey)) List.mem_cons_self (by rintro rfl; cases hsize)
    have hp2sh : s.isPayToScriptHash = false :=
      isPayToScriptHash_of_reads hreads (by rw [opHash160]; rw [opPushdata4] at hop; omega)
    rw [solverRet, hp2sh, if_neg Bool.false_ne_true, mTemplates, solverRetLoop,
      show (CScript.ofOpcodes [opPubkey, opChecksig]).length + 1 = 3 from rfl,
      matchTemplate_pubkey hreads hsize]
    rfl
  | pubkeyhash hreads hsize =>
    rw [solverRet, isPayToScriptHash_of_reads hreads (by decide), if_neg Bool.false_ne_true,
      mTemplates, solverRetLoop,
      show (CScript.ofOpcodes [opPubkey, opChecksig]).length + 1 = 3 from rfl,
      matchTemplate_pubkey_eq_none hreads rfl, solverRetLoop,
      show (CScript.ofOpcodes [opDup, opHash160, opPubkeyhash, opEqualverify,
        opChecksig]).length + 1 = 6 from rfl, matchTemplate_pubkeyhash hreads hsize]
    rfl
  | scripthash hp2sh =>
    rw [solverRet, if_pos hp2sh, List.nil_append]
  | @multisig m n vchM vchN keys hreads hkeys hle hn hlength =>
    have hform := isMultisigForm_of_reads hreads hkeys (by omega) hn
    have hnumbered : AreNumbered (op1 + m) (op1 + n) keys := by
      rw [AreNumbered, decodeOpN_op1_add, decodeOpN_op1_add]
      omega
    rw [solverRet_multisig hform, decide_eq_true hnumbered, multisigSolutions, decodeOpN_op1_add,
      decodeOpN_op1_add]

/-- A failing call comes to the end of the scan, or stops at numbers that do not belong
together. -/
theorem solverRet_of_fail {vSolutionsRet : List Valtype}
    (h : (solverRet vSolutionsRet s).success = false) :
    solverRet vSolutionsRet s = ⟨false, none, []⟩ ∨ s.IllNumbered := by
  rw [solverRet] at h ⊢
  split_ifs at h ⊢
  rw [mTemplates, solverRetLoop] at h ⊢
  split at h
  · rw [solverRetLoop] at h ⊢
    split at h
    · rw [solverRetLoop] at h ⊢
      split at h
      · exact .inl (by simp only [*, solverRetLoop])
      · rename_i result hmatch
        obtain ⟨opcodeM, opcodeN, keys, hform, rfl⟩ := exists_isMultisigForm hmatch
        refine .inr ⟨opcodeM, opcodeN, keys, hform, fun hnumbered => ?_⟩
        rw [if_neg (by rw [hform.checkMultisigSolutions.mpr hnumbered]; simp)] at h
        cases h
    · rw [if_neg (by simp)] at h
      cases h
  · rw [if_neg (by simp)] at h
    cases h

/-- Such a script leaves its type and its solutions behind. -/
theorem solverRet_of_illNumbered (h : s.IllNumbered) :
    ∃ vSolutions, solverRet [] s = ⟨false, some .txMultisig, vSolutions⟩ := by
  obtain ⟨opcodeM, opcodeN, keys, hform, hnumbered⟩ := h
  exact ⟨_, by rw [solverRet_multisig hform, decide_eq_false hnumbered]⟩

/-- What `Solver` is to say about a script: it accepts the standard forms with their parameters,
and reports nothing about another script. -/
structure SolverPromise (s : CScript) : Prop where
  accepts : (solverRet [] s).success = true ↔ ∃ type vSolutions, Standard s type vSolutions
  solutions : ∀ type vSolutions, Standard s type vSolutions →
    solverRet [] s = ⟨true, some type, vSolutions⟩
  fails : ∀ vSolutionsRet, (solverRet vSolutionsRet s).success = false →
    solverRet vSolutionsRet s = ⟨false, none, []⟩

/-- A successful call has a type. -/
theorem solverRetLoop_typeRet {templates : List (TxnOutType × CScript)}
    (h : (solverRetLoop s templates).success = true) :
    ∃ type vSolutions, solverRetLoop s templates = ⟨true, some type, vSolutions⟩ := by
  induction templates with
  | nil => cases h
  | cons tplate templates ih =>
    rw [solverRetLoop] at h ⊢
    split at h
    · exact ih h
    · split_ifs at h ⊢
      exact ⟨_, _, rfl⟩

theorem standard_of_solverRet (h : (solverRet [] s).success = true) :
    ∃ type vSolutions, Standard s type vSolutions := by
  suffices hret : ∃ type vSolutions, solverRet [] s = ⟨true, some type, vSolutions⟩ by
    obtain ⟨type, vSolutions, hret⟩ := hret
    exact ⟨type, vSolutions, standard_of_solver (solverRet_success.mp hret)⟩
  rw [solverRet] at h ⊢
  split_ifs at h ⊢
  · exact ⟨_, _, rfl⟩
  · exact solverRetLoop_typeRet h

/-- **The promise is kept but for scripts with numbers that do not belong together.** -/
theorem solverPromise_iff : SolverPromise s ↔ ¬s.IllNumbered := by
  constructor
  · intro hpromise hill
    obtain ⟨vSolutions, hret⟩ := solverRet_of_illNumbered hill
    have hfail := hpromise.fails [] (by rw [hret])
    rw [hret] at hfail
    cases hfail
  · intro hill
    refine ⟨⟨standard_of_solverRet, ?_⟩, fun type vSolutions => solverRet_of_standard, ?_⟩
    · rintro ⟨type, vSolutions, hstandard⟩
      rw [solverRet_of_standard hstandard]
    · intro vSolutionsRet hfail
      exact (solverRet_of_fail hfail).resolve_right hill

/-! ## Destinations of a multisig script -/

/-- `CScript::EncodeOP_N`; `none` when the assertion fails. -/
def encodeOpN (n : ℤ) : Option ℕ :=
  if 0 ≤ n ∧ n ≤ 16 then some (if n = 0 then 0 else (op1 + n - 1).toNat) else none

/-- `CScript::SetMultisig`; `none` when an assertion fails or `GetPubKey` throws. -/
def setMultisig {Point : Type} (ops : ECOps Point) (nRequired : ℤ) (keys : List (CKey Point)) :
    Option CScript := do
  let opcodeM ← encodeOpN nRequired
  let pubkeys ← keys.mapM (CKey.getPubKey ops)
  let opcodeN ← encodeOpN keys.length
  some ([UInt8.ofNat opcodeM] ++ pubkeys.flatMap (CScript.pushData []) ++
    [UInt8.ofNat opcodeN, UInt8.ofNat opCheckmultisig])

/-- What a call of `ExtractDestinations` comes to. -/
structure DestinationsRet where
  success : Bool
  typeRet : Option TxnOutType
  addressRet : List CTxDestination
  nRequiredRet : ℤ
  deriving DecidableEq

/-- `ExtractDestinations`. The solutions of a multisig script have the keys between two numbers. -/
def extractDestinations (getID : Valtype → Valtype) (scriptPubKey : CScript) (nRequiredRet : ℤ) :
    DestinationsRet :=
  let ret := solverRet [] scriptPubKey
  if ret.success = false then ⟨false, ret.typeRet, [], nRequiredRet⟩
  else if ret.typeRet = some .txMultisig then
    ⟨true, ret.typeRet, (ret.vSolutionsRet.drop 1).dropLast.map fun vch => .keyID (getID vch),
      ((ret.vSolutionsRet.headD []).headD 0).toNat⟩
  else
    match extractDestination getID scriptPubKey with
    | none => ⟨false, ret.typeRet, [], 1⟩
    | some address => ⟨true, ret.typeRet, [address], 1⟩

theorem encodeOpN_eq {n : ℕ} (hlt : n < 16) : encodeOpN (n + 1 : ℕ) = some (op1 + n) := by
  rw [encodeOpN, if_pos (by omega), if_neg (by omega)]
  congr 1
  omega

/-- The script of public keys reads as its numbers and the keys. -/
theorem reads_multisig {m n : ℕ} (hm : m < 16) (hn : n < 16) {pubkeys : List CPubKey}
    (hsize : ∀ p ∈ pubkeys, p.length < 2 ^ 32) :
    ∃ keys : List (ℕ × Valtype), keys.map Prod.snd = pubkeys ∧
      CScript.Reads ([UInt8.ofNat (op1 + m)] ++ pubkeys.flatMap (CScript.pushData []) ++
          [UInt8.ofNat (op1 + n), UInt8.ofNat opCheckmultisig])
        ((op1 + m, []) :: (keys ++ [(op1 + n, []), (opCheckmultisig, [])])) [] := by
  have hbyte : ∀ k < 16, (UInt8.ofNat (op1 + k)).toNat = op1 + k := fun k hk =>
    UInt8.toNat_ofNat_of_lt' (by rw [op1]; show 0x51 + k < 256; omega)
  have hop : ∀ k < 16, ∀ pc : CScript,
      CScript.getOp2 (UInt8.ofNat (op1 + k) :: pc) = some (op1 + k, [], pc) := fun k hk pc => by
    rw [CScript.getOp2_cons (by rw [hbyte k hk, op1, opPushdata4]; omega), hbyte k hk]
  obtain ⟨keys, hkeys, -, hreads⟩ := CScript.reads_pushes pubkeys hsize
    [UInt8.ofNat (op1 + n), UInt8.ofNat opCheckmultisig]
  refine ⟨keys, hkeys, _, ?_, hreads.append ⟨_, hop n hn _, [], rfl, rfl⟩⟩
  rw [List.append_assoc]
  exact hop m hm _

theorem length_of_mapM {α β : Type} {f : α → Option β} {l : List α} {l' : List β}
    (h : l.mapM f = some l') : l'.length = l.length := by
  induction l generalizing l' with
  | nil =>
    cases h
    rfl
  | cons a l ih =>
    rw [List.mapM_cons] at h
    obtain ⟨b, -, h⟩ := Option.bind_eq_some_iff.mp h
    obtain ⟨bs, hbs, h⟩ := Option.bind_eq_some_iff.mp h
    cases h
    rw [List.length_cons, List.length_cons, ih hbs]

/-- **The destinations of a multisig script** are those of its keys. -/
theorem extractDestinations_setMultisig {Point : Type} (ops : ECOps Point)
    (getID : Valtype → Valtype) {nRequired : ℕ} {keys : List (CKey Point)} {pubkeys : List CPubKey}
    (hpos : 1 ≤ nRequired) (hle : nRequired ≤ keys.length) (hsixteen : keys.length ≤ 16)
    (hkeys : keys.mapM (CKey.getPubKey ops) = some pubkeys)
    (hvalid : ∀ p ∈ pubkeys, p.length = 33 ∨ p.length = 65) :
    ∃ s, setMultisig ops nRequired keys = some s ∧ ∀ nRequiredRet,
      extractDestinations getID s nRequiredRet =
        ⟨true, some .txMultisig, pubkeys.map fun p => .keyID (getID p), nRequired⟩ := by
  obtain ⟨m, rfl⟩ := Nat.exists_eq_add_of_le' hpos
  obtain ⟨n, hn⟩ := Nat.exists_eq_add_of_le' (hpos.trans hle)
  have hlength : pubkeys.length = n + 1 := by
    rw [← hn]
    exact length_of_mapM hkeys
  have hsize : ∀ p ∈ pubkeys, p.length < 2 ^ 32 := fun p hp => by
    have := hvalid p hp
    omega
  obtain ⟨reads, hmap, hreads⟩ := reads_multisig (m := m) (n := n) (by omega) (by omega) hsize
  have hreadsSize : ∀ p ∈ reads, isPubkeySize p.2 = true := fun p hp => by
    have := hvalid p.2 (by rw [← hmap]; exact List.mem_map_of_mem hp)
    rw [isPubkeySize, Bool.and_eq_true, decide_eq_true_iff, decide_eq_true_iff]
    omega
  have hcount : reads.length = n + 1 := by rw [← hlength, ← hmap, List.length_map]
  have hret := solverRet_of_standard
    (.multisig hreads hreadsSize (by omega : m ≤ n) (by omega) hcount)
  refine ⟨[UInt8.ofNat (op1 + m)] ++ pubkeys.flatMap (CScript.pushData []) ++
    [UInt8.ofNat (op1 + n), UInt8.ofNat opCheckmultisig], ?_, fun nRequiredRet => ?_⟩
  · rw [setMultisig, encodeOpN_eq (by omega), hkeys, hn, encodeOpN_eq (by omega)]
    rfl
  · have hm : (UInt8.ofNat (m + 1)).toNat = m + 1 :=
      UInt8.toNat_ofNat_of_lt' (by show m + 1 < 256; omega)
    simp only [extractDestinations, hret, Bool.true_eq_false, if_false, if_true, List.drop_succ_cons,
      List.drop_zero, List.dropLast_concat, List.headD_cons, hm, hmap]

/-- **`Solver` and the destinations.** -/
theorem solver_keepsPromise {Point : Type} (ops : ECOps Point) (getID : Valtype → Valtype) :
    (∀ s, SolverPromise s ↔ ¬s.IllNumbered) ∧
      (∀ address : CTxDestination, address.HasId →
        extractDestination getID address.setDestination = some address) ∧
      ∀ (nRequired : ℕ) (keys : List (CKey Point)) (pubkeys : List CPubKey),
        1 ≤ nRequired → nRequired ≤ keys.length → keys.length ≤ 16 →
        keys.mapM (CKey.getPubKey ops) = some pubkeys →
        (∀ p ∈ pubkeys, p.length = 33 ∨ p.length = 65) →
        ∃ s, setMultisig ops nRequired keys = some s ∧ ∀ nRequiredRet,
          extractDestinations getID s nRequiredRet =
            ⟨true, some .txMultisig, pubkeys.map fun p => .keyID (getID p), nRequired⟩ :=
  ⟨fun _ => solverPromise_iff, fun _ => extractDestination_setDestination getID,
    fun _ _ _ hpos hle hsixteen hkeys hvalid =>
      extractDestinations_setMultisig ops getID hpos hle hsixteen hkeys hvalid⟩

/-- Two signatures of one key: `OP_2`, a push of 33 bytes, `OP_1`, `OP_CHECKMULTISIG`. -/
def twoOfOne : CScript := [0x52, 33] ++ List.replicate 33 2 ++ [0x51, 0xae]

/-- The call fails on it, and leaves the type and the solutions. -/
theorem not_solverPromise_twoOfOne :
    solverRet [] twoOfOne = ⟨false, some .txMultisig, [[2], List.replicate 33 2, [1]]⟩ ∧
      ¬SolverPromise twoOfOne := by
  have hret : solverRet [] twoOfOne =
      ⟨false, some .txMultisig, [[2], List.replicate 33 2, [1]]⟩ := by decide +kernel
  refine ⟨hret, fun hpromise => ?_⟩
  have hfail := hpromise.fails [] (by rw [hret])
  rw [hret] at hfail
  cases hfail

end FoxCoin
