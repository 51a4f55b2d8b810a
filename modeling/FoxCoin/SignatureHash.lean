import FoxCoin.Serialize

/-! # What a signature commits to

`SignatureHash` serializes a copy of the transaction in which the scripts of the inputs, and with
some hash types outputs, sequence numbers or whole inputs, are blanked out. This file says what is
left: the bytes that are hashed determine exactly the committed fields. -/

namespace FoxCoin

open Wire

/-! ## The hashed bytes -/

/-- `SIGHASH_NONE`. -/
def sighashNone : BitVec 32 := 2
/-- `SIGHASH_SINGLE`. -/
def sighashSingle : BitVec 32 := 3
/-- `SIGHASH_ANYONECANPAY`. -/
def sighashAnyonecanpay : BitVec 32 := 0x80

/-- `CTxOut::SetNull`. -/
def CTxOut.setNull : CTxOut := ⟨-1, []⟩

/-- Let the others update at will: the sequence numbers of the other inputs are zero. -/
def freeSequences (nIn : ℕ) (vin : List CTxIn) : List CTxIn :=
  vin.mapIdx fun i txin => if i = nIn then txin else { txin with nSequence := 0 }

/-- The copy of the transaction that `SignatureHash` serializes; `none` when the input, or the
output at the same place for `SIGHASH_SINGLE`, is out of range. -/
def signatureTx (scriptCode : CScript) (txTo : CTransaction) (nIn : ℕ) (nHashType : BitVec 32) :
    Option CTransaction :=
  if txTo.vin.length ≤ nIn then none
  else
    let scriptCode := scriptCode.findAndDelete [UInt8.ofNat opCodeseparator]
    -- blank out the scripts of the other inputs
    let txTmp := { txTo with
      vin := txTo.vin.mapIdx fun i txin =>
        { txin with scriptSig := if i = nIn then scriptCode else [] } }
    let txTmp? : Option CTransaction :=
      if nHashType &&& 0x1f = sighashNone then
        some { txTmp with vout := [], vin := freeSequences nIn txTmp.vin }
      else if nHashType &&& 0x1f = sighashSingle then
        if txTmp.vout.length ≤ nIn then none
        else some { txTmp with
          vout := (txTmp.vout.take (nIn + 1)).mapIdx fun i txout =>
            if i < nIn then CTxOut.setNull else txout
          vin := freeSequences nIn txTmp.vin }
      else some txTmp
    txTmp?.map fun txTmp =>
      if nHashType &&& sighashAnyonecanpay ≠ 0 then { txTmp with vin := txTmp.vin[nIn]?.toList }
      else txTmp

/-- The bytes that `SignatureHash` hashes. -/
def signatureBytes (scriptCode : CScript) (txTo : CTransaction) (nIn : ℕ) (nHashType : BitVec 32) :
    Option (List UInt8) :=
  (signatureTx scriptCode txTo nIn nHashType).map fun txTmp =>
    txTmp.serialize ++ leBytes 4 nHashType.toNat

/-- `SignatureHash`, over the double SHA-256 `Hash`. Out of range it is one. -/
def signatureHash (hash : List UInt8 → Uint256) (scriptCode : CScript) (txTo : CTransaction)
    (nIn : ℕ) (nHashType : BitVec 32) : Uint256 :=
  ((signatureBytes scriptCode txTo nIn nHashType).map hash).getD 1

/-! ## Committed fields -/

/-- The hash type is neither `SIGHASH_NONE` nor `SIGHASH_SINGLE` in its low five bits: all outputs
and sequence numbers are committed. -/
def CommitsAll (nHashType : BitVec 32) : Prop :=
  nHashType &&& 0x1f ≠ sighashNone ∧ nHashType &&& 0x1f ≠ sighashSingle

/-- The other inputs are blanked out. -/
def AnyoneCanPay (nHashType : BitVec 32) : Prop := nHashType &&& sighashAnyonecanpay ≠ 0

instance (nHashType : BitVec 32) : Decidable (CommitsAll nHashType) :=
  inferInstanceAs (Decidable (_ ∧ _))

instance (nHashType : BitVec 32) : Decidable (AnyoneCanPay nHashType) :=
  inferInstanceAs (Decidable (_ ≠ _))

/-- Two transactions have the same fields where a signature of input `nIn` with a hash type commits
to them. -/
structure CommitsSame (nIn : ℕ) (nHashType : BitVec 32) (tx tx' : CTransaction) : Prop where
  nVersion : tx.nVersion = tx'.nVersion
  nLockTime : tx.nLockTime = tx'.nLockTime
  /-- The input itself, but for its script. -/
  input : tx.vin[nIn]?.map (fun txin => (txin.prevout, txin.nSequence)) =
    tx'.vin[nIn]?.map fun txin => (txin.prevout, txin.nSequence)
  /-- The outpoints of all inputs. -/
  prevouts : ¬AnyoneCanPay nHashType → tx.prevouts = tx'.prevouts
  /-- The sequence numbers of all inputs. -/
  sequences : ¬AnyoneCanPay nHashType → CommitsAll nHashType →
    tx.vin.map CTxIn.nSequence = tx'.vin.map CTxIn.nSequence
  /-- All outputs. -/
  outputs : CommitsAll nHashType → tx.vout = tx'.vout
  /-- The output at the place of the input. -/
  output : nHashType &&& 0x1f = sighashSingle → tx.vout[nIn]? = tx'.vout[nIn]?

/-! ## The copy in closed form -/

/-- The input `nIn` of the copy. -/
def signedInput (scriptCode : CScript) (txin : CTxIn) : CTxIn := { txin with scriptSig := scriptCode }

/-- Another input of the copy. -/
def blankedInput (nHashType : BitVec 32) (txin : CTxIn) : CTxIn :=
  ⟨txin.prevout, [], if CommitsAll nHashType then txin.nSequence else 0⟩

/-- The inputs of the copy. -/
def signatureVin (scriptCode : CScript) (nIn : ℕ) (nHashType : BitVec 32) (vin : List CTxIn) :
    List CTxIn :=
  if AnyoneCanPay nHashType then (vin[nIn]?.map (signedInput scriptCode)).toList
  else vin.mapIdx fun i txin =>
    if i = nIn then signedInput scriptCode txin else blankedInput nHashType txin

/-- The outputs of the copy. -/
def signatureVout (nIn : ℕ) (nHashType : BitVec 32) (vout : List CTxOut) : List CTxOut :=
  if CommitsAll nHashType then vout
  else if nHashType &&& 0x1f = sighashNone then []
  else (vout.take (nIn + 1)).mapIdx fun i txout => if i < nIn then CTxOut.setNull else txout

variable {scriptCode : CScript} {tx tx' : CTransaction} {nIn : ℕ} {nHashType : BitVec 32}

/-- The input, and for `SIGHASH_SINGLE` the output at the same place, are in range. -/
structure SignatureInRange (tx : CTransaction) (nIn : ℕ) (nHashType : BitVec 32) : Prop where
  input : nIn < tx.vin.length
  output : nHashType &&& 0x1f = sighashSingle → nIn < tx.vout.length

/-- The copy that is serialized. -/
theorem signatureTx_eq_some (h : SignatureInRange tx nIn nHashType) :
    signatureTx scriptCode tx nIn nHashType = some { tx with
      vin := signatureVin (scriptCode.findAndDelete [UInt8.ofNat opCodeseparator]) nIn nHashType tx.vin
      vout := signatureVout nIn nHashType tx.vout } := by
  have hin : ¬tx.vin.length ≤ nIn := not_le.mpr h.input
  simp only [signatureTx, if_neg hin]
  generalize scriptCode.findAndDelete [UInt8.ofNat opCodeseparator] = code
  -- the inputs before the other inputs are dropped
  have hfree : ¬CommitsAll nHashType → freeSequences nIn (tx.vin.mapIdx fun i txin =>
      { txin with scriptSig := if i = nIn then code else [] }) =
        tx.vin.mapIdx fun i txin =>
          if i = nIn then signedInput code txin else blankedInput nHashType txin := by
    intro hall
    refine List.ext_getElem (by simp [freeSequences]) fun i hi hi' => ?_
    simp only [freeSequences, List.getElem_mapIdx, signedInput, blankedInput, if_neg hall]
    split_ifs <;> rfl
  have hkeep : CommitsAll nHashType → (tx.vin.mapIdx fun i txin =>
      ({ txin with scriptSig := if i = nIn then code else [] } : CTxIn)) =
        tx.vin.mapIdx fun i txin =>
          if i = nIn then signedInput code txin else blankedInput nHashType txin := by
    intro hall
    refine List.ext_getElem (by simp) fun i hi hi' => ?_
    simp only [List.getElem_mapIdx, signedInput, blankedInput, if_pos hall]
    split_ifs <;> rfl
  have hcollapse : (tx.vin.mapIdx fun i txin =>
      if i = nIn then signedInput code txin else blankedInput nHashType txin)[nIn]?.toList =
        (tx.vin[nIn]?.map (signedInput code)).toList := by
    rw [List.getElem?_mapIdx]
    simp
  have hvin : (if nHashType &&& sighashAnyonecanpay ≠ 0 then
      (tx.vin.mapIdx fun i txin =>
        if i = nIn then signedInput code txin else blankedInput nHashType txin)[nIn]?.toList
      else tx.vin.mapIdx fun i txin =>
        if i = nIn then signedInput code txin else blankedInput nHashType txin) =
        signatureVin code nIn nHashType tx.vin := by
    rw [hcollapse]
    rfl
  -- dropping the other inputs comes last, whatever was done to the copy before
  have hlast : ∀ txTmp : CTransaction, txTmp.vin = (tx.vin.mapIdx fun i txin =>
      if i = nIn then signedInput code txin else blankedInput nHashType txin) →
      (if nHashType &&& sighashAnyonecanpay ≠ 0 then { txTmp with vin := txTmp.vin[nIn]?.toList }
        else txTmp) = { txTmp with vin := signatureVin code nIn nHashType tx.vin } := by
    intro txTmp heq
    rw [← hvin, ← heq]
    split_ifs <;> rfl
  by_cases hnone : nHashType &&& 0x1f = sighashNone
  · have hall : ¬CommitsAll nHashType := fun hc => hc.1 hnone
    rw [if_pos hnone, Option.map_some, hlast _ (hfree hall), signatureVout, if_neg hall, if_pos hnone]
  · by_cases hsingle : nHashType &&& 0x1f = sighashSingle
    · have hall : ¬CommitsAll nHashType := fun hc => hc.2 hsingle
      have hout : ¬tx.vout.length ≤ nIn := not_le.mpr (h.output hsingle)
      rw [if_neg hnone, if_pos hsingle, if_neg hout, Option.map_some, hlast _ (hfree hall),
        signatureVout, if_neg hall, if_neg hnone]
    · have hall : CommitsAll nHashType := ⟨hnone, hsingle⟩
      rw [if_neg hnone, if_neg hsingle, Option.map_some, hlast _ (hkeep hall), signatureVout,
        if_pos hall]

/-! ## Scripts of the inputs -/

/-- The transaction with other scripts in its inputs. -/
def CTransaction.withScriptSigs (tx : CTransaction) (scriptSigs : ℕ → CScript) : CTransaction :=
  { tx with vin := tx.vin.mapIdx fun i txin => { txin with scriptSig := scriptSigs i } }

/-- The copy does not depend on the scripts of the inputs. -/
theorem signatureTx_withScriptSigs (scriptSigs : ℕ → CScript) :
    signatureTx scriptCode (tx.withScriptSigs scriptSigs) nIn nHashType =
      signatureTx scriptCode tx nIn nHashType := by
  have hblank : ∀ code : CScript, ((tx.withScriptSigs scriptSigs).vin.mapIdx fun i txin =>
      ({ txin with scriptSig := if i = nIn then code else [] } : CTxIn)) =
        tx.vin.mapIdx fun i txin => { txin with scriptSig := if i = nIn then code else [] } := by
    intro code
    rw [CTransaction.withScriptSigs, List.mapIdx_mapIdx]
    rfl
  have hlen : (tx.withScriptSigs scriptSigs).vin.length = tx.vin.length := by
    simp [CTransaction.withScriptSigs]
  simp only [signatureTx, hblank, hlen]
  rfl

/-! ## What equal bytes say -/

theorem signedInput_representable {txin : CTxIn} (h : txin.Representable)
    (hcode : scriptCode.length < 256 ^ 8) : (signedInput scriptCode txin).Representable :=
  ⟨h.prevout, hcode, h.nSequence⟩

theorem blankedInput_representable {txin : CTxIn} (h : txin.Representable) :
    (blankedInput nHashType txin).Representable := by
  refine ⟨h.prevout, Nat.pow_pos (by decide), ?_⟩
  unfold blankedInput
  split_ifs
  · exact h.nSequence
  · exact Nat.pow_pos (by decide)

/-- The copy fits the types of its fields when the transaction does. -/
theorem signatureVin_representable (h : tx.Representable) (hcode : scriptCode.length < 256 ^ 8) :
    (signatureVin scriptCode nIn nHashType tx.vin).length < 256 ^ 8 ∧
      ∀ txin ∈ signatureVin scriptCode nIn nHashType tx.vin, txin.Representable := by
  unfold signatureVin
  split_ifs with hanyone
  · cases hget : tx.vin[nIn]? with
    | none => exact ⟨Nat.pow_pos (by decide), by simp⟩
    | some txin =>
      refine ⟨Nat.one_lt_pow (by decide) (by decide), fun txin' hmem => ?_⟩
      obtain rfl : txin' = signedInput scriptCode txin := by simpa using hmem
      exact signedInput_representable (h.vin txin (List.mem_of_getElem? hget)) hcode
  · refine ⟨by rw [List.length_mapIdx]; exact h.vin_length, fun txin' hmem => ?_⟩
    obtain ⟨i, hi, rfl⟩ := List.mem_mapIdx.mp hmem
    have htxin := h.vin _ (List.getElem_mem hi)
    split_ifs
    · exact signedInput_representable htxin hcode
    · exact blankedInput_representable htxin

theorem signatureVout_representable (h : tx.Representable) :
    (signatureVout nIn nHashType tx.vout).length < 256 ^ 8 ∧
      ∀ txout ∈ signatureVout nIn nHashType tx.vout, txout.Representable := by
  have hlen := h.vout_length
  unfold signatureVout
  split_ifs with hall hnone
  · exact ⟨hlen, h.vout⟩
  · exact ⟨by decide, by simp⟩
  · refine ⟨?_, fun txout hmem => ?_⟩
    · rw [List.length_mapIdx, List.length_take]
      omega
    obtain ⟨i, hi, rfl⟩ := List.mem_mapIdx.mp hmem
    split_ifs
    · exact ⟨by decide, by decide⟩
    · exact h.vout _ (List.mem_of_mem_take (List.getElem_mem hi))

/-- The inputs of the copies agree just when the committed fields of the inputs do. -/
theorem signatureVin_eq_iff (hin : nIn < tx.vin.length) (hin' : nIn < tx'.vin.length) :
    signatureVin scriptCode nIn nHashType tx.vin = signatureVin scriptCode nIn nHashType tx'.vin ↔
      (tx.vin[nIn]?.map (fun txin => (txin.prevout, txin.nSequence)) =
        tx'.vin[nIn]?.map fun txin => (txin.prevout, txin.nSequence)) ∧
      (¬AnyoneCanPay nHashType → tx.prevouts = tx'.prevouts) ∧
      (¬AnyoneCanPay nHashType → CommitsAll nHashType →
        tx.vin.map CTxIn.nSequence = tx'.vin.map CTxIn.nSequence) := by
  have hsigned : ∀ a b : CTxIn, signedInput scriptCode a = signedInput scriptCode b ↔
      a.prevout = b.prevout ∧ a.nSequence = b.nSequence := by
    intro a b
    simp [signedInput]
  rw [List.getElem?_eq_getElem hin, List.getElem?_eq_getElem hin']
  simp only [Option.map_some, Option.some.injEq, Prod.mk.injEq]
  unfold signatureVin
  split_ifs with hanyone
  · -- only the input itself is left
    rw [List.getElem?_eq_getElem hin, List.getElem?_eq_getElem hin']
    simp [hsigned, hanyone]
  · simp only [hanyone, not_false_eq_true, true_implies, CTransaction.prevouts]
    constructor
    · intro h
      have hlen : tx.vin.length = tx'.vin.length := by simpa using congrArg List.length h
      have hat : ∀ i (hi : i < tx.vin.length) (hi' : i < tx'.vin.length),
          (if i = nIn then signedInput scriptCode tx.vin[i] else blankedInput nHashType tx.vin[i]) =
            if i = nIn then signedInput scriptCode tx'.vin[i]
            else blankedInput nHashType tx'.vin[i] := by
        intro i hi hi'
        have := List.getElem_of_eq h (by rw [List.length_mapIdx]; exact hi)
        simpa only [List.getElem_mapIdx] using this
      have hself := hat nIn hin hin'
      rw [if_pos rfl, if_pos rfl, hsigned] at hself
      refine ⟨hself, List.ext_getElem (by simpa using hlen) fun i hi hi' => ?_, fun hall =>
        List.ext_getElem (by simpa using hlen) fun i hi hi' => ?_⟩
      all_goals
        rw [List.length_map] at hi hi'
        have hi := hat i hi hi'
        rw [List.getElem_map, List.getElem_map]
        by_cases hself : i = nIn
        · rw [if_pos hself, if_pos hself, hsigned] at hi
          first | exact hi.1 | exact hi.2
        · rw [if_neg hself, if_neg hself, blankedInput, blankedInput, CTxIn.mk.injEq] at hi
          first | exact hi.1 | simpa only [if_pos hall] using hi.2.2
    · rintro ⟨⟨-, hsequence⟩, hprevouts, hsequences⟩
      have hlen : tx.vin.length = tx'.vin.length := by simpa using congrArg List.length hprevouts
      refine List.ext_getElem (by simpa using hlen) fun i hi hi' => ?_
      rw [List.length_mapIdx] at hi hi'
      have hprevout : tx.vin[i].prevout = tx'.vin[i].prevout := by
        have := List.getElem_of_eq hprevouts (by rw [List.length_map]; exact hi)
        rwa [List.getElem_map, List.getElem_map] at this
      rw [List.getElem_mapIdx, List.getElem_mapIdx]
      by_cases hself : i = nIn
      · subst hself
        rw [if_pos rfl, if_pos rfl, hsigned]
        exact ⟨hprevout, hsequence⟩
      · rw [if_neg hself, if_neg hself, blankedInput, blankedInput, CTxIn.mk.injEq]
        refine ⟨hprevout, rfl, ?_⟩
        by_cases hall : CommitsAll nHashType
        · rw [if_pos hall, if_pos hall]
          have := List.getElem_of_eq (hsequences hall) (by rw [List.length_map]; exact hi)
          rwa [List.getElem_map, List.getElem_map] at this
        · rw [if_neg hall, if_neg hall]

/-- The outputs of the copies agree just when the committed outputs do. -/
theorem signatureVout_eq_iff (hout : nHashType &&& 0x1f = sighashSingle → nIn < tx.vout.length)
    (hout' : nHashType &&& 0x1f = sighashSingle → nIn < tx'.vout.length) :
    signatureVout nIn nHashType tx.vout = signatureVout nIn nHashType tx'.vout ↔
      (CommitsAll nHashType → tx.vout = tx'.vout) ∧
      (nHashType &&& 0x1f = sighashSingle → tx.vout[nIn]? = tx'.vout[nIn]?) := by
  unfold signatureVout
  split_ifs with hall hnone
  · exact ⟨fun h => ⟨fun _ => h, fun hsingle => absurd hsingle hall.2⟩, fun h => h.1 hall⟩
  · have hsingle : nHashType &&& 0x1f ≠ sighashSingle := by
      rw [hnone]
      decide
    exact ⟨fun _ => ⟨fun h => absurd h hall, fun h => absurd h hsingle⟩, fun _ => rfl⟩
  · have hsingle : nHashType &&& 0x1f = sighashSingle := by
      by_contra hsingle
      exact hall ⟨hnone, hsingle⟩
    have hlt := hout hsingle
    have hlt' := hout' hsingle
    simp only [hall, hsingle, false_implies, true_implies, true_and]
    rw [List.getElem?_eq_getElem hlt, List.getElem?_eq_getElem hlt', Option.some.injEq]
    constructor
    · intro h
      have := List.getElem_of_eq h (i := nIn) (by rw [List.length_mapIdx, List.length_take]; omega)
      simpa using this
    · intro h
      refine List.ext_getElem (by simp; omega) fun i hi hi' => ?_
      rw [List.length_mapIdx, List.length_take] at hi hi'
      rw [List.getElem_mapIdx, List.getElem_mapIdx, List.getElem_take, List.getElem_take]
      by_cases hbefore : i < nIn
      · rw [if_pos hbefore, if_pos hbefore]
      · obtain rfl : i = nIn := by omega
        rw [if_neg hbefore, if_neg hbefore, h]

/-- The hashed bytes agree just when the committed fields do. -/
theorem signatureBytes_eq_iff (hcode : scriptCode.length < 256 ^ 8) (h : tx.Representable)
    (h' : tx'.Representable) (hrange : SignatureInRange tx nIn nHashType)
    (hrange' : SignatureInRange tx' nIn nHashType) :
    signatureBytes scriptCode tx nIn nHashType = signatureBytes scriptCode tx' nIn nHashType ↔
      CommitsSame nIn nHashType tx tx' := by
  rw [signatureBytes, signatureBytes, signatureTx_eq_some hrange, signatureTx_eq_some hrange']
  have hlt := (scriptCode.findAndDelete_length_le [UInt8.ofNat opCodeseparator]).trans_lt hcode
  generalize scriptCode.findAndDelete [UInt8.ofNat opCodeseparator] = code at hlt
  have hcopy : ∀ tx : CTransaction, tx.Representable → CTransaction.Representable
      { tx with vin := signatureVin code nIn nHashType tx.vin,
                vout := signatureVout nIn nHashType tx.vout } := by
    intro tx h
    exact ⟨h.nVersion, (signatureVin_representable h hlt).1, (signatureVin_representable h hlt).2,
      (signatureVout_representable h).1, (signatureVout_representable h).2, h.nLockTime⟩
  rw [Option.map_some, Option.map_some, Option.some.injEq]
  constructor
  · intro heq
    -- the copies can be read back from the bytes
    have hcopies := (prefixFree_transaction (hcopy tx h) (hcopy tx' h') heq).1
    rw [CTransaction.mk.injEq] at hcopies
    obtain ⟨hversion, hvin, hvout, hlock⟩ := hcopies
    obtain ⟨hinput, hprevouts, hsequences⟩ := (signatureVin_eq_iff hrange.input hrange'.input).mp hvin
    obtain ⟨houtputs, houtput⟩ := (signatureVout_eq_iff hrange.output hrange'.output).mp hvout
    exact ⟨hversion, hlock, hinput, hprevouts, hsequences, houtputs, houtput⟩
  · intro hsame
    rw [(signatureVin_eq_iff hrange.input hrange'.input).mpr
        ⟨hsame.input, hsame.prevouts, hsame.sequences⟩,
      (signatureVout_eq_iff hrange.output hrange'.output).mpr ⟨hsame.outputs, hsame.output⟩,
      hsame.nVersion, hsame.nLockTime]

/-- **What a signature commits to.** In range, the hashed bytes exist and do not depend on the
scripts of the inputs; two transactions have the same bytes just when they have the same committed
fields. -/
theorem signatureBytes_commits (hcode : scriptCode.length < 256 ^ 8) (h : tx.Representable)
    (h' : tx'.Representable) (hrange : SignatureInRange tx nIn nHashType)
    (hrange' : SignatureInRange tx' nIn nHashType) :
    (signatureBytes scriptCode tx nIn nHashType).isSome ∧
      (∀ scriptSigs, signatureBytes scriptCode (tx.withScriptSigs scriptSigs) nIn nHashType =
        signatureBytes scriptCode tx nIn nHashType) ∧
      (signatureBytes scriptCode tx nIn nHashType = signatureBytes scriptCode tx' nIn nHashType ↔
        CommitsSame nIn nHashType tx tx') := by
  refine ⟨?_, fun scriptSigs => ?_, signatureBytes_eq_iff hcode h h' hrange hrange'⟩
  · rw [signatureBytes, signatureTx_eq_some hrange]
    rfl
  · rw [signatureBytes, signatureBytes, signatureTx_withScriptSigs]

/-- The hypotheses hold of two transactions that differ in their outputs only. -/
theorem signatureBytes_commits_outputs :
    signatureBytes [] (exampleTx 1 [⟨5, 0⟩, ⟨6, 1⟩] [7]) 1 sighashNone =
      signatureBytes [] (exampleTx 1 [⟨5, 0⟩, ⟨6, 1⟩] [8, 9]) 1 sighashNone := by
  have hrepresentable : ∀ values : List ℤ, values.length < 3 →
      (∀ n ∈ values, -2 ^ 63 ≤ n ∧ n < 2 ^ 63) →
      (exampleTx 1 [⟨5, 0⟩, ⟨6, 1⟩] values).Representable := by
    intro values hlen hvalues
    constructor
    · exact (by decide : (-2 : ℤ) ^ 31 ≤ 1 ∧ (1 : ℤ) < 2 ^ 31)
    · exact (by decide : 2 < 256 ^ 8)
    · intro txin hmem
      obtain rfl | rfl : txin = ⟨⟨5, 0⟩, [1, 1], uintMax⟩ ∨ txin = ⟨⟨6, 1⟩, [1, 1], uintMax⟩ := by
        simpa [exampleTx] using hmem
      all_goals exact ⟨⟨by decide, by decide⟩, by decide, by decide⟩
    · rw [exampleTx, List.length_map]
      exact hlen.trans (by decide)
    · intro txout hmem
      obtain ⟨n, hn, rfl⟩ := List.mem_map.mp hmem
      exact ⟨hvalues n hn, Nat.pow_pos (by decide)⟩
    · exact (by decide : 0 < 256 ^ 4)
  have hcode : ([] : CScript).length < 256 ^ 8 := by decide
  have hrange : ∀ values, SignatureInRange (exampleTx 1 [⟨5, 0⟩, ⟨6, 1⟩] values) 1 sighashNone :=
    fun _ => ⟨by show 1 < 2; decide, fun h => absurd h (by decide)⟩
  refine (signatureBytes_commits hcode (hrepresentable [7] (by decide) (by decide))
    (hrepresentable [8, 9] (by decide) (by decide)) (hrange [7]) (hrange [8, 9])).2.2.mpr
    ⟨rfl, rfl, rfl, fun _ => rfl, fun _ _ => rfl, fun hall => absurd rfl hall.1, by decide⟩

end FoxCoin
