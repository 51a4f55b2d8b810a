import FoxCoin.EvalRuns
import FoxCoin.Lib.Tokens

/-! # Deleting operations from a script

`FindAndDelete` erases a pattern from the bytes of a script wherever an operation may start. When
the pattern is one operation, this filters the operations that `GetOp` reads: what is erased is an
operation, and what comes after it is read as before. -/

namespace FoxCoin

open Tokens

/-! ## The code -/

/-- The inner loop of `FindAndDelete` on the whole script: erase `b` at `pc`, and count. -/
def CScript.eraseMatches (b : CScript) : ℕ → CScript → ℕ → ℕ → CScript × ℕ
  | 0, s, _, nFound => (s, nFound)
  | nFuel + 1, s, pc, nFound =>
    if b.isPrefixOf (s.drop pc) then
      CScript.eraseMatches b nFuel (s.take pc ++ s.drop (pc + b.length)) pc (nFound + 1)
    else (s, nFound)

/-- The outer loop of `FindAndDelete`. `GetOp` moves `pc` behind the next operation. -/
def CScript.findAndDeleteFrom (b : CScript) : ℕ → CScript → ℕ → ℕ → CScript × ℕ
  | 0, s, _, nFound => (s, nFound)
  | nFuel + 1, s, pc, nFound =>
    let (s, nFound) := CScript.eraseMatches b s.length s pc nFound
    match CScript.getOp2 (s.drop pc) with
    | none => (s, nFound)
    | some (_, _, rest) => CScript.findAndDeleteFrom b nFuel s (s.length - rest.length) nFound

/-- `CScript::FindAndDelete` as it changes the script in place: what is left of it, and the number
of erasures. Every round moves `pc` on, so the length of the script bounds their number. -/
def CScript.findAndDeleteInPlace (s b : CScript) : CScript × ℕ :=
  if b.isEmpty then (s, 0) else CScript.findAndDeleteFrom b s.length s 0 0

/-! ## Operations as tokens -/

variable {s pc b : CScript} {opcode : ℕ} {vch : Valtype}

/-- The size operand does not depend on what comes after it. -/
theorem CScript.getPushSize_stable {operand rest : CScript} {nSize : ℕ}
    (h : CScript.getPushSize opcode (operand ++ rest) = some (nSize, rest)) (rest' : CScript) :
    CScript.getPushSize opcode (operand ++ rest') = some (nSize, rest') := by
  rw [getPushSize] at h ⊢
  by_cases hop : opcode < opPushdata1
  · rw [if_pos hop, Option.some.injEq, Prod.mk.injEq] at h
    obtain rfl : operand = [] := List.append_left_eq_self.mp h.2
    rw [if_pos hop, h.1]
    rfl
  · rw [if_neg hop] at h ⊢
    -- the operand has as many bytes as the opcode says, which the rest does not change
    generalize (if opcode = opPushdata1 then 1 else if opcode = opPushdata2 then 2 else 4) = nOperand
      at h ⊢
    dsimp only at h ⊢
    split_ifs at h with hshort
    rw [Option.some.injEq, Prod.mk.injEq] at h
    have hlen : operand.length = nOperand := by
      have := congrArg List.length h.2
      rw [List.length_drop, List.length_append] at this
      rw [List.length_append] at hshort
      omega
    rw [if_neg (by rw [List.length_append]; omega), List.take_left' hlen, List.drop_left' hlen]
    rw [List.take_left' hlen] at h
    rw [h.1]

/-- **An operation does not depend on what comes after it.** -/
theorem CScript.getOp2_stable {front : CScript} (h : (front ++ pc).getOp2 = some (opcode, vch, pc))
    (pc' : CScript) : (front ++ pc').getOp2 = some (opcode, vch, pc') := by
  cases front with
  | nil => exact absurd (getOp2_length_lt h) (lt_irrefl _)
  | cons c front =>
    rw [List.cons_append, getOp2] at h ⊢
    by_cases hpush : c.toNat ≤ opPushdata4
    · rw [if_pos hpush] at h ⊢
      cases hsize : getPushSize c.toNat (front ++ pc) with
      | none =>
        rw [hsize] at h
        cases h
      | some p =>
        obtain ⟨nSize, rest⟩ := p
        rw [hsize] at h
        dsimp only at h
        split_ifs at h with hshort
        simp only [Option.some.injEq, Prod.mk.injEq] at h
        obtain ⟨rfl, rfl, hrest⟩ := h
        obtain ⟨operand, happend, -⟩ := getPushSize_eq_append hsize
        -- the operand and the data are what is in front
        have hdata : rest = rest.take nSize ++ pc := by rw [← hrest, List.take_append_drop]
        have hfront : front = operand ++ rest.take nSize := by
          rw [hdata, ← List.append_assoc] at happend
          exact List.append_cancel_right happend
        have hlen : (rest.take nSize).length = nSize := by
          rw [List.length_take]
          omega
        have hstable := getPushSize_stable (happend ▸ hsize) (rest.take nSize ++ pc')
        rw [hfront, List.append_assoc, hstable]
        dsimp only
        rw [if_neg (by rw [List.length_append]; omega), List.take_left' hlen, List.drop_left' hlen]
    · rw [if_neg hpush] at h ⊢
      simp only [Option.some.injEq, Prod.mk.injEq] at h
      obtain ⟨rfl, rfl, hrest⟩ := h
      obtain rfl : front = [] := List.append_left_eq_self.mp hrest
      rfl

/-- The bytes of the first operation, and what comes after it. -/
def CScript.nextOperation (s : CScript) : Option (List UInt8 × List UInt8) :=
  s.getOp2.map fun op => (s.take (s.length - op.2.2.length), op.2.2)

theorem CScript.nextOperation_eq_some {front : List UInt8} :
    s.nextOperation = some (front, pc) ↔
      s = front ++ pc ∧ ∃ opcode vch, s.getOp2 = some (opcode, vch, pc) := by
  rw [nextOperation, Option.map_eq_some_iff]
  constructor
  · rintro ⟨⟨opcode, vch, pc'⟩, hop, heq⟩
    obtain ⟨rfl, rfl⟩ := Prod.mk.inj heq
    obtain ⟨front, rfl, -⟩ := getOp2_eq_append hop
    exact ⟨by rw [List.length_append, Nat.add_sub_cancel, List.take_left], opcode, vch, hop⟩
  · rintro ⟨rfl, opcode, vch, hop⟩
    exact ⟨_, hop, by rw [List.length_append, Nat.add_sub_cancel, List.take_left]⟩

/-- `GetOp` reads a script operation by operation. -/
def opReader : Reader UInt8 where
  next := CScript.nextOperation
  eq_append := fun h => (CScript.nextOperation_eq_some.mp h).1
  ne_nil := by
    intro s t rest h hnil
    obtain ⟨rfl, opcode, vch, hop⟩ := CScript.nextOperation_eq_some.mp h
    rw [hnil] at hop
    exact absurd (CScript.getOp2_length_lt hop) (lt_irrefl _)
  stable := by
    intro s t rest h rest'
    obtain ⟨rfl, opcode, vch, hop⟩ := CScript.nextOperation_eq_some.mp h
    exact CScript.nextOperation_eq_some.mpr ⟨rfl, opcode, vch, CScript.getOp2_stable hop rest'⟩

/-- The operations of a script, each with all its bytes. -/
def CScript.operations (s : CScript) : List CScript := (opReader.split s).1

/-- What is left when `GetOp` fails. -/
def CScript.unparsed (s : CScript) : CScript := (opReader.split s).2

/-- The serialization of a single operation. -/
def CScript.IsOperation (b : CScript) : Prop := ∃ opcode vch, b.getOp2 = some (opcode, vch, [])

theorem CScript.isOperation_iff : b.IsOperation ↔ opReader.IsToken b := by
  rw [Reader.IsToken]
  show _ ↔ b.nextOperation = some (b, [])
  rw [nextOperation_eq_some, List.append_nil, IsOperation]
  simp

/-! ## The loops -/

variable {k nFuel : ℕ} {done p : CScript}

/-- A script starts with the pattern some times, and then no more. -/
theorem CScript.exists_matches (hb : b ≠ []) (p : CScript) :
    ∃ k p', p = (List.replicate k b).flatten ++ p' ∧ ¬b <+: p' ∧ k + p'.length ≤ p.length := by
  have hpos := List.length_pos_iff.mpr hb
  induction hn : p.length using Nat.strong_induction_on generalizing p with
  | _ n ih =>
    by_cases hmatch : b <+: p
    · obtain ⟨rest, rfl⟩ := hmatch
      rw [List.length_append] at hn
      obtain ⟨k, p', hrest, hno, hlen⟩ := ih rest.length (by omega) rest rfl
      refine ⟨k + 1, p', ?_, hno, by omega⟩
      rw [List.replicate_succ, List.flatten_cons, List.append_assoc, ← hrest]
    · exact ⟨0, p, rfl, hmatch, by omega⟩

/-- The inner loop erases them all. -/
theorem CScript.eraseMatches_eq (hno : ¬b <+: p) (done : CScript) (nFound : ℕ) (hk : k ≤ nFuel) :
    CScript.eraseMatches b nFuel (done ++ ((List.replicate k b).flatten ++ p)) done.length nFound =
      (done ++ p, nFound + k) := by
  induction k generalizing nFuel nFound with
  | zero =>
    cases nFuel with
    | zero => rfl
    | succ nFuel =>
      rw [List.replicate_zero, List.flatten_nil, List.nil_append, eraseMatches, List.drop_left,
        if_neg (by rwa [List.isPrefixOf_iff_prefix])]
      rfl
  | succ k ih =>
    cases nFuel with
    | zero => omega
    | succ nFuel =>
      rw [List.replicate_succ, List.flatten_cons, List.append_assoc, eraseMatches, List.drop_left,
        if_pos (by rw [List.isPrefixOf_iff_prefix]; exact List.prefix_append _ _), List.take_left,
        ← List.drop_drop, List.drop_left, List.drop_left, ih (nFound + 1) (by omega)]
      congr 1
      omega

theorem CScript.dropMatches_eq (hno : ¬b <+: p) (hk : k ≤ nFuel) :
    CScript.dropMatches b nFuel ((List.replicate k b).flatten ++ p) = p := by
  induction k generalizing nFuel with
  | zero =>
    cases nFuel with
    | zero => rfl
    | succ nFuel => exact if_neg (by rwa [List.isPrefixOf_iff_prefix])
  | succ k ih =>
    cases nFuel with
    | zero => omega
    | succ nFuel =>
      rw [List.replicate_succ, List.flatten_cons, List.append_assoc, dropMatches,
        if_pos (by rw [List.isPrefixOf_iff_prefix]; exact List.prefix_append _ _), List.drop_left,
        ih (by omega)]

/-- One round of the outer loop. -/
theorem CScript.findAndDeleteFrom_succ (hno : ¬b <+: p) (done : CScript) (nFound : ℕ)
    (hk : k ≤ (done ++ ((List.replicate k b).flatten ++ p)).length) :
    CScript.findAndDeleteFrom b (nFuel + 1) (done ++ ((List.replicate k b).flatten ++ p))
      done.length nFound =
      match p.nextOperation with
      | none => (done ++ p, nFound + k)
      | some (front, rest) =>
        CScript.findAndDeleteFrom b nFuel (done ++ front ++ rest) (done ++ front).length
          (nFound + k) := by
  rw [findAndDeleteFrom, eraseMatches_eq hno done nFound hk]
  simp only [List.drop_left]
  cases hop : p.getOp2 with
  | none => rw [nextOperation, hop, Option.map_none]
  | some op =>
    obtain ⟨opcode, vch, rest⟩ := op
    obtain ⟨front, rfl, -⟩ := getOp2_eq_append hop
    rw [nextOperation_eq_some.mpr ⟨rfl, opcode, vch, hop⟩]
    simp only [← List.append_assoc, List.length_append, Nat.add_sub_cancel]

/-- **The script in place** is the script that the loop on the rest builds. -/
theorem CScript.findAndDeleteFrom_fst (hb : b ≠ []) (done p : CScript) (nFound : ℕ)
    (hfuel : p.length ≤ nFuel) :
    (CScript.findAndDeleteFrom b nFuel (done ++ p) done.length nFound).1 =
      done ++ CScript.findAndDeleteLoop b nFuel p := by
  induction nFuel generalizing done p nFound with
  | zero => rfl
  | succ nFuel ih =>
    obtain ⟨k, p', rfl, hno, hk⟩ := exists_matches hb p
    rw [findAndDeleteFrom_succ hno done nFound (by rw [List.length_append]; omega),
      findAndDeleteLoop, dropMatches_eq hno (by omega)]
    cases hop : p'.getOp2 with
    | none => rw [nextOperation, hop, Option.map_none]
    | some op =>
      obtain ⟨opcode, vch, rest⟩ := op
      have hlt := getOp2_length_lt hop
      obtain ⟨front, rfl, -⟩ := getOp2_eq_append hop
      rw [nextOperation_eq_some.mpr ⟨rfl, opcode, vch, hop⟩]
      simp only
      rw [ih (done ++ front) rest (nFound + k) (by omega), List.length_append, Nat.add_sub_cancel,
        List.take_left, List.append_assoc]

/-- **Both models of `FindAndDelete` agree.** -/
theorem CScript.findAndDeleteInPlace_fst (s b : CScript) :
    (s.findAndDeleteInPlace b).1 = s.findAndDelete b := by
  rw [findAndDeleteInPlace, findAndDelete]
  split_ifs with hempty
  · rfl
  · exact findAndDeleteFrom_fst (fun hnil => hempty (by rw [hnil]; rfl)) [] s 0 le_rfl

/-! ## What is deleted -/

theorem CScript.IsOperation.ne_nil (hb : b.IsOperation) : b ≠ [] := by
  rintro rfl
  obtain ⟨opcode, vch, hop⟩ := hb
  cases hop

/-- **Operations are filtered in place**: the pattern stands where an operation starts exactly when
it is that operation. -/
theorem CScript.findAndDeleteFrom_eq (hb : b.IsOperation) (done p : CScript) (nFound : ℕ)
    (hfuel : p.length ≤ nFuel) :
    CScript.findAndDeleteFrom b nFuel (done ++ p) done.length nFound =
      (done ++ opReader.delete b p, nFound + p.operations.count b) := by
  have htoken := isOperation_iff.mp hb
  induction nFuel generalizing done p nFound with
  | zero =>
    obtain rfl := List.eq_nil_of_length_eq_zero (Nat.le_zero.mp hfuel)
    rfl
  | succ nFuel ih =>
    -- the pattern stands `k` times here, and then the next operation is another one
    obtain ⟨k, p', rfl, hno, hk⟩ := exists_matches hb.ne_nil p
    have hfront : opReader.split ((List.replicate k b).flatten ++ p') =
        (List.replicate k b ++ p'.operations, p'.unparsed) :=
      Reader.split_flatten_append (fun t ht => List.eq_of_mem_replicate ht ▸ htoken) p'
    have hdelete : opReader.delete b ((List.replicate k b).flatten ++ p') = opReader.delete b p' := by
      rw [Reader.delete, hfront, List.filter_append, List.filter_replicate_of_neg (by simp),
        List.nil_append]
      rfl
    have hcount : CScript.operations ((List.replicate k b).flatten ++ p') =
        List.replicate k b ++ p'.operations := congrArg Prod.fst hfront
    rw [findAndDeleteFrom_succ hno done nFound (by rw [List.length_append]; omega), hdelete, hcount,
      List.count_append, List.count_replicate_self]
    cases hnext : p'.nextOperation with
    | none =>
      have hsplit : opReader.split p' = ([], p') := Reader.split_of_none hnext
      rw [Reader.delete, operations, hsplit]
      rfl
    | some q =>
      obtain ⟨front, rest⟩ := q
      have hsplit : opReader.split p' = (front :: CScript.operations rest, CScript.unparsed rest) :=
        Reader.split_of_some hnext
      have hops : p'.operations = front :: CScript.operations rest := congrArg Prod.fst hsplit
      have hlt : rest.length < p'.length := Reader.length_rest_lt (R := opReader) hnext
      have hne : front ≠ b := by
        rintro rfl
        exact hno ⟨rest, (opReader.eq_append hnext).symm⟩
      simp only
      rw [ih (done ++ front) rest (nFound + k) (by omega), Reader.delete, Reader.delete, hsplit, hops,
        List.filter_cons_of_pos (by simpa using hne), List.count_cons_of_ne hne, List.flatten_cons]
      simp only [operations, unparsed, List.append_assoc, Nat.add_assoc]

/-- **`FindAndDelete` of a single operation filters the operations of the script**: those that are
equal to it are removed and counted, the others and what `GetOp` cannot read stay in order, and a
second time there is nothing to remove. -/
theorem CScript.findAndDelete_filters (s : CScript) (hb : b.IsOperation) :
    (s.findAndDeleteInPlace b).1 = (s.operations.filter (· ≠ b)).flatten ++ s.unparsed ∧
      (s.findAndDeleteInPlace b).1.operations = s.operations.filter (· ≠ b) ∧
      (s.findAndDeleteInPlace b).1.unparsed = s.unparsed ∧
      (s.findAndDeleteInPlace b).2 = s.operations.count b ∧
      (s.findAndDeleteInPlace b).1.findAndDeleteInPlace b = ((s.findAndDeleteInPlace b).1, 0) := by
  have hdelete : ∀ s : CScript, s.findAndDeleteInPlace b =
      (opReader.delete b s, s.operations.count b) := by
    intro s
    have hempty : b.isEmpty = false := List.isEmpty_eq_false_iff.mpr hb.ne_nil
    rw [findAndDeleteInPlace, hempty, if_neg Bool.false_ne_true]
    simpa using findAndDeleteFrom_eq hb [] s 0 le_rfl
  have hsplit : opReader.split (opReader.delete b s) =
      (s.operations.filter (· ≠ b), s.unparsed) := Reader.split_delete b s
  have htail : CScript.unparsed (opReader.delete b s) = s.unparsed := by
    rw [unparsed, hsplit]
  rw [hdelete s]
  refine ⟨rfl, congrArg Prod.fst hsplit, htail, rfl, ?_⟩
  · rw [hdelete, Reader.delete_delete]
    exact Prod.ext rfl (Reader.count_split_delete b s)

/-- The push of a byte is deleted from a script that pushes it, and has it in other data. -/
theorem CScript.findAndDelete_filters_push :
    CScript.IsOperation [1, 7] ∧
      CScript.operations [1, 7, 3, 1, 7, 0xac, 0xac, 1, 7, 2, 7] =
        [[1, 7], [3, 1, 7, 0xac], [0xac], [1, 7]] ∧
      (CScript.findAndDeleteInPlace [1, 7, 3, 1, 7, 0xac, 0xac, 1, 7, 2, 7] [1, 7]).1 =
        [3, 1, 7, 0xac, 0xac, 2, 7] :=
  have hb : CScript.IsOperation [1, 7] := ⟨1, [7], by decide⟩
  ⟨hb, by decide, by
    rw [(CScript.findAndDelete_filters [1, 7, 3, 1, 7, 0xac, 0xac, 1, 7, 2, 7] hb).1]
    decide⟩

end FoxCoin
