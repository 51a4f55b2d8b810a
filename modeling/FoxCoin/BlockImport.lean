import FoxCoin.Unserialize

/-! # Importing a block file

`LoadExternalBlockFile` looks for message starts in a file and offers the blocks behind them to
`ProcessBlock`. The handler of errors is outside the loop, so that the first record that cannot be
read is the last one that is looked at. -/

namespace FoxCoin

open Wire

/-! ## The loop -/

/-- The bytes that a record starts with. None is like the first one. -/
structure MessageStart where
  pchMessageStart : Vector UInt8 4
  first : ∀ j : Fin 4, pchMessageStart[j] = pchMessageStart[0] → j = 0

/-- A block file, which stays below the 2 GB that `fseek` and `ftell` reach. -/
structure ExternalFile where
  bytes : List UInt8
  size_lt : bytes.length < 2 ^ 31

/-- The inner loop of `LoadExternalBlockFile`: the position after the next message start. Every
round goes on in the file, which bounds the rounds. -/
def findStart (start : MessageStart) (file : ExternalFile) : ℕ → ℕ → Option ℕ
  | 0, _ => none
  | nFuel + 1, nPos =>
    let pchData := (file.bytes.drop nPos).take 65536
    let nRead := pchData.length
    if nRead ≤ 8 then none
    else
      match (pchData.take (nRead + 1 - 4)).findIdx? (· == start.pchMessageStart[0]) with
      | some nFind =>
        if (pchData.drop nFind).take 4 = start.pchMessageStart.toList then some (nPos + nFind + 4)
        else findStart start file nFuel (nPos + nFind + 1)
      | none => findStart start file nFuel (nPos + 65536 - 4 + 1)

/-- A block that was offered to `ProcessBlock`, and where its record starts. -/
structure Offer where
  nStart : ℕ
  block : CBlock

/-- The outer loop of `LoadExternalBlockFile`: what it offers, and how many blocks were taken. A
read that fails ends it. -/
def loadLoop {S : Type} (start : MessageStart) (sizes : ElementSizes)
    (processBlock : S → CBlock → Bool × S) (file : ExternalFile) : ℕ → ℕ → S → List Offer × ℕ
  | 0, _, _ => ([], 0)
  | nFuel + 1, nPos, s =>
    match findStart start file (file.bytes.length + 1) nPos with
    | none => ([], 0)
    | some nPos =>
      match readLe 4 (file.bytes.drop nPos) with
      | none => ([], 0)
      | some (nSize, blkdat) =>
        if 0 < nSize ∧ nSize ≤ maxBlockSize then
          match CBlock.read sizes serDisk blkdat with
          | none => ([], 0)
          | some (block, _) =>
            let (fAccepted, s) := processBlock s block
            let nPosNext := if fAccepted then nPos + (4 + nSize) else nPos
            let (vOffers, nLoaded) := loadLoop start sizes processBlock file nFuel nPosNext s
            (⟨nPos - 4, block⟩ :: vOffers, if fAccepted then nLoaded + 1 else nLoaded)
        else loadLoop start sizes processBlock file nFuel nPos s

/-- `LoadExternalBlockFile`: what it offers to `ProcessBlock`, and its result. -/
def loadExternalBlockFile {S : Type} (start : MessageStart) (sizes : ElementSizes)
    (processBlock : S → CBlock → Bool × S) (file : ExternalFile) (s : S) : List Offer × Bool :=
  let (vOffers, nLoaded) := loadLoop start sizes processBlock file (file.bytes.length + 1) 0 s
  (vOffers, decide (0 < nLoaded))

/-! ## Records -/

namespace ExternalFile

variable (start : MessageStart) (sizes : ElementSizes) (file : ExternalFile)

/-- A message start at a place of the file. -/
def StartsAt (q : ℕ) : Prop := start.pchMessageStart.toList <+: file.bytes.drop q

/-- A record that is claimed at a place: a message start, and a size that a block can have. -/
structure Claimed (q nSize : ℕ) (blkdat : List UInt8) : Prop where
  starts : file.StartsAt start q
  size : readLe 4 (file.bytes.drop (q + 4)) = some (nSize, blkdat)
  pos : 0 < nSize
  le : nSize ≤ maxBlockSize

/-- A claimed record without a block in it. -/
def Undecodable (q : ℕ) : Prop :=
  ∃ nSize blkdat, file.Claimed start q nSize blkdat ∧ CBlock.read sizes serDisk blkdat = none

/-- A record whose block has the size that the record claims. -/
def WellFramed (q : ℕ) (block : CBlock) : Prop :=
  ∃ nSize blkdat rest, file.Claimed start q nSize blkdat ∧
    CBlock.read sizes serDisk blkdat = some (block, rest) ∧ rest.length + nSize = blkdat.length

/-- A place inside a record that is claimed before it. -/
def Inside (q : ℕ) : Prop :=
  ∃ q' nSize blkdat, file.Claimed start q' nSize blkdat ∧ q' < q ∧ q < q' + 8 + nSize

variable {start : MessageStart} {sizes : ElementSizes} {file : ExternalFile}

theorem StartsAt.getElem? {q : ℕ} (h : file.StartsAt start q) {j : ℕ} (hj : j < 4) :
    file.bytes[q + j]? = some start.pchMessageStart[j] := by
  have hlen : j < start.pchMessageStart.toList.length := by rwa [Vector.length_toList]
  rw [← List.getElem?_drop, List.prefix_iff_getElem?.mp h j hlen, Vector.getElem_toList]

theorem StartsAt.le_length {q : ℕ} (h : file.StartsAt start q) : q + 4 ≤ file.bytes.length := by
  have hlen := h.length_le
  rw [Vector.length_toList, List.length_drop] at hlen
  omega

/-- Message starts do not overlap. -/
theorem StartsAt.apart {q q' : ℕ} (h : file.StartsAt start q) (h' : file.StartsAt start q')
    (hlt : q < q') : q + 4 ≤ q' := by
  by_contra hnot
  obtain ⟨j, rfl⟩ := Nat.exists_eq_add_of_lt hlt
  have hj : j + 1 < 4 := by omega
  have hbyte := h.getElem? hj
  have hbyte' := h'.getElem? (show 0 < 4 by norm_num)
  rw [add_zero, add_assoc, hbyte, Option.some.injEq] at hbyte'
  have hzero := start.first ⟨j + 1, hj⟩ hbyte'
  rw [Fin.ext_iff] at hzero
  cases hzero

/-- The first message start from a position on. -/
structure FirstStart (start : MessageStart) (file : ExternalFile) (nPos q : ℕ) : Prop where
  starts : file.StartsAt start q
  le : nPos ≤ q
  first : ∀ q', nPos ≤ q' → file.StartsAt start q' → q ≤ q'

/-- What a search from a position finds: the first message start, or none with a record behind
it. -/
structure Finds (start : MessageStart) (file : ExternalFile) (nPos : ℕ) (found : Option ℕ) : Prop where
  of_some : ∀ p, found = some p → ∃ q, p = q + 4 ∧ FirstStart start file nPos q
  of_none : found = none → ∀ q, nPos ≤ q → file.StartsAt start q → file.bytes.length ≤ q + 8

/-- Bytes at which no message starts can be passed over. -/
theorem Finds.skip {nPos nPos' : ℕ} {found : Option ℕ} (h : Finds start file nPos' found)
    (hle : nPos ≤ nPos') (hskip : ∀ q, nPos ≤ q → q < nPos' → ¬file.StartsAt start q) :
    Finds start file nPos found := by
  have hafter : ∀ q, nPos ≤ q → file.StartsAt start q → nPos' ≤ q := fun q hq hstarts =>
    not_lt.mp fun hlt => hskip q hq hlt hstarts
  refine ⟨fun p hp => ?_, fun hnone q hq hstarts => h.of_none hnone q (hafter q hq hstarts) hstarts⟩
  obtain ⟨q, rfl, hfirst⟩ := h.of_some p hp
  exact ⟨q, rfl, hfirst.starts, hle.trans hfirst.le,
    fun q' hq' hstarts => hfirst.first q' (hafter q' hq' hstarts) hstarts⟩

/-- The inner loop finds the next message start, wherever its buffers end. -/
theorem finds_findStart {nFuel nPos : ℕ} (h : file.bytes.length < nFuel + nPos) :
    Finds start file nPos (findStart start file nFuel nPos) := by
  induction nFuel generalizing nPos with
  | zero =>
    refine ⟨fun p hp => (by cases hp), fun _ q hq hstarts => ?_⟩
    have hlen := hstarts.le_length
    omega
  | succ nFuel ih =>
    obtain ⟨pchData, hdata⟩ : ∃ pchData, pchData = (file.bytes.drop nPos).take 65536 := ⟨_, rfl⟩
    have hread : pchData.length = min 65536 (file.bytes.length - nPos) := by
      rw [hdata, List.length_take, List.length_drop]
    -- the bytes that are searched
    have hbyte : ∀ k, k + 3 < pchData.length →
        (pchData.take (pchData.length + 1 - 4))[k]? = file.bytes[nPos + k]? := by
      intro k hk
      rw [List.getElem?_take_of_lt (by omega), hdata, List.getElem?_take_of_lt (by omega),
        List.getElem?_drop]
    rw [findStart]
    simp only [← hdata]
    split
    next hend =>
      refine ⟨fun p hp => (by cases hp), fun _ q hq hstarts => ?_⟩
      have hlen := hstarts.le_length
      omega
    next hmore =>
      cases hfind : (pchData.take (pchData.length + 1 - 4)).findIdx?
        (· == start.pchMessageStart[0]) with
      | none =>
        refine (ih (by omega)).skip (by omega) fun q hq hlt hstarts => ?_
        obtain ⟨k, rfl⟩ := Nat.exists_eq_add_of_le hq
        have hlen := hstarts.le_length
        have hk := hbyte k (by omega)
        have hfirst := hstarts.getElem? (show 0 < 4 by norm_num)
        rw [add_zero] at hfirst
        rw [hfirst] at hk
        have hnot := List.findIdx?_eq_none_iff.mp hfind _ (List.mem_of_getElem? hk)
        simp at hnot
      | some nFind =>
        obtain ⟨hlt, hmatch, hbefore⟩ := List.findIdx?_eq_some_iff_getElem.mp hfind
        rw [List.length_take] at hlt
        have hskip : ∀ q, nPos ≤ q → q < nPos + nFind → ¬file.StartsAt start q := by
          intro q hq hqlt hstarts
          obtain ⟨k, rfl⟩ := Nat.exists_eq_add_of_le hq
          have hk := hbyte k (by omega)
          have hfirst := hstarts.getElem? (show 0 < 4 by norm_num)
          rw [add_zero] at hfirst
          rw [hfirst, List.getElem?_eq_some_iff] at hk
          obtain ⟨hklt, hkeq⟩ := hk
          exact hbefore k (by omega) (by rw [hkeq, beq_self_eq_true])
        have hcompare : (pchData.drop nFind).take 4 = start.pchMessageStart.toList ↔
            file.StartsAt start (nPos + nFind) := by
          have htake : (pchData.drop nFind).take 4 = (file.bytes.drop (nPos + nFind)).take 4 := by
            rw [hdata, List.drop_take, List.drop_drop, List.take_take, min_eq_left (by omega)]
          rw [htake, StartsAt, List.prefix_iff_eq_take, Vector.length_toList]
          exact eq_comm
        dsimp only
        split
        next heq =>
          have hstarts := hcompare.mp heq
          have hhere : Finds start file (nPos + nFind) (some (nPos + nFind + 4)) := by
            refine ⟨fun p hp => ⟨nPos + nFind, (Option.some.inj hp).symm, hstarts, le_rfl, ?_⟩,
              fun hnone => by cases hnone⟩
            exact fun q' hq' _ => hq'
          exact hhere.skip (by omega) hskip
        next hno =>
          refine (ih (by omega)).skip (by omega) fun q hq hqlt => ?_
          obtain hq' | rfl : q < nPos + nFind ∨ q = nPos + nFind := by omega
          · exact hskip q hq hq'
          · exact fun hstarts => hno (hcompare.mpr hstarts)

/-! ## The rounds of the outer loop -/

variable {S : Type} {processBlock : S → CBlock → Bool × S}

/-- A size that can be read has its four bytes. -/
theorem readLe_eq_none {k : ℕ} {bytes : List UInt8} (h : readLe k bytes = none) : bytes.length < k := by
  by_contra hle
  have hread : readBytes k bytes = some (bytes.take k, bytes.drop k) := if_pos (not_lt.mp hle)
  have hsome : readLe k bytes = (readBytes k bytes).bind fun p => some (ofLeBytes p.1, p.2) := rfl
  rw [hsome, hread] at h
  cases h

theorem readLe_eq_some {k n : ℕ} {bytes rest : List UInt8} (h : readLe k bytes = some (n, rest)) :
    rest.length + k = bytes.length := by
  have hbind : readLe k bytes = (readBytes k bytes).bind fun p => some (ofLeBytes p.1, p.2) := rfl
  rw [hbind, readBytes] at h
  split at h
  next hle =>
    rw [Option.bind_some, Option.some.injEq, Prod.mk.injEq] at h
    rw [← h.2, List.length_drop]
    omega
  next => cases h

/-- What a round can do: it finds no record, a record without a block, a message start that is no
record, or a block, which it offers. -/
theorem loadLoop_cases (start : MessageStart) (sizes : ElementSizes)
    (processBlock : S → CBlock → Bool × S) (file : ExternalFile) (nFuel nPos : ℕ) (s : S) :
    ((loadLoop start sizes processBlock file (nFuel + 1) nPos s).1 = [] ∧
        ∀ q, nPos ≤ q → file.StartsAt start q → file.bytes.length ≤ q + 8) ∨
      ∃ q, FirstStart start file nPos q ∧
        ((file.Undecodable start sizes q ∧
            (loadLoop start sizes processBlock file (nFuel + 1) nPos s).1 = []) ∨
          ((∀ nSize blkdat, ¬file.Claimed start q nSize blkdat) ∧
            (loadLoop start sizes processBlock file (nFuel + 1) nPos s).1 =
              (loadLoop start sizes processBlock file nFuel (q + 4) s).1) ∨
          ∃ nSize blkdat block rest, file.Claimed start q nSize blkdat ∧
            CBlock.read sizes serDisk blkdat = some (block, rest) ∧
            (loadLoop start sizes processBlock file (nFuel + 1) nPos s).1 =
              ⟨q, block⟩ :: (loadLoop start sizes processBlock file nFuel
                (if (processBlock s block).1 then q + 8 + nSize else q + 4)
                (processBlock s block).2).1) := by
  have hfinds : Finds start file nPos (findStart start file (file.bytes.length + 1) nPos) :=
    finds_findStart (by omega)
  cases hfound : findStart start file (file.bytes.length + 1) nPos with
  | none =>
    refine .inl ⟨?_, hfinds.of_none hfound⟩
    rw [loadLoop, hfound]
  | some p =>
    obtain ⟨q, rfl, hfirst⟩ := hfinds.of_some p hfound
    cases hsize : readLe 4 (file.bytes.drop (q + 4)) with
    | none =>
      -- the file ends before the size, and later starts are nearer to its end
      refine .inl ⟨?_, fun q' hq' hstarts => ?_⟩
      · rw [loadLoop, hfound]
        simp only [hsize]
      · have hlt := readLe_eq_none hsize
        rw [List.length_drop] at hlt
        have hle := hfirst.first q' hq' hstarts
        omega
    | some r =>
      obtain ⟨nSize, blkdat⟩ := r
      refine .inr ⟨q, hfirst, ?_⟩
      by_cases hrange : 0 < nSize ∧ nSize ≤ maxBlockSize
      · have hclaimed : file.Claimed start q nSize blkdat :=
          ⟨hfirst.starts, hsize, hrange.1, hrange.2⟩
        cases hblock : CBlock.read sizes serDisk blkdat with
        | none =>
          refine .inl ⟨⟨nSize, blkdat, hclaimed, hblock⟩, ?_⟩
          rw [loadLoop, hfound]
          simp only [hsize, if_pos hrange, hblock]
        | some r =>
          obtain ⟨block, rest⟩ := r
          refine .inr (.inr ⟨nSize, blkdat, block, rest, hclaimed, hblock, ?_⟩)
          rw [loadLoop, hfound]
          simp only [hsize, if_pos hrange, hblock, Nat.add_sub_cancel,
            show q + 4 + (4 + nSize) = q + 8 + nSize by omega]
      · -- a size out of range is no record
        refine .inr (.inl ⟨fun nSize' blkdat' hclaimed => hrange ?_, ?_⟩)
        · have heq := hclaimed.size
          rw [hsize, Option.some.injEq, Prod.mk.injEq] at heq
          exact heq.1 ▸ ⟨hclaimed.pos, hclaimed.le⟩
        · rw [loadLoop, hfound]
          simp only [hsize, if_neg hrange]

/-- The loop goes forward. -/
theorem le_nPosNext (q nSize : ℕ) (fAccepted : Bool) :
    q + 4 ≤ if fAccepted then q + 8 + nSize else q + 4 := by
  split <;> omega

/-- Blocks are offered in the order of their records. -/
theorem sorted_loadLoop (nFuel nPos : ℕ) (s : S) :
    ((loadLoop start sizes processBlock file nFuel nPos s).1.Pairwise (·.nStart < ·.nStart)) ∧
      ∀ o ∈ (loadLoop start sizes processBlock file nFuel nPos s).1, nPos ≤ o.nStart := by
  induction nFuel generalizing nPos s with
  | zero => exact ⟨.nil, fun o ho => (by cases ho)⟩
  | succ nFuel ih =>
    obtain ⟨hnil, -⟩ | ⟨q, hfirst, ⟨-, hnil⟩ | ⟨-, heq⟩ | ⟨nSize, blkdat, block, rest, -, -, heq⟩⟩ :=
      loadLoop_cases start sizes processBlock file nFuel nPos s
    · rw [hnil]
      exact ⟨.nil, fun o ho => (by cases ho)⟩
    · rw [hnil]
      exact ⟨.nil, fun o ho => (by cases ho)⟩
    · rw [heq]
      have hle := hfirst.le
      exact ⟨(ih _ s).1, fun o ho => by have := (ih _ s).2 o ho; omega⟩
    · obtain ⟨hsorted, hge⟩ := ih (if (processBlock s block).1 then q + 8 + nSize else q + 4)
        (processBlock s block).2
      have hnext := le_nPosNext q nSize (processBlock s block).1
      have hle := hfirst.le
      have hafter : ∀ o ∈ (loadLoop start sizes processBlock file nFuel
          (if (processBlock s block).1 then q + 8 + nSize else q + 4) (processBlock s block).2).1,
          q < o.nStart := fun o ho => by have := hge o ho; omega
      rw [heq]
      refine ⟨List.pairwise_cons.mpr ⟨hafter, hsorted⟩, fun o ho => ?_⟩
      obtain rfl | ho := List.mem_cons.mp ho
      · exact hle
      · exact hle.trans (hafter o ho).le

/-- A record that no other one contains is reached, unless a record without a block comes before
it. -/
theorem mem_loadLoop {nFuel nPos q : ℕ} {block : CBlock} (hfuel : file.bytes.length < nFuel + nPos)
    (hle : nPos ≤ q) (hframed : file.WellFramed start sizes q block) (houter : ¬file.Inside start q)
    (hdecodable : ∀ q' < q, ¬file.Undecodable start sizes q') (s : S) :
    ⟨q, block⟩ ∈ (loadLoop start sizes processBlock file nFuel nPos s).1 := by
  obtain ⟨nSize, blkdat, rest, hclaimed, hblock, hlen⟩ := id hframed
  have hbytes : q + 8 < file.bytes.length := by
    have hpos := hclaimed.pos
    have hread := readLe_eq_some hclaimed.size
    rw [List.length_drop] at hread
    omega
  induction nFuel generalizing nPos s with
  | zero => omega
  | succ nFuel ih =>
    obtain ⟨-, hend⟩ | ⟨q', hfirst, hround⟩ :=
      loadLoop_cases start sizes processBlock file nFuel nPos s
    · have := hend q hle hclaimed.starts
      omega
    have hle' := hfirst.first q hle hclaimed.starts
    have hnPos := hfirst.le
    obtain rfl | hlt := hle'.eq_or_lt
    · -- this round reads the record
      obtain ⟨⟨nSize', blkdat', hclaimed', hnone⟩, -⟩ | ⟨hno, -⟩ |
        ⟨nSize', blkdat', block', rest', hclaimed', hblock', heq⟩ := hround
      · have hsize := hclaimed.size.symm.trans hclaimed'.size
        simp only [Option.some.injEq, Prod.mk.injEq] at hsize
        rw [hsize.2, hnone] at hblock
        cases hblock
      · exact absurd hclaimed (hno _ _)
      · have hsize := hclaimed.size.symm.trans hclaimed'.size
        simp only [Option.some.injEq, Prod.mk.injEq] at hsize
        rw [hsize.2, hblock', Option.some.injEq, Prod.mk.injEq] at hblock
        rw [heq, hblock.1]
        exact List.mem_cons_self
    · -- this round reads another one, and goes on before the record
      have happart := hfirst.starts.apart hclaimed.starts hlt
      obtain ⟨hundecodable, -⟩ | ⟨-, heq⟩ |
        ⟨nSize', blkdat', block', rest', hclaimed', -, heq⟩ := hround
      · exact absurd hundecodable (hdecodable q' hlt)
      · rw [heq]
        exact ih (by omega) happart s
      · have hnext := le_nPosNext q' nSize' (processBlock s block').1
        have hbefore : (if (processBlock s block').1 then q' + 8 + nSize' else q' + 4) ≤ q := by
          split
          · exact not_lt.mp fun hinside => houter ⟨q', nSize', blkdat', hclaimed', hlt, hinside⟩
          · exact happart
        rw [heq]
        exact List.mem_cons_of_mem _ (ih (by omega) hbefore _)

/-- Nothing behind a record without a block is offered when this record is reached: it is inside no
other one, or no block is accepted. -/
theorem lt_of_mem_loadLoop {nFuel nPos q : ℕ} (hle : nPos ≤ q)
    (hundecodable : file.Undecodable start sizes q)
    (hreached : (∀ s block, (processBlock s block).1 = false) ∨ ¬file.Inside start q) {o : Offer} {s : S}
    (ho : o ∈ (loadLoop start sizes processBlock file nFuel nPos s).1) : o.nStart < q := by
  obtain ⟨nSize, blkdat, hclaimed, hnone⟩ := id hundecodable
  induction nFuel generalizing nPos s with
  | zero => cases ho
  | succ nFuel ih =>
    obtain ⟨hnil, -⟩ | ⟨q', hfirst, hround⟩ :=
      loadLoop_cases start sizes processBlock file nFuel nPos s
    · rw [hnil] at ho
      cases ho
    have hle' := hfirst.first q hle hclaimed.starts
    obtain ⟨-, hnil⟩ | ⟨hno, heq⟩ | ⟨nSize', blkdat', block, rest, hclaimed', hblock, heq⟩ := hround
    · rw [hnil] at ho
      cases ho
    · have hlt : q' < q := hle'.lt_of_ne fun h => hno _ _ (h ▸ hclaimed)
      rw [heq] at ho
      exact ih (hfirst.starts.apart hclaimed.starts hlt) ho
    · have hlt : q' < q := by
        refine hle'.lt_of_ne fun h => ?_
        have hsize := hclaimed.size.symm.trans (h ▸ hclaimed'.size)
        simp only [Option.some.injEq, Prod.mk.injEq] at hsize
        rw [← hsize.2, hnone] at hblock
        cases hblock
      have hbefore : (if (processBlock s block).1 then q' + 8 + nSize' else q' + 4) ≤ q := by
        split
        next haccepted =>
          obtain hrefused | houter := hreached
          · rw [hrefused] at haccepted
            cases haccepted
          · exact not_lt.mp fun hinside => houter ⟨q', nSize', blkdat', hclaimed', hlt, hinside⟩
        next => exact hfirst.starts.apart hclaimed.starts hlt
      rw [heq] at ho
      obtain rfl | ho := List.mem_cons.mp ho
      · exact hlt
      · exact ih hbefore ho

theorem loadExternalBlockFile_fst (s : S) :
    (loadExternalBlockFile start sizes processBlock file s).1 =
      (loadLoop start sizes processBlock file (file.bytes.length + 1) 0 s).1 := rfl

/-- All blocks in records that no other one contains are offered, in the order of the file. -/
structure Imports (start : MessageStart) (sizes : ElementSizes) (file : ExternalFile)
    (vOffers : List Offer) : Prop where
  order : vOffers.Pairwise (·.nStart < ·.nStart)
  offered : ∀ q block, file.WellFramed start sizes q block → ¬file.Inside start q →
    ⟨q, block⟩ ∈ vOffers

theorem mainStart_first (j : Fin 4) :
    (#v[0xfc, 0xd9, 0xb7, 0xdd] : Vector UInt8 4)[j] = (#v[0xfc, 0xd9, 0xb7, 0xdd] : Vector UInt8 4)[0] →
      j = 0 := by
  revert j
  decide

theorem mainStart_size : (#[0xfc, 0xd9, 0xb7, 0xdd] : Array UInt8).size = 4 := rfl

/-- The message start of the main network. -/
def mainStart : MessageStart := ⟨⟨#[0xfc, 0xd9, 0xb7, 0xdd], mainStart_size⟩, mainStart_first⟩

/-- A record with the bytes of a header of zeros and the given bytes behind it. -/
def zeroRecord (bytes : List UInt8) : List UInt8 :=
  mainStart.pchMessageStart.toList ++ leBytes 4 (80 + bytes.length) ++ List.replicate 80 0 ++ bytes

/-- A record with a wrong count of transactions, and one with a block without transactions. -/
def brokenFile : ExternalFile := ⟨zeroRecord [0xff] ++ zeroRecord [0], by decide +kernel⟩

def exampleSizes : ElementSizes := ⟨⟨72, by decide⟩, ⟨32, by decide⟩, ⟨72, by decide⟩⟩

end ExternalFile

end FoxCoin
