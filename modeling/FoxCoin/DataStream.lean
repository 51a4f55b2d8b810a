import FoxCoin.NetFraming
import FoxCoin.Lib.Queue
import FoxCoin.Lib.Runs

/-! # Streams as queues of bytes

`CDataStream` keeps bytes in a buffer, and the ones before its read position are gone. The position
is an `unsigned int`, while the buffer may be longer than it can tell. The operations are those of a
queue exactly as long as their sums fit into the position. -/

namespace FoxCoin

open Runs

/-- `CDataStream` with a read position of 32 bits. -/
structure DataStream where
  vch : List UInt8
  nReadPos : UInt32
  state : UInt16
  exceptmask : UInt16

namespace DataStream

/-! ## The operations -/

/-- `std::ios::badbit`. -/
def badbit : UInt16 := 1

/-- `std::ios::failbit`. -/
def failbit : UInt16 := 4

/-- A stream that is made from bytes, after `Init`. -/
def init (vch : List UInt8) : DataStream := ⟨vch, 0, 0, badbit ||| failbit⟩

/-- The bytes from `begin` to `end`. -/
def content (s : DataStream) : List UInt8 := s.vch.drop s.nReadPos.toNat

/-- `size`. -/
def size (s : DataStream) : ℕ := s.vch.length - s.nReadPos.toNat

/-- The buffer is cleared when all of it has been read. -/
def drained (s : DataStream) : DataStream := { s with vch := [], nReadPos := 0 }

/-- `setstate`: whether it throws, and the stream after it. -/
def setstate (s : DataStream) (bits : UInt16) : Bool × DataStream :=
  let state := s.state ||| bits
  (state &&& s.exceptmask != 0, { s with state := state })

/-- `memcpy` from the buffer, which may go beyond its memory. -/
def copyFrom (vch : List UInt8) (pos n : ℕ) : Option (List UInt8) :=
  if pos + n ≤ vch.length then some ((vch.drop pos).take n) else none

/-- `memcpy` to the buffer, which may go beyond its memory. -/
def copyTo (vch : List UInt8) (pos : ℕ) (l : List UInt8) : Option (List UInt8) :=
  if pos + l.length ≤ vch.length then some (vch.take pos ++ l ++ vch.drop (pos + l.length))
  else none

/-- `insert` of a vector. -/
def vectorInsert (vch : List UInt8) (it : ℕ) (l : List UInt8) : List UInt8 :=
  vch.take it ++ l ++ vch.drop it

/-- `read`. -/
def read (s : DataStream) (nSize : ℕ) : Queue.Result UInt8 × DataStream :=
  let nReadPosNext := s.nReadPos + UInt32.ofNat nSize
  if nReadPosNext.toNat ≥ s.vch.length then
    if nReadPosNext.toNat > s.vch.length then
      match s.setstate failbit with
      | (true, s) => (.thrown, s)
      | (false, s) => (.elements (s.content ++ List.replicate (nSize - s.size) 0), s.drained)
    else
      match copyFrom s.vch s.nReadPos.toNat nSize with
      | none => (.undefined, s)
      | some bytes => (.elements bytes, s.drained)
  else
    match copyFrom s.vch s.nReadPos.toNat nSize with
    | none => (.undefined, s)
    | some bytes => (.elements bytes, { s with nReadPos := nReadPosNext })

/-- `ignore`. -/
def ignore (s : DataStream) (nSize : ℕ) : Queue.Result UInt8 × DataStream :=
  let nReadPosNext := s.nReadPos + UInt32.ofNat nSize
  if nReadPosNext.toNat ≥ s.vch.length then
    if nReadPosNext.toNat > s.vch.length then
      match s.setstate failbit with
      | (true, s) => (.thrown, s)
      | (false, s) => (.done, s.drained)
    else (.done, s.drained)
  else (.done, { s with nReadPos := nReadPosNext })

/-- `write`. -/
def write (s : DataStream) (pch : List UInt8) : DataStream :=
  { s with vch := vectorInsert s.vch s.vch.length pch }

/-- `insert` of a byte: the iterator that it returns, and the stream after it. -/
def insertOne (s : DataStream) (it : ℕ) (x : UInt8) : ℕ × DataStream :=
  (it, { s with vch := vectorInsert s.vch it [x] })

/-- `insert` of a byte several times. -/
def insertFill (s : DataStream) (it n : ℕ) (x : UInt8) : DataStream :=
  { s with vch := vectorInsert s.vch it (List.replicate n x) }

/-- The overloads of `insert` of a range. -/
def insertRange (s : DataStream) (it : ℕ) (l : List UInt8) : Queue.Result UInt8 × DataStream :=
  if it = s.nReadPos.toNat ∧ UInt32.ofNat l.length ≤ s.nReadPos then
    -- there is room before the read position
    let nReadPos := s.nReadPos - UInt32.ofNat l.length
    match copyTo s.vch nReadPos.toNat l with
    | none => (.undefined, s)
    | some vch => (.done, { s with vch := vch, nReadPos := nReadPos })
  else (.done, { s with vch := vectorInsert s.vch it l })

/-- `erase` of a byte: the iterator that it returns, and the stream after it. -/
def erase (s : DataStream) (it : ℕ) : ℕ × DataStream :=
  if it = s.nReadPos.toNat then
    let nReadPos := s.nReadPos + 1
    if nReadPos.toNat ≥ s.vch.length then (0, s.drained)
    else (nReadPos.toNat, { s with nReadPos := nReadPos })
  else (it, { s with vch := s.vch.eraseIdx it })

/-- `erase` of a range: the iterator that it returns, and the stream after it. -/
def eraseRange (s : DataStream) (first last : ℕ) : ℕ × DataStream :=
  if first = s.nReadPos.toNat then
    if last = s.vch.length then (0, s.drained)
    else (last, { s with nReadPos := UInt32.ofNat last })
  else (first, { s with vch := s.vch.take first ++ s.vch.drop last })

/-- `Compact`. -/
def compact (s : DataStream) : DataStream :=
  { s with vch := s.vch.drop s.nReadPos.toNat, nReadPos := 0 }

/-- `Rewind`. -/
def rewind (s : DataStream) (n : ℕ) : Bool × DataStream :=
  if n > s.nReadPos.toNat then (false, s)
  else (true, { s with nReadPos := s.nReadPos - UInt32.ofNat n })

/-- An iterator as the place that it has in the queue. -/
def placed (out : ℕ × DataStream) : Queue.Result UInt8 × DataStream :=
  (.place (out.1 - out.2.nReadPos.toNat), out.2)

/-- An operation that is called with iterators to places from `begin` on. -/
def step (s : DataStream) : Queue.Op UInt8 → Queue.Result UInt8 × DataStream
  | .write l => (.done, s.write l)
  | .read n => s.read n
  | .ignore n => s.ignore n
  | .insertOne p x => placed (s.insertOne (s.nReadPos.toNat + p) x)
  | .insertFill p n x => (.done, s.insertFill (s.nReadPos.toNat + p) n x)
  | .insertRange p l => s.insertRange (s.nReadPos.toNat + p) l
  | .erase p => placed (s.erase (s.nReadPos.toNat + p))
  | .eraseRange p q => placed (s.eraseRange (s.nReadPos.toNat + p) (s.nReadPos.toNat + q))
  | .compact => (.done, s.compact)
  | .rewind n => (.flag (s.rewind n).1, (s.rewind n).2)

/-! ## Runs -/

/-- What the callers keep to: sizes are of type `int` and not negative, and iterators are valid. -/
def Legal (s : DataStream) : Queue.Op UInt8 → Prop
  | .write l => l.length < 2 ^ 31
  | .read n => n < 2 ^ 31
  | .ignore n => n < 2 ^ 31
  | .insertOne p _ => p ≤ s.size
  | .insertFill p _ _ => p ≤ s.size
  | .insertRange p _ => p ≤ s.size
  | .erase p => p < s.size
  | .eraseRange p q => p ≤ q ∧ q ≤ s.size
  | .compact => True
  | .rewind _ => True

/-- The runs of a stream that is made from any bytes. -/
def streams : System DataStream (Queue.Op UInt8) where
  start s := ∃ vch, s = init vch
  legal := Legal
  next s op := (s.step op).2

/-- An operation does to the content what it does to a queue. -/
def RefinesAt (s : DataStream) (op : Queue.Op UInt8) : Prop :=
  Queue.Step op s.content (s.step op).1 (s.step op).2.content

/-- The positions that an operation computes fit: where a read ends, the length of what is put into
the room in front, and where the bytes end that are erased from the front. -/
def FitsAt (s : DataStream) : Queue.Op UInt8 → Prop
  | .read n => s.nReadPos.toNat + n < 2 ^ 32
  | .ignore n => s.nReadPos.toNat + n < 2 ^ 32
  | .insertRange p l => p = 0 → UInt32.ofNat l.length ≤ s.nReadPos → l.length < 2 ^ 32
  | .erase p => p = 0 → s.nReadPos.toNat + 1 < 2 ^ 32
  | .eraseRange p q =>
    p = 0 → s.nReadPos.toNat + q ≠ s.vch.length → s.nReadPos.toNat + q < 2 ^ 32
  | _ => True

/-- The read position is in the buffer, and failures throw. -/
structure Sound (s : DataStream) : Prop where
  nReadPos_le : s.nReadPos.toNat ≤ s.vch.length
  exceptmask_eq : s.exceptmask = badbit ||| failbit

variable {s : DataStream} {n p q : ℕ} {l : List UInt8}

theorem sound_init (vch : List UInt8) : (init vch).Sound := ⟨Nat.zero_le _, rfl⟩

theorem length_content (s : DataStream) : s.content.length = s.size := List.length_drop

/-- A failure throws. -/
theorem setstate_failbit (h : s.Sound) :
    s.setstate failbit = (true, { s with state := s.state ||| failbit }) := by
  have hbit : (s.state ||| failbit) &&& (badbit ||| failbit) ≠ 0 := by
    intro hzero
    have htest : ((s.state ||| failbit) &&& (badbit ||| failbit)).toNat.testBit 2 = true := by
      rw [UInt16.toNat_and, UInt16.toNat_or, Nat.testBit_and, Nat.testBit_or,
        show failbit.toNat.testBit 2 = true from rfl, Bool.or_true]
      rfl
    rw [hzero] at htest
    cases htest
  rw [setstate, h.exceptmask_eq]
  simp only [bne_iff_ne.mpr hbit]

/-! ## Sums of positions -/

/-- Where a read ends, when the position has room for it. -/
theorem toNat_next (hfits : s.nReadPos.toNat + n < 2 ^ 32) :
    (s.nReadPos + UInt32.ofNat n).toNat = s.nReadPos.toNat + n := by
  rw [UInt32.toNat_add, UInt32.toNat_ofNat', Nat.add_mod_mod, Nat.mod_eq_of_lt hfits]

/-- A sum that does not fit is less than the read position. -/
theorem toNat_next_lt (hn : n < 2 ^ 31) (hover : ¬s.nReadPos.toNat + n < 2 ^ 32) :
    (s.nReadPos + UInt32.ofNat n).toNat < s.nReadPos.toNat := by
  have hlt := s.nReadPos.toNat_lt
  rw [UInt32.toNat_add, UInt32.toNat_ofNat', Nat.add_mod_mod]
  omega

/-- The position before bytes that are gone. -/
theorem toNat_before (hroom : n ≤ s.nReadPos.toNat) :
    (s.nReadPos - UInt32.ofNat n).toNat = s.nReadPos.toNat - n := by
  have hlt := s.nReadPos.toNat_lt
  have hn : (UInt32.ofNat n).toNat = n := by
    rw [UInt32.toNat_ofNat']
    exact Nat.mod_eq_of_lt (by omega)
  rw [UInt32.toNat_sub_of_le _ _ (UInt32.le_iff_toNat_le.mpr (by rwa [hn])), hn]

/-- A read that ends beyond the buffer has a sum that fits. -/
theorem fits_of_length_lt (h : s.Sound) (hn : n < 2 ^ 31)
    (hgt : s.vch.length < (s.nReadPos + UInt32.ofNat n).toNat) : s.nReadPos.toNat + n < 2 ^ 32 := by
  by_contra hover
  exact absurd hgt ((toNat_next_lt hn hover).le.trans h.nReadPos_le).not_gt

theorem length_drop_content (s : DataStream) (n : ℕ) :
    (s.content.drop n).length = s.vch.length - s.nReadPos.toNat - n := by
  rw [List.length_drop, length_content, size]

/-! ## Reading -/

theorem ignore_of_gt (h : s.Sound) (hfits : s.nReadPos.toNat + n < 2 ^ 32)
    (hgt : s.vch.length < s.nReadPos.toNat + n) :
    s.ignore n = (.thrown, { s with state := s.state ||| failbit }) := by
  rw [ignore, toNat_next hfits]
  simp only [ge_iff_le, hgt.le, gt_iff_lt, hgt, if_true, setstate_failbit h]

theorem ignore_of_le (hle : (s.nReadPos + UInt32.ofNat n).toNat ≤ s.vch.length) :
    s.ignore n = (.done, if (s.nReadPos + UInt32.ofNat n).toNat = s.vch.length then s.drained
      else { s with nReadPos := s.nReadPos + UInt32.ofNat n }) := by
  rw [ignore]
  simp only [ge_iff_le, gt_iff_lt, hle.not_gt, if_false]
  by_cases heq : (s.nReadPos + UInt32.ofNat n).toNat = s.vch.length
  · rw [if_pos heq.ge, if_pos heq]
  · rw [if_neg (fun hge => heq (hle.antisymm hge)), if_neg heq]

theorem read_of_gt (h : s.Sound) (hfits : s.nReadPos.toNat + n < 2 ^ 32)
    (hgt : s.vch.length < s.nReadPos.toNat + n) :
    s.read n = (.thrown, { s with state := s.state ||| failbit }) := by
  rw [read, toNat_next hfits]
  simp only [ge_iff_le, hgt.le, gt_iff_lt, hgt, if_true, setstate_failbit h]

/-- A read that stays in the buffer leaves what `ignore` leaves. -/
theorem read_of_le (hle : (s.nReadPos + UInt32.ofNat n).toNat ≤ s.vch.length) :
    s.read n = match copyFrom s.vch s.nReadPos.toNat n with
      | none => (.undefined, s)
      | some bytes => (.elements bytes, (s.ignore n).2) := by
  rw [ignore_of_le hle, read]
  simp only [ge_iff_le, gt_iff_lt, hle.not_gt, if_false]
  by_cases heq : (s.nReadPos + UInt32.ofNat n).toNat = s.vch.length
  · rw [if_pos heq.ge, if_pos heq]
  · rw [if_neg (fun hge => heq (hle.antisymm hge)), if_neg heq]

/-- What is left when a read ends where it should. -/
theorem content_ignore (hfits : s.nReadPos.toNat + n < 2 ^ 32)
    (hle : s.nReadPos.toNat + n ≤ s.vch.length) :
    (s.ignore n).2.content = s.content.drop n := by
  rw [ignore_of_le (by rwa [toNat_next hfits]), toNat_next hfits, content, content, List.drop_drop]
  split_ifs with heq
  · rw [heq, List.drop_length]
    rfl
  · show s.vch.drop (s.nReadPos + UInt32.ofNat n).toNat = _
    rw [toNat_next hfits]

/-- More is left than before when the sum of a read does not fit. -/
theorem length_content_ignore (h : s.Sound) (hn : n < 2 ^ 31)
    (hover : ¬s.nReadPos.toNat + n < 2 ^ 32) : s.content.length < (s.ignore n).2.content.length := by
  have hlt := toNat_next_lt hn hover
  have hle := h.nReadPos_le
  rw [ignore_of_le (hlt.le.trans hle), if_neg (by omega), length_content, length_content, size, size]
  show _ < s.vch.length - (s.nReadPos + UInt32.ofNat n).toNat
  omega

/-- **Ignoring** is what it is for a queue when the sum fits, and only then. -/
theorem refinesAt_ignore (h : s.Sound) (hn : n < 2 ^ 31) :
    s.RefinesAt (.ignore n) ↔ s.FitsAt (.ignore n) := by
  have hpos := h.nReadPos_le
  simp only [RefinesAt, Queue.Step, step, FitsAt, length_content, size]
  constructor
  · intro hstep
    by_contra hover
    -- neither a queue that is shorter nor an unchanged one has more bytes
    have hmore := length_content_ignore h hn hover
    split_ifs at hstep with hroom
    · rw [hstep.2, length_drop_content, length_content, size] at hmore
      omega
    · rw [hstep.2] at hmore
      exact lt_irrefl _ hmore
  · intro hfits
    split_ifs with hroom
    · have hle : s.nReadPos.toNat + n ≤ s.vch.length := by omega
      exact ⟨by rw [ignore_of_le (by rwa [toNat_next hfits])], content_ignore hfits hle⟩
    · rw [ignore_of_gt h hfits (by omega)]
      exact ⟨rfl, rfl⟩

theorem refinesAt_read (h : s.Sound) (hn : n < 2 ^ 31) :
    s.RefinesAt (.read n) ↔ s.FitsAt (.read n) := by
  have hpos := h.nReadPos_le
  simp only [RefinesAt, Queue.Step, step, FitsAt, length_content, size]
  constructor
  · intro hstep
    by_contra hover
    have hmore := length_content_ignore h hn hover
    rw [read_of_le ((toNat_next_lt hn hover).le.trans hpos)] at hstep
    -- a copy that goes beyond the memory is no result, and another one leaves too much
    cases hcopy : copyFrom s.vch s.nReadPos.toNat n with
    | none =>
      rw [hcopy] at hstep
      split_ifs at hstep with hroom
      · cases hstep.1
      · cases hstep.1
    | some bytes =>
      rw [hcopy] at hstep
      split_ifs at hstep with hroom
      · rw [hstep.2, length_drop_content, length_content, size] at hmore
        omega
      · cases hstep.1
  · intro hfits
    split_ifs with hroom
    · have hle : s.nReadPos.toNat + n ≤ s.vch.length := by omega
      rw [read_of_le (by rwa [toNat_next hfits]), copyFrom, if_pos hle]
      exact ⟨rfl, content_ignore hfits hle⟩
    · rw [read_of_gt h hfits (by omega)]
      exact ⟨rfl, rfl⟩

/-! ## Inserting -/

/-- A vector that bytes are inserted into from the read position on. -/
theorem drop_vectorInsert (h : s.Sound) (p : ℕ) (l : List UInt8) :
    (vectorInsert s.vch (s.nReadPos.toNat + p) l).drop s.nReadPos.toNat =
      s.content.take p ++ l ++ s.content.drop p := by
  rw [vectorInsert, List.append_assoc, Queue.drop_take_append h.nReadPos_le, ← List.drop_drop,
    ← content, List.append_assoc]

theorem refinesAt_write (h : s.Sound) (l : List UInt8) : s.RefinesAt (.write l) := by
  refine ⟨rfl, ?_⟩
  show (vectorInsert s.vch s.vch.length l).drop s.nReadPos.toNat = _
  rw [vectorInsert, List.take_length, List.drop_length, List.append_nil,
    List.drop_append_of_le_length h.nReadPos_le]
  rfl

theorem refinesAt_insertOne (h : s.Sound) (p : ℕ) (x : UInt8) :
    s.RefinesAt (.insertOne p x) := by
  refine ⟨?_, ?_⟩
  · exact congrArg Queue.Result.place (Nat.add_sub_cancel_left _ p)
  · have hcontent := drop_vectorInsert h p [x]
    rwa [List.append_assoc] at hcontent

theorem refinesAt_insertFill (h : s.Sound) (p n : ℕ) (x : UInt8) :
    s.RefinesAt (.insertFill p n x) := ⟨rfl, drop_vectorInsert h p (List.replicate n x)⟩

/-- **Inserting in front** is what it is for a queue when the length that is compared with the room
is the length of the range, and only then. -/
theorem refinesAt_insertRange (h : s.Sound) (p : ℕ) (l : List UInt8) :
    s.RefinesAt (.insertRange p l) ↔ s.FitsAt (.insertRange p l) := by
  have hpos := h.nReadPos_le
  simp only [RefinesAt, Queue.Step, step, FitsAt, insertRange, Nat.add_eq_left]
  by_cases hroom : p = 0 ∧ UInt32.ofNat l.length ≤ s.nReadPos
  · obtain ⟨rfl, hle⟩ := hroom
    have hle' := UInt32.le_iff_toNat_le.mp hle
    rw [UInt32.toNat_ofNat'] at hle'
    rw [if_pos ⟨rfl, hle⟩, copyTo]
    by_cases hfits : l.length < 2 ^ 32
    · refine iff_of_true ?_ fun _ _ => hfits
      -- the bytes go where bytes were that have been read
      rw [Nat.mod_eq_of_lt hfits] at hle'
      have hbefore := toNat_before hle'
      rw [hbefore, Nat.sub_add_cancel hle', if_pos hpos]
      refine ⟨rfl, ?_⟩
      show List.drop (s.nReadPos - UInt32.ofNat l.length).toNat _ = _
      rw [hbefore, Queue.drop_overwrite hle' hpos]
      rfl
    · refine iff_of_false ?_ fun hlen => hfits (hlen rfl hle)
      -- the bytes are written over the ones that they should be put in front of
      have hbefore : (s.nReadPos - UInt32.ofNat l.length).toNat =
          s.nReadPos.toNat - l.length % 2 ^ 32 := by
        rw [UInt32.toNat_sub_of_le _ _ hle, UInt32.toNat_ofNat']
      rw [hbefore]
      split_ifs with hmemory
      · rintro ⟨-, hcontent⟩
        have hlen := congrArg List.length hcontent
        rw [length_content, size] at hlen
        simp only [hbefore, List.length_append, List.length_take, List.length_drop, length_content,
          size] at hlen
        omega
      · rintro ⟨hresult, -⟩
        cases hresult
  · rw [if_neg hroom]
    refine iff_of_true ⟨rfl, drop_vectorInsert h p l⟩ fun hp hle => absurd ⟨hp, hle⟩ hroom

/-! ## Erasing -/

/-- **Erasing a byte** is what it is for a queue when the next position fits, and only then. -/
theorem refinesAt_erase (h : s.Sound) (hp : p < s.size) :
    s.RefinesAt (.erase p) ↔ s.FitsAt (.erase p) := by
  have hlt := s.nReadPos.toNat_lt
  rw [size] at hp
  simp only [RefinesAt, Queue.Step, step, FitsAt, placed, erase, Nat.add_eq_left]
  by_cases hfront : p = 0
  · subst hfront
    rw [if_pos rfl]
    by_cases hfits : s.nReadPos.toNat + 1 < 2 ^ 32
    · refine iff_of_true ?_ fun _ => hfits
      have hnext : (s.nReadPos + 1).toNat = s.nReadPos.toNat + 1 := toNat_next hfits
      rw [hnext]
      split_ifs with hend
      · refine ⟨rfl, ?_⟩
        rw [List.drop_eq_nil_of_le (by rw [length_content, size]; omega)]
        rfl
      · refine ⟨?_, ?_⟩
        · show Queue.Result.place (s.nReadPos.toNat + 1 - (s.nReadPos + 1).toNat) = _
          rw [hnext, Nat.sub_self]
        · show s.vch.drop (s.nReadPos + 1).toNat = _
          rw [hnext, List.take_zero, List.nil_append, content, List.drop_drop]
    · refine iff_of_false ?_ fun hlen => hfits (hlen rfl)
      -- the position starts again at zero, and all bytes are back
      have hnext : (s.nReadPos + 1).toNat = 0 := by
        rw [UInt32.toNat_add, UInt32.toNat_one]
        omega
      rw [hnext, if_neg (by omega)]
      rintro ⟨-, hcontent⟩
      have hlen := congrArg List.length hcontent
      rw [List.take_zero, List.nil_append, length_drop_content, length_content, size] at hlen
      simp only [hnext] at hlen
      omega
  · rw [if_neg hfront]
    refine iff_of_true ⟨?_, ?_⟩ fun hp => absurd hp hfront
    · exact congrArg Queue.Result.place (Nat.add_sub_cancel_left _ p)
    · show (s.vch.eraseIdx (s.nReadPos.toNat + p)).drop s.nReadPos.toNat = _
      rw [List.eraseIdx_eq_take_drop_succ, Queue.drop_take_append h.nReadPos_le, Nat.add_assoc,
        ← List.drop_drop]
      rfl

/-- **Erasing a range** is what it is for a queue when the position that it ends at fits, and only
then. -/
theorem refinesAt_eraseRange (h : s.Sound) (hq : q ≤ s.size) :
    s.RefinesAt (.eraseRange p q) ↔ s.FitsAt (.eraseRange p q) := by
  have hpos := h.nReadPos_le
  rw [size] at hq
  simp only [RefinesAt, Queue.Step, step, FitsAt, placed, eraseRange, Nat.add_eq_left]
  by_cases hfront : p = 0
  · subst hfront
    rw [if_pos rfl]
    split_ifs with hend
    · refine iff_of_true ⟨rfl, ?_⟩ fun _ hne => absurd hend hne
      rw [List.drop_eq_nil_of_le (by rw [length_content, size]; omega)]
      rfl
    · have hlast := UInt32.toNat_ofNat' (n := s.nReadPos.toNat + q)
      by_cases hfits : s.nReadPos.toNat + q < 2 ^ 32
      · refine iff_of_true ?_ fun _ _ => hfits
        rw [Nat.mod_eq_of_lt hfits] at hlast
        refine ⟨?_, ?_⟩
        · show Queue.Result.place (s.nReadPos.toNat + q - (UInt32.ofNat _).toNat) = _
          rw [hlast, Nat.sub_self]
        · show s.vch.drop (UInt32.ofNat _).toNat = _
          rw [hlast, List.take_zero, List.nil_append, content, List.drop_drop]
      · refine iff_of_false ?_ fun hlen => hfits (hlen rfl hend)
        -- the position has lost its high bits, and more bytes are left
        rintro ⟨-, hcontent⟩
        have hlen := congrArg List.length hcontent
        rw [List.take_zero, List.nil_append, length_drop_content, length_content, size] at hlen
        simp only [hlast] at hlen
        omega
  · rw [if_neg hfront]
    refine iff_of_true ⟨?_, ?_⟩ fun hp => absurd hp hfront
    · exact congrArg Queue.Result.place (Nat.add_sub_cancel_left _ p)
    · show (s.vch.take (s.nReadPos.toNat + p) ++ s.vch.drop (s.nReadPos.toNat + q)).drop
        s.nReadPos.toNat = _
      rw [Queue.drop_take_append h.nReadPos_le, ← List.drop_drop]
      rfl

/-! ## Compacting and rewinding -/

theorem refinesAt_compact (s : DataStream) : s.RefinesAt .compact := ⟨rfl, rfl⟩

/-- Rewinding fails, or puts back bytes that are still there. -/
theorem refinesAt_rewind (h : s.Sound) (n : ℕ) : s.RefinesAt (.rewind n) := by
  show (_ ∧ _) ∨ _
  simp only [step, rewind]
  split_ifs with hgt
  · exact Or.inl ⟨rfl, rfl⟩
  · refine Or.inr ⟨rfl, ?_⟩
    obtain ⟨l, hlen, hdrop⟩ := Queue.exists_drop_sub (not_lt.mp hgt) h.nReadPos_le
    refine ⟨l, hlen, ?_⟩
    show s.vch.drop (s.nReadPos - UInt32.ofNat n).toNat = _
    rw [toNat_before (not_lt.mp hgt), hdrop]
    rfl

/-! ## Every run -/

/-- **An operation** does what it does to a queue exactly when the positions that it computes fit. -/
theorem refinesAt_iff_fitsAt (h : s.Sound) {op : Queue.Op UInt8} (hlegal : s.Legal op) :
    s.RefinesAt op ↔ s.FitsAt op := by
  cases op with
  | write l => exact iff_of_true (refinesAt_write h l) trivial
  | read n => exact refinesAt_read h hlegal
  | ignore n => exact refinesAt_ignore h hlegal
  | insertOne p x => exact iff_of_true (refinesAt_insertOne h p x) trivial
  | insertFill p n x => exact iff_of_true (refinesAt_insertFill h p n x) trivial
  | insertRange p l => exact refinesAt_insertRange h p l
  | erase p => exact refinesAt_erase h hlegal
  | eraseRange p q => exact refinesAt_eraseRange h hlegal.2
  | compact => exact iff_of_true s.refinesAt_compact trivial
  | rewind n => exact iff_of_true (refinesAt_rewind h n) trivial

theorem Sound.drained (h : s.Sound) : s.drained.Sound := ⟨Nat.zero_le _, h.exceptmask_eq⟩

theorem Sound.vectorInsert (h : s.Sound) (it : ℕ) (l : List UInt8) :
    Sound { s with vch := vectorInsert s.vch it l } := by
  refine ⟨?_, h.exceptmask_eq⟩
  have hpos := h.nReadPos_le
  simp only [DataStream.vectorInsert, List.length_append, List.length_take, List.length_drop]
  omega

theorem Sound.ignore (h : s.Sound) (hn : n < 2 ^ 31) : (s.ignore n).2.Sound := by
  rcases Nat.lt_or_ge s.vch.length (s.nReadPos + UInt32.ofNat n).toNat with hgt | hle
  · have hfits := fits_of_length_lt h hn hgt
    rw [ignore_of_gt h hfits (by rwa [toNat_next hfits] at hgt)]
    exact ⟨h.nReadPos_le, h.exceptmask_eq⟩
  · rw [ignore_of_le hle]
    split_ifs
    · exact h.drained
    · exact ⟨hle, h.exceptmask_eq⟩

theorem Sound.read (h : s.Sound) (hn : n < 2 ^ 31) : (s.read n).2.Sound := by
  rcases Nat.lt_or_ge s.vch.length (s.nReadPos + UInt32.ofNat n).toNat with hgt | hle
  · have hfits := fits_of_length_lt h hn hgt
    rw [read_of_gt h hfits (by rwa [toNat_next hfits] at hgt)]
    exact ⟨h.nReadPos_le, h.exceptmask_eq⟩
  · rw [read_of_le hle]
    split
    · exact h
    · exact h.ignore hn

theorem Sound.insertRange (h : s.Sound) (it : ℕ) (l : List UInt8) :
    (s.insertRange it l).2.Sound := by
  simp only [DataStream.insertRange, copyTo]
  split_ifs with hroom hmemory
  · have hle := UInt32.le_iff_toNat_le.mp hroom.2
    have hbefore := UInt32.toNat_sub_of_le _ _ hroom.2
    have hpos := h.nReadPos_le
    refine ⟨?_, h.exceptmask_eq⟩
    simp only [List.length_append, List.length_take, List.length_drop]
    omega
  · exact h
  · exact h.vectorInsert it l

theorem Sound.erase (h : s.Sound) {it : ℕ} (hit : s.nReadPos.toNat ≤ it) :
    (s.erase it).2.Sound := by
  have hpos := h.nReadPos_le
  simp only [DataStream.erase]
  split_ifs with hfront hend
  · exact h.drained
  · exact ⟨(not_le.mp hend).le, h.exceptmask_eq⟩
  · refine ⟨?_, h.exceptmask_eq⟩
    show s.nReadPos.toNat ≤ (s.vch.eraseIdx it).length
    rw [List.length_eraseIdx]
    split_ifs with hlt <;> omega

theorem Sound.eraseRange (h : s.Sound) {first last : ℕ} (hfirst : s.nReadPos.toNat ≤ first)
    (hlast : last ≤ s.vch.length) : (s.eraseRange first last).2.Sound := by
  have hpos := h.nReadPos_le
  rw [DataStream.eraseRange]
  split_ifs with hfront hend
  · exact h.drained
  · refine ⟨?_, h.exceptmask_eq⟩
    show (UInt32.ofNat last).toNat ≤ _
    rw [UInt32.toNat_ofNat']
    exact (Nat.mod_le _ _).trans hlast
  · refine ⟨?_, h.exceptmask_eq⟩
    simp only [List.length_append, List.length_take, List.length_drop]
    omega

theorem Sound.rewind (h : s.Sound) (n : ℕ) : (s.rewind n).2.Sound := by
  rw [DataStream.rewind]
  split_ifs with hgt
  · exact h
  · refine ⟨?_, h.exceptmask_eq⟩
    show (s.nReadPos - UInt32.ofNat n).toNat ≤ _
    rw [toNat_before (not_lt.mp hgt)]
    exact (Nat.sub_le _ _).trans h.nReadPos_le

/-- The read position stays in the buffer. -/
theorem Sound.step (h : s.Sound) {op : Queue.Op UInt8} (hlegal : s.Legal op) :
    (s.step op).2.Sound := by
  cases op with
  | write l => exact h.vectorInsert s.vch.length l
  | read n => exact h.read hlegal
  | ignore n => exact h.ignore hlegal
  | insertOne p x => exact h.vectorInsert (s.nReadPos.toNat + p) [x]
  | insertFill p n x => exact h.vectorInsert (s.nReadPos.toNat + p) (List.replicate n x)
  | insertRange p l => exact h.insertRange (s.nReadPos.toNat + p) l
  | erase p => exact h.erase (Nat.le_add_right _ p)
  | eraseRange p q =>
    have hpos := h.nReadPos_le
    have hq : q ≤ s.vch.length - s.nReadPos.toNat := hlegal.2
    exact h.eraseRange (Nat.le_add_right _ p) (by omega)
  | compact => exact ⟨Nat.zero_le _, h.exceptmask_eq⟩
  | rewind n => exact h.rewind n

/-- The operations of a run with what they return. -/
def trace : DataStream → List (Queue.Op UInt8) → List (Queue.Op UInt8 × Queue.Result UInt8)
  | _, [] => []
  | s, op :: ops => (op, (s.step op).1) :: trace (s.step op).2 ops

/-- A run whose operations do what they do to a queue is one of the queue. -/
theorem run_of_allows_refinesAt {ops : List (Queue.Op UInt8)}
    (h : streams.Allows RefinesAt s ops) :
    Queue.Run s.content (s.trace ops) (streams.run s ops).content := by
  induction ops generalizing s with
  | nil => exact .nil _
  | cons op ops ih => exact .cons h.1.2 (ih h.2)

theorem allows_refinesAt_iff (h : s.Sound) (ops : List (Queue.Op UInt8)) :
    streams.Allows RefinesAt s ops ↔ streams.Allows FitsAt s ops :=
  System.allows_congr (fun _ _ hs hlegal _ => Sound.step hs hlegal)
    (fun _ _ hs hlegal => refinesAt_iff_fitsAt hs hlegal) h

/-- **A stream is a queue of bytes** exactly in the runs in which all positions fit: there each
operation changes the content as it changes a queue, and so does the whole run. -/
theorem stream_refinesQueue (vch : List UInt8) (ops : List (Queue.Op UInt8)) :
    (streams.Allows RefinesAt (init vch) ops ↔ streams.Allows FitsAt (init vch) ops) ∧
      (streams.Allows FitsAt (init vch) ops →
        Queue.Run vch (trace (init vch) ops) (streams.run (init vch) ops).content) := by
  have hiff := allows_refinesAt_iff (sound_init vch) ops
  exact ⟨hiff, fun hfits => run_of_allows_refinesAt (hiff.mpr hfits)⟩

/-- A read that ends where the position has no room for it leaves all bytes as if none had been
read. -/
theorem not_refinesAt_read_of_length {vch : List UInt8} (hlen : vch.length = 2 ^ 32) :
    streams.Allows (fun _ _ => True) (init vch) [.eraseRange 0 (2 ^ 32 - 2), .read 2] ∧
      ¬streams.Allows RefinesAt (init vch) [.eraseRange 0 (2 ^ 32 - 2), .read 2] := by
  have hsize : (init vch).size = 2 ^ 32 := hlen
  have hlegal : (init vch).Legal (.eraseRange 0 (2 ^ 32 - 2)) :=
    ⟨Nat.zero_le _, by rw [hsize]; decide⟩
  have hread : ((init vch).step (.eraseRange 0 (2 ^ 32 - 2))).2.Legal (.read 2) :=
    show 2 < 2 ^ 31 by decide
  refine ⟨⟨⟨hlegal, trivial⟩, ⟨hread, trivial⟩, trivial⟩, ?_⟩
  rintro ⟨-, ⟨-, hrefines⟩, -⟩
  have hfits := (refinesAt_iff_fitsAt ((sound_init vch).step hlegal) hread).mp hrefines
  have hpos : ((init vch).step (.eraseRange 0 (2 ^ 32 - 2))).2.nReadPos.toNat = 2 ^ 32 - 2 := by
    show ((init vch).eraseRange 0 (0 + (2 ^ 32 - 2))).2.nReadPos.toNat = _
    have hend : 0 + (2 ^ 32 - 2) ≠ (init vch).vch.length := by
      rw [init, hlen]
      decide
    rw [eraseRange, if_pos (show 0 = (init vch).nReadPos.toNat from rfl), if_neg hend]
    rfl
  rw [FitsAt, hpos] at hfits
  exact absurd hfits (by decide)

/-- A stream of `2 ^ 32` bytes, of which all but two are erased before the two are read. -/
theorem not_refinesQueue_wrapped :
    streams.Allows (fun _ _ => True) (init (List.replicate (2 ^ 32) 0))
        [.eraseRange 0 (2 ^ 32 - 2), .read 2] ∧
      ¬streams.Allows RefinesAt (init (List.replicate (2 ^ 32) 0))
        [.eraseRange 0 (2 ^ 32 - 2), .read 2] :=
  not_refinesAt_read_of_length List.length_replicate

/-! ## Streams with positions of any size -/

/-- In a buffer of less than `2 ^ 31` bytes all positions fit. -/
theorem fitsAt_of_length_lt (h : s.Sound) (hlen : s.vch.length < 2 ^ 31) {op : Queue.Op UInt8}
    (hlegal : s.Legal op) (hinsert : ∀ p l, op = .insertRange p l → l.length < 2 ^ 32) :
    s.FitsAt op := by
  have hpos := h.nReadPos_le
  cases op with
  | read n => exact Nat.add_lt_add (hpos.trans_lt hlen) hlegal
  | ignore n => exact Nat.add_lt_add (hpos.trans_lt hlen) hlegal
  | insertRange p l => exact fun _ _ => hinsert p l rfl
  | erase p => exact fun _ => Nat.add_lt_add (hpos.trans_lt hlen) (by decide)
  | eraseRange p q =>
    have hq : q ≤ s.vch.length - s.nReadPos.toNat := hlegal.2
    exact fun _ _ => by omega
  | write l => trivial
  | insertOne p x => trivial
  | insertFill p n x => trivial
  | compact => trivial
  | rewind n => trivial

/-- The stream with a position of any size, as the messages are parsed from. -/
def toStream (s : DataStream) : CDataStream := ⟨s.vch, s.nReadPos.toNat⟩

theorem toStream_write (s : DataStream) (l : List UInt8) :
    (s.write l).toStream = s.toStream.append l := by
  rw [write, vectorInsert, List.take_length, List.drop_length, List.append_nil]
  rfl

theorem toStream_compact (s : DataStream) : s.compact.toStream = s.toStream.compact := rfl

/-- **Ignoring** in a stream whose positions fit. -/
theorem toStream_ignore (h : s.Sound) (hfits : s.FitsAt (.ignore n)) :
    s.toStream.ignore n = match s.ignore n with
      | (.done, s') => some s'.toStream
      | _ => none := by
  have hnext := toNat_next hfits
  rw [toStream, CDataStream.ignore]
  dsimp only
  rcases Nat.lt_or_ge s.vch.length (s.nReadPos.toNat + n) with hgt | hle
  · rw [if_pos hgt.le, if_pos hgt, ignore_of_gt h hfits hgt]
  · rw [ignore_of_le (by rwa [hnext]), hnext]
    by_cases heq : s.nReadPos.toNat + n = s.vch.length
    · rw [if_pos heq.ge, if_neg hle.not_gt, if_pos heq]
      rfl
    · rw [if_neg (fun hge => heq (hle.antisymm hge)), if_neg heq]
      show _ = some (⟨s.vch, (s.nReadPos + UInt32.ofNat n).toNat⟩ : CDataStream)
      rw [hnext]

/-- **Erasing** bytes at the front. -/
theorem toStream_eraseRange (hfits : s.FitsAt (.eraseRange 0 n)) :
    (s.step (.eraseRange 0 n)).2.toStream = s.toStream.eraseFront n := by
  show (s.eraseRange s.nReadPos.toNat _).2.toStream = CDataStream.eraseFront ⟨_, _⟩ n
  rw [eraseRange, if_pos rfl, CDataStream.eraseFront]
  dsimp only
  by_cases hend : s.nReadPos.toNat + n = s.vch.length
  · rw [if_pos hend, if_pos hend]
    rfl
  · rw [if_neg hend, if_neg hend]
    dsimp only [toStream]
    rw [UInt32.toNat_ofNat', Nat.mod_eq_of_lt (hfits rfl hend)]

/-- **Inserting** bytes in front. -/
theorem toStream_insertRange (h : s.Sound) (hlen : l.length < 2 ^ 32) :
    (s.step (.insertRange 0 l)).2.toStream = s.toStream.insertFront l := by
  have hofNat : (UInt32.ofNat l.length).toNat = l.length := by
    rw [UInt32.toNat_ofNat', Nat.mod_eq_of_lt hlen]
  show (s.insertRange s.nReadPos.toNat l).2.toStream = CDataStream.insertFront ⟨_, _⟩ l
  rw [insertRange, CDataStream.insertFront]
  dsimp only
  by_cases hroom : l.length ≤ s.nReadPos.toNat
  · rw [if_pos ⟨rfl, UInt32.le_iff_toNat_le.mpr (by rwa [hofNat])⟩, if_pos hroom, toNat_before hroom,
      copyTo, Nat.sub_add_cancel hroom, if_pos h.nReadPos_le]
    dsimp only [toStream]
    rw [toNat_before hroom]
  · rw [if_neg (fun hle => hroom (by rw [← hofNat]; exact UInt32.le_iff_toNat_le.mp hle.2)),
      if_neg hroom]
    rfl

end DataStream

end FoxCoin
