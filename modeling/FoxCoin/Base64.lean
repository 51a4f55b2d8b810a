import FoxCoin.CString
import FoxCoin.Lib.Positional

/-! # Base 64 and base 32

Encoders and decoders go from bytes to characters of 6 or 5 bits and back, with the bits that are left
over in `left` and their number in the mode. The steps of all four are those of
`Positional.Regroup`; at the end the encoders fill up with zero bits, and the decoders ask that what
is left over is zero and followed by the padding. -/

namespace FoxCoin

open Positional

/-! ## The code -/

/-- The variables of an encoder. -/
structure EncodeState (n : ℕ) where
  mode : Fin n
  left : ℕ
  strRet : StdString

/-- The variables of a decoder. -/
structure DecodeState (n : ℕ) where
  mode : Fin n
  left : ℕ
  vchRet : List UInt8

/-- The loop of the decoders, and the string that is left: the table has `-1` for the NUL. -/
def decodeLoop {S : Type} (table : List ℤ) (step : S → ℕ → S) : S → StdString → S × StdString
  | s, [] => (s, [])
  | s, c :: p =>
    let dec := table.getD c.toNat (-1)
    if dec = -1 then (s, c :: p) else decodeLoop table step (step s dec.toNat) p

/-- `pbase64`. -/
def pbase64 : StdString := literal "ABCDEFGHIJKLMNOPQRSTUVWXYZabcdefghijklmnopqrstuvwxyz0123456789+/"

/-- `pbase64[d]`. -/
def base64Char (d : ℕ) : UInt8 := pbase64.getD d 0

/-- A round of the loop of `EncodeBase64`. -/
def encode64Step (s : EncodeState 3) (byte : UInt8) : EncodeState 3 :=
  let enc := byte.toNat
  match s.mode with
  | 0 => ⟨1, (enc &&& 3) <<< 4, s.strRet ++ [base64Char (enc >>> 2)]⟩
  | 1 => ⟨2, (enc &&& 15) <<< 2, s.strRet ++ [base64Char (s.left ||| enc >>> 4)]⟩
  | 2 => ⟨0, s.left, s.strRet ++ [base64Char (s.left ||| enc >>> 6)] ++ [base64Char (enc &&& 63)]⟩

/-- `EncodeBase64`. -/
def encodeBase64 (vch : List UInt8) : StdString :=
  let s := vch.foldl encode64Step ⟨0, 0, []⟩
  if s.mode ≠ 0 then
    s.strRet ++ [base64Char s.left] ++ literal "=" ++ (if s.mode = 1 then literal "=" else [])
  else s.strRet

/-- `decode64_table`. -/
def decode64Table : List ℤ :=
  [-1, -1, -1, -1, -1, -1, -1, -1, -1, -1, -1, -1, -1, -1, -1, -1, -1, -1, -1, -1,
    -1, -1, -1, -1, -1, -1, -1, -1, -1, -1, -1, -1, -1, -1, -1, -1, -1, -1, -1, -1,
    -1, -1, -1, 62, -1, -1, -1, 63, 52, 53, 54, 55, 56, 57, 58, 59, 60, 61, -1, -1,
    -1, -1, -1, -1, -1, 0, 1, 2, 3, 4, 5, 6, 7, 8, 9, 10, 11, 12, 13, 14,
    15, 16, 17, 18, 19, 20, 21, 22, 23, 24, 25, -1, -1, -1, -1, -1, -1, 26, 27, 28,
    29, 30, 31, 32, 33, 34, 35, 36, 37, 38, 39, 40, 41, 42, 43, 44, 45, 46, 47, 48,
    49, 50, 51, -1, -1, -1, -1, -1, -1, -1, -1, -1, -1, -1, -1, -1, -1, -1, -1, -1,
    -1, -1, -1, -1, -1, -1, -1, -1, -1, -1, -1, -1, -1, -1, -1, -1, -1, -1, -1, -1,
    -1, -1, -1, -1, -1, -1, -1, -1, -1, -1, -1, -1, -1, -1, -1, -1, -1, -1, -1, -1,
    -1, -1, -1, -1, -1, -1, -1, -1, -1, -1, -1, -1, -1, -1, -1, -1, -1, -1, -1, -1,
    -1, -1, -1, -1, -1, -1, -1, -1, -1, -1, -1, -1, -1, -1, -1, -1, -1, -1, -1, -1,
    -1, -1, -1, -1, -1, -1, -1, -1, -1, -1, -1, -1, -1, -1, -1, -1, -1, -1, -1, -1,
    -1, -1, -1, -1, -1, -1, -1, -1, -1, -1, -1, -1, -1, -1, -1, -1]

/-- A round of the loop of `DecodeBase64`. -/
def decode64Step (s : DecodeState 4) (dec : ℕ) : DecodeState 4 :=
  match s.mode with
  | 0 => { s with mode := 1, left := dec }
  | 1 => ⟨2, dec &&& 15, s.vchRet ++ [UInt8.ofNat (s.left <<< 2 ||| dec >>> 4)]⟩
  | 2 => ⟨3, dec &&& 3, s.vchRet ++ [UInt8.ofNat (s.left <<< 4 ||| dec >>> 2)]⟩
  | 3 => ⟨0, s.left, s.vchRet ++ [UInt8.ofNat (s.left <<< 6 ||| dec)]⟩

/-- `DecodeBase64` of a C string: the bytes, and `*pfInvalid`. -/
def decodeBase64 (p : StdString) : List UInt8 × Bool :=
  let (s, p) := decodeLoop decode64Table decode64Step ⟨0, 0, []⟩ p
  let c (i : ℕ) : UInt8 := p.getD i 0
  let fInvalid : Bool :=
    match s.mode with
    | 0 => false
    | 1 => true
    | 2 => s.left ≠ 0 || c 0 ≠ 61 || c 1 ≠ 61 || decode64Table.getD (c 2).toNat (-1) ≠ -1
    | 3 => s.left ≠ 0 || c 0 ≠ 61 || decode64Table.getD (c 1).toNat (-1) ≠ -1
  (s.vchRet, fInvalid)

/-- `pbase32`. -/
def pbase32 : StdString := literal "abcdefghijklmnopqrstuvwxyz234567"

/-- `pbase32[d]`. -/
def base32Char (d : ℕ) : UInt8 := pbase32.getD d 0

/-- A round of the loop of `EncodeBase32`. -/
def encode32Step (s : EncodeState 5) (byte : UInt8) : EncodeState 5 :=
  let enc := byte.toNat
  match s.mode with
  | 0 => ⟨1, (enc &&& 7) <<< 2, s.strRet ++ [base32Char (enc >>> 3)]⟩
  | 1 => ⟨2, (enc &&& 1) <<< 4,
      s.strRet ++ [base32Char (s.left ||| enc >>> 6)] ++ [base32Char (enc >>> 1 &&& 31)]⟩
  | 2 => ⟨3, (enc &&& 15) <<< 1, s.strRet ++ [base32Char (s.left ||| enc >>> 4)]⟩
  | 3 => ⟨4, (enc &&& 3) <<< 3,
      s.strRet ++ [base32Char (s.left ||| enc >>> 7)] ++ [base32Char (enc >>> 2 &&& 31)]⟩
  | 4 => ⟨0, s.left, s.strRet ++ [base32Char (s.left ||| enc >>> 5)] ++ [base32Char (enc &&& 31)]⟩

/-- `nPadding`. -/
def nPadding : List ℕ := [0, 6, 4, 3, 1]

/-- `EncodeBase32`. -/
def encodeBase32 (vch : List UInt8) : StdString :=
  let s := vch.foldl encode32Step ⟨0, 0, []⟩
  if s.mode ≠ 0 then
    s.strRet ++ [base32Char s.left] ++ List.replicate (nPadding.getD s.mode 0) 61
  else s.strRet

/-- `decode32_table`. -/
def decode32Table : List ℤ :=
  [-1, -1, -1, -1, -1, -1, -1, -1, -1, -1, -1, -1, -1, -1, -1, -1, -1, -1, -1, -1,
    -1, -1, -1, -1, -1, -1, -1, -1, -1, -1, -1, -1, -1, -1, -1, -1, -1, -1, -1, -1,
    -1, -1, -1, -1, -1, -1, -1, -1, -1, -1, 26, 27, 28, 29, 30, 31, -1, -1, -1, -1,
    -1, -1, -1, -1, -1, 0, 1, 2, 3, 4, 5, 6, 7, 8, 9, 10, 11, 12, 13, 14,
    15, 16, 17, 18, 19, 20, 21, 22, 23, 24, 25, -1, -1, -1, -1, -1, -1, 0, 1, 2,
    3, 4, 5, 6, 7, 8, 9, 10, 11, 12, 13, 14, 15, 16, 17, 18, 19, 20, 21, 22,
    23, 24, 25, -1, -1, -1, -1, -1, -1, -1, -1, -1, -1, -1, -1, -1, -1, -1, -1, -1,
    -1, -1, -1, -1, -1, -1, -1, -1, -1, -1, -1, -1, -1, -1, -1, -1, -1, -1, -1, -1,
    -1, -1, -1, -1, -1, -1, -1, -1, -1, -1, -1, -1, -1, -1, -1, -1, -1, -1, -1, -1,
    -1, -1, -1, -1, -1, -1, -1, -1, -1, -1, -1, -1, -1, -1, -1, -1, -1, -1, -1, -1,
    -1, -1, -1, -1, -1, -1, -1, -1, -1, -1, -1, -1, -1, -1, -1, -1, -1, -1, -1, -1,
    -1, -1, -1, -1, -1, -1, -1, -1, -1, -1, -1, -1, -1, -1, -1, -1, -1, -1, -1, -1,
    -1, -1, -1, -1, -1, -1, -1, -1, -1, -1, -1, -1, -1, -1, -1, -1]

/-- A round of the loop of `DecodeBase32`. -/
def decode32Step (s : DecodeState 8) (dec : ℕ) : DecodeState 8 :=
  match s.mode with
  | 0 => { s with mode := 1, left := dec }
  | 1 => ⟨2, dec &&& 3, s.vchRet ++ [UInt8.ofNat (s.left <<< 3 ||| dec >>> 2)]⟩
  | 2 => { s with mode := 3, left := s.left <<< 5 ||| dec }
  | 3 => ⟨4, dec &&& 15, s.vchRet ++ [UInt8.ofNat (s.left <<< 1 ||| dec >>> 4)]⟩
  | 4 => ⟨5, dec &&& 1, s.vchRet ++ [UInt8.ofNat (s.left <<< 4 ||| dec >>> 1)]⟩
  | 5 => { s with mode := 6, left := s.left <<< 5 ||| dec }
  | 6 => ⟨7, dec &&& 7, s.vchRet ++ [UInt8.ofNat (s.left <<< 2 ||| dec >>> 3)]⟩
  | 7 => ⟨0, s.left, s.vchRet ++ [UInt8.ofNat (s.left <<< 5 ||| dec)]⟩

/-- `DecodeBase32` of a C string: the bytes, and `*pfInvalid`. -/
def decodeBase32 (p : StdString) : List UInt8 × Bool :=
  let (s, p) := decodeLoop decode32Table decode32Step ⟨0, 0, []⟩ p
  let c (i : ℕ) : UInt8 := p.getD i 0
  let fInvalid : Bool :=
    match s.mode with
    | 0 => false
    | 1 => true
    | 3 => true
    | 6 => true
    | 2 => s.left ≠ 0 || c 0 ≠ 61 || c 1 ≠ 61 || c 2 ≠ 61 || c 3 ≠ 61 || c 4 ≠ 61 ||
        c 5 ≠ 61 || decode32Table.getD (c 6).toNat (-1) ≠ -1
    | 4 => s.left ≠ 0 || c 0 ≠ 61 || c 1 ≠ 61 || c 2 ≠ 61 || c 3 ≠ 61 ||
        decode32Table.getD (c 4).toNat (-1) ≠ -1
    | 5 => s.left ≠ 0 || c 0 ≠ 61 || c 1 ≠ 61 || c 2 ≠ 61 ||
        decode32Table.getD (c 3).toNat (-1) ≠ -1
    | 7 => s.left ≠ 0 || c 0 ≠ 61 || decode32Table.getD (c 1).toNat (-1) ≠ -1
  (s.vchRet, fInvalid)

/-! ## Alphabets -/

/-- The characters of the digits of `w` bits, as they are written and read, up to the letter case. -/
structure Alphabet (w : ℕ) where
  char : ℕ → UInt8
  table : List ℤ
  norm : UInt8 → UInt8
  table_char : ∀ d < 2 ^ w, table.getD (char d).toNat (-1) = d
  char_table : ∀ c : UInt8, table.getD c.toNat (-1) ≠ -1 →
    ∃ d : ℕ, d < 2 ^ w ∧ table.getD c.toNat (-1) = d ∧ char d = norm c
  table_padding : table.getD 61 (-1) = -1
  table_zero : table.getD 0 (-1) = -1
  norm_padding : norm 61 = 61

/-- Base 64. -/
def alphabet64 : Alphabet 6 where
  char := base64Char
  table := decode64Table
  norm := id
  table_char := by decide +kernel
  char_table c := by
    have hall : ∀ n < 256, decode64Table.getD n (-1) ≠ -1 →
        (decode64Table.getD n (-1)).toNat < 2 ^ 6 ∧
        decode64Table.getD n (-1) = (decode64Table.getD n (-1)).toNat ∧
        base64Char (decode64Table.getD n (-1)).toNat = UInt8.ofNat n := by decide +kernel
    have hread := hall c.toNat c.toNat_lt
    rw [UInt8.ofNat_toNat] at hread
    exact fun hne => ⟨_, hread hne⟩
  table_padding := by decide
  table_zero := by decide
  norm_padding := rfl

/-- Base 32, where letters are read in both cases. -/
def alphabet32 : Alphabet 5 where
  char := base32Char
  table := decode32Table
  norm := tolower
  table_char := by decide +kernel
  char_table c := by
    have hall : ∀ n < 256, decode32Table.getD n (-1) ≠ -1 →
        (decode32Table.getD n (-1)).toNat < 2 ^ 5 ∧
        decode32Table.getD n (-1) = (decode32Table.getD n (-1)).toNat ∧
        base32Char (decode32Table.getD n (-1)).toNat = tolower (UInt8.ofNat n) := by decide +kernel
    have hread := hall c.toNat c.toNat_lt
    rw [UInt8.ofNat_toNat] at hread
    exact fun hne => ⟨_, hread hne⟩
  table_padding := by decide
  table_zero := by decide
  norm_padding := by decide

namespace Alphabet

variable {w : ℕ} (A : Alphabet w) {S : Type} {step : S → ℕ → S}

/-- **What the loop of a decoder does**: it reads characters of digits up to one that is none. -/
theorem decodeLoop_spec (s : S) (p : StdString) : ∃ (ds : List ℕ) (q rest : StdString),
    p = q ++ rest ∧ q.map A.norm = ds.map A.char ∧ (∀ d ∈ ds, d < 2 ^ w) ∧
    A.table.getD (rest.getD 0 0).toNat (-1) = -1 ∧
    decodeLoop A.table step s p = (ds.foldl step s, rest) := by
  induction p generalizing s with
  | nil => exact ⟨[], [], [], rfl, rfl, by simp, A.table_zero, rfl⟩
  | cons c p ih =>
    rw [decodeLoop]
    split_ifs with hend
    · exact ⟨[], [], c :: p, rfl, rfl, by simp, hend, rfl⟩
    · obtain ⟨d, hd, hdec, hchar⟩ := A.char_table c hend
      obtain ⟨ds, q, rest, rfl, hq, hds, hrest, hloop⟩ := ih (step s d)
      refine ⟨d :: ds, c :: q, rest, rfl, by simp [hq, hchar], ?_, hrest, ?_⟩
      · exact List.forall_mem_cons.mpr ⟨hd, hds⟩
      · rw [hdec, Int.toNat_natCast, hloop, List.foldl_cons]

/-- The characters of digits are read up to what follows them. -/
theorem decodeLoop_map {ds : List ℕ} (hds : ∀ d ∈ ds, d < 2 ^ w) {rest : StdString}
    (hrest : A.table.getD (rest.getD 0 0).toNat (-1) = -1) (s : S) :
    decodeLoop A.table step s (ds.map A.char ++ rest) = (ds.foldl step s, rest) := by
  induction ds generalizing s with
  | nil =>
    cases rest with
    | nil => rfl
    | cons c rest => exact if_pos hrest
  | cons d ds ih =>
    have hdec := A.table_char d (hds d List.mem_cons_self)
    rw [List.map_cons, List.cons_append, decodeLoop, hdec, if_neg (by omega), Int.toNat_natCast,
      ih fun d hd => hds d (List.mem_cons_of_mem _ hd), List.foldl_cons]

end Alphabet

/-! ## The steps of the encoders -/

section Encoders

variable {w n : ℕ} {A : Alphabet w} {bits : Fin n → ℕ} {s s' : EncodeState n} {ins ds : List ℕ}
  {acc l j x : ℕ}

/-- **What an encoder has done**: the digits in `strRet` hold the bits of the bytes, except for those
that are left over, as many as the mode says, at the top of a digit. -/
structure Encoding (A : Alphabet w) (bits : Fin n → ℕ) (s : EncodeState n) (ins ds : List ℕ)
    (acc : ℕ) : Prop where
  strRet : s.strRet = ds.map A.char
  regroup : Regroup 8 w ins ds (bits s.mode) acc
  left : bits s.mode ≠ 0 → s.left = acc <<< (w - bits s.mode)

/-- A round that writes one digit. -/
theorem Encoding.shift (h : Encoding A bits s ins ds acc) (hx : x < 2 ^ 8)
    (hk : bits s.mode + 8 = w + l) (hlj : l + j = 8)
    (hstr : s'.strRet = s.strRet ++ [A.char (acc <<< j ||| x >>> l)]) (hmode : bits s'.mode = l)
    (hleft : l ≠ 0 → s'.left = (x &&& (2 ^ l - 1)) <<< (w - l)) :
    ∃ ds' acc', Encoding A bits s' (ins ++ [x]) ds' acc' := by
  subst hmode
  refine ⟨_, _, ?_, h.regroup.shift hx hk hlj, hleft⟩
  rw [hstr, h.strRet, List.map_append]
  rfl

/-- A round that writes two digits. -/
theorem Encoding.shift₂ (h : Encoding A bits s ins ds acc) (hx : x < 2 ^ 8)
    (hk : bits s.mode + 8 = w + (w + l)) (hlj : w + l + j = 8)
    (hstr : s'.strRet = s.strRet ++ [A.char (acc <<< j ||| x >>> (w + l))] ++
      [A.char (x >>> l &&& (2 ^ w - 1))])
    (hmode : bits s'.mode = l) (hleft : l ≠ 0 → s'.left = (x &&& (2 ^ l - 1)) <<< (w - l)) :
    ∃ ds' acc', Encoding A bits s' (ins ++ [x]) ds' acc' := by
  subst hmode
  refine ⟨_, _, ?_, h.regroup.shift₂ hx hk hlj, hleft⟩
  rw [hstr, h.strRet, List.map_append, List.map_append]
  rfl

/-- The bits that are left over in the modes of `EncodeBase64`. -/
def encode64Bits : Fin 3 → ℕ := ![0, 2, 4]

/-- The bits that are left over in the modes of `EncodeBase32`. -/
def encode32Bits : Fin 5 → ℕ := ![0, 3, 1, 4, 2]

theorem Encoding.step64 {s : EncodeState 3} (h : Encoding alphabet64 encode64Bits s ins ds acc)
    (byte : UInt8) : ∃ ds' acc', Encoding alphabet64 encode64Bits (encode64Step s byte)
      (ins ++ [byte.toNat]) ds' acc' := by
  obtain ⟨mode, left, strRet⟩ := s
  have hacc := h.regroup.acc_lt
  have hleft := h.left
  match mode with
  | 0 =>
    obtain rfl : acc = 0 := by simpa [encode64Bits] using hacc
    exact h.shift byte.toNat_lt (l := 2) (j := 6) rfl rfl (by simp [encode64Step, alphabet64]) rfl
      fun _ => rfl
  | 1 =>
    obtain rfl : left = acc <<< 4 := hleft (show 2 ≠ 0 by decide)
    exact h.shift byte.toNat_lt (l := 4) (j := 4) rfl rfl rfl rfl fun _ => rfl
  | 2 =>
    obtain rfl : left = acc <<< 2 := hleft (show 4 ≠ 0 by decide)
    exact h.shift₂ byte.toNat_lt (l := 0) (j := 2) rfl rfl rfl rfl fun h => absurd rfl h

theorem Encoding.step32 {s : EncodeState 5} (h : Encoding alphabet32 encode32Bits s ins ds acc)
    (byte : UInt8) : ∃ ds' acc', Encoding alphabet32 encode32Bits (encode32Step s byte)
      (ins ++ [byte.toNat]) ds' acc' := by
  obtain ⟨mode, left, strRet⟩ := s
  have hacc := h.regroup.acc_lt
  have hleft := h.left
  match mode with
  | 0 =>
    obtain rfl : acc = 0 := by simpa [encode32Bits] using hacc
    exact h.shift byte.toNat_lt (l := 3) (j := 5) rfl rfl (by simp [encode32Step, alphabet32]) rfl
      fun _ => rfl
  | 1 =>
    obtain rfl : left = acc <<< 2 := hleft (show 3 ≠ 0 by decide)
    exact h.shift₂ byte.toNat_lt (l := 1) (j := 2) rfl rfl rfl rfl fun _ => rfl
  | 2 =>
    obtain rfl : left = acc <<< 4 := hleft (show 1 ≠ 0 by decide)
    exact h.shift byte.toNat_lt (l := 4) (j := 4) rfl rfl rfl rfl fun _ => rfl
  | 3 =>
    obtain rfl : left = acc <<< 1 := hleft (show 4 ≠ 0 by decide)
    exact h.shift₂ byte.toNat_lt (l := 2) (j := 1) rfl rfl rfl rfl fun _ => rfl
  | 4 =>
    obtain rfl : left = acc <<< 3 := hleft (show 2 ≠ 0 by decide)
    exact h.shift₂ byte.toNat_lt (l := 0) (j := 3) rfl rfl rfl rfl fun h => absurd rfl h

end Encoders

/-! ## The steps of the decoders -/

section Decoders

variable {w n : ℕ} {bits : Fin n → ℕ} {s s' : DecodeState n} {ins : List ℕ} {acc l j x : ℕ}

/-- **What a decoder has done**: the bytes in `vchRet` hold the bits of the digits, except for those
that are left over, as many as the mode says. -/
structure Decoding (w : ℕ) (bits : Fin n → ℕ) (s : DecodeState n) (ins : List ℕ) (acc : ℕ) :
    Prop where
  regroup : Regroup w 8 ins (s.vchRet.map UInt8.toNat) (bits s.mode) acc
  left : bits s.mode ≠ 0 → s.left = acc

/-- A round that keeps all bits. -/
theorem Decoding.keep (h : Decoding w bits s ins acc) (hx : x < 2 ^ w)
    (hvch : s'.vchRet = s.vchRet) (hmode : bits s'.mode = bits s.mode + w)
    (hleft : s'.left = acc <<< w ||| x) : ∃ acc', Decoding w bits s' (ins ++ [x]) acc' := by
  refine ⟨_, ?_, fun _ => hleft⟩
  rw [hvch, hmode]
  exact h.regroup.keep hx

/-- A round that writes one byte. -/
theorem Decoding.shift (h : Decoding w bits s ins acc) (hx : x < 2 ^ w)
    (hk : bits s.mode + w = 8 + l) (hlj : l + j = w)
    (hvch : s'.vchRet = s.vchRet ++ [UInt8.ofNat (acc <<< j ||| x >>> l)])
    (hmode : bits s'.mode = l) (hleft : l ≠ 0 → s'.left = x &&& (2 ^ l - 1)) :
    ∃ acc', Decoding w bits s' (ins ++ [x]) acc' := by
  subst hmode
  have hshift := h.regroup.shift hx hk hlj
  have hlt := hshift.outs_lt _ (List.mem_append_right _ (List.mem_singleton.mpr rfl))
  refine ⟨_, ?_, hleft⟩
  rw [hvch, List.map_append, List.map_singleton, UInt8.toNat_ofNat_of_lt' hlt]
  exact hshift

/-- The bits that are left over in the modes of `DecodeBase64`. -/
def decode64Bits : Fin 4 → ℕ := ![0, 6, 4, 2]

/-- The bits that are left over in the modes of `DecodeBase32`. -/
def decode32Bits : Fin 8 → ℕ := ![0, 5, 2, 7, 4, 1, 6, 3]

theorem Decoding.step64 {s : DecodeState 4} (h : Decoding 6 decode64Bits s ins acc) (hx : x < 2 ^ 6) :
    ∃ acc', Decoding 6 decode64Bits (decode64Step s x) (ins ++ [x]) acc' := by
  obtain ⟨mode, left, vchRet⟩ := s
  have hacc := h.regroup.acc_lt
  have hleft := h.left
  match mode with
  | 0 =>
    obtain rfl : acc = 0 := by simpa [decode64Bits] using hacc
    exact h.keep hx rfl rfl (by simp [decode64Step])
  | 1 =>
    obtain rfl : left = acc := hleft (show 6 ≠ 0 by decide)
    exact h.shift hx (l := 4) (j := 2) rfl rfl rfl rfl fun _ => rfl
  | 2 =>
    obtain rfl : left = acc := hleft (show 4 ≠ 0 by decide)
    exact h.shift hx (l := 2) (j := 4) rfl rfl rfl rfl fun _ => rfl
  | 3 =>
    obtain rfl : left = acc := hleft (show 2 ≠ 0 by decide)
    exact h.shift hx (l := 0) (j := 6) rfl rfl rfl rfl fun h => absurd rfl h

theorem Decoding.step32 {s : DecodeState 8} (h : Decoding 5 decode32Bits s ins acc) (hx : x < 2 ^ 5) :
    ∃ acc', Decoding 5 decode32Bits (decode32Step s x) (ins ++ [x]) acc' := by
  obtain ⟨mode, left, vchRet⟩ := s
  have hacc := h.regroup.acc_lt
  have hleft := h.left
  match mode with
  | 0 =>
    obtain rfl : acc = 0 := by simpa [decode32Bits] using hacc
    exact h.keep hx rfl rfl (by simp [decode32Step])
  | 1 =>
    obtain rfl : left = acc := hleft (show 5 ≠ 0 by decide)
    exact h.shift hx (l := 2) (j := 3) rfl rfl rfl rfl fun _ => rfl
  | 2 =>
    obtain rfl : left = acc := hleft (show 2 ≠ 0 by decide)
    exact h.keep hx rfl rfl rfl
  | 3 =>
    obtain rfl : left = acc := hleft (show 7 ≠ 0 by decide)
    exact h.shift hx (l := 4) (j := 1) rfl rfl rfl rfl fun _ => rfl
  | 4 =>
    obtain rfl : left = acc := hleft (show 4 ≠ 0 by decide)
    exact h.shift hx (l := 1) (j := 4) rfl rfl rfl rfl fun _ => rfl
  | 5 =>
    obtain rfl : left = acc := hleft (show 1 ≠ 0 by decide)
    exact h.keep hx rfl rfl rfl
  | 6 =>
    obtain rfl : left = acc := hleft (show 6 ≠ 0 by decide)
    exact h.shift hx (l := 3) (j := 2) rfl rfl rfl rfl fun _ => rfl
  | 7 =>
    obtain rfl : left = acc := hleft (show 3 ≠ 0 by decide)
    exact h.shift hx (l := 0) (j := 5) rfl rfl rfl rfl fun h => absurd rfl h

end Decoders

/-! ## Whole strings -/

section Runs

variable {w n : ℕ} {A : Alphabet w} {npad : ℕ → ℕ} {vch : List UInt8} {str p rest : StdString}
  {ds : List ℕ} {r : List UInt8 × Bool}

/-- **How bytes are encoded**: in digits, with zero bits behind them that the padding tells. -/
def WrittenAs (A : Alphabet w) (npad : ℕ → ℕ) (vch : List UInt8) (str : StdString) : Prop :=
  ∃ ds p, p < w ∧ Padded 8 w (vch.map UInt8.toNat) ds p ∧
    str = ds.map A.char ++ List.replicate (npad p) 61

/-- **How digits are decoded**: less than a byte is left over, and the string is valid when that is
less than a digit, all zero bits, and followed by the padding. -/
def ReadAs (A : Alphabet w) (npad : ℕ → ℕ) (ds : List ℕ) (rest : StdString)
    (r : List UInt8 × Bool) : Prop :=
  ∃ k acc, Regroup w 8 ds (r.1.map UInt8.toNat) k acc ∧ k < 8 ∧
    (r.2 = false ↔ k < w ∧ acc = 0 ∧ (∀ i ∈ List.range (npad k), rest.getD i 0 = 61) ∧
      A.table.getD (rest.getD (npad k) 0).toNat (-1) = -1)

/-- The padding of base 64 by the zero bits. -/
def padding64 (p : ℕ) : ℕ := p / 2

/-- The padding of base 32 by the zero bits. -/
def padding32 (p : ℕ) : ℕ := [0, 3, 6, 1, 4].getD p 0

/-- The steps of an encoder over all bytes. -/
theorem foldl_encoding {bits : Fin n → ℕ} {step : EncodeState n → UInt8 → EncodeState n}
    (hstep : ∀ s ins ds acc byte, Encoding A bits s ins ds acc →
      ∃ ds' acc', Encoding A bits (step s byte) (ins ++ [byte.toNat]) ds' acc')
    {s : EncodeState n} (hs : Encoding A bits s [] [] 0) (vch : List UInt8) :
    ∃ ds acc, Encoding A bits (vch.foldl step s) (vch.map UInt8.toNat) ds acc := by
  induction vch using List.reverseRecOn with
  | nil => exact ⟨[], 0, hs⟩
  | append_singleton vch byte ih =>
    obtain ⟨ds, acc, h⟩ := ih
    rw [List.foldl_append, List.map_append]
    exact hstep _ _ _ _ byte h

/-- The steps of a decoder over all digits. -/
theorem foldl_decoding {bits : Fin n → ℕ} {step : DecodeState n → ℕ → DecodeState n}
    (hstep : ∀ s ins acc x, Decoding w bits s ins acc → x < 2 ^ w →
      ∃ acc', Decoding w bits (step s x) (ins ++ [x]) acc')
    {s : DecodeState n} (hs : Decoding w bits s [] 0) {ds : List ℕ} (hds : ∀ d ∈ ds, d < 2 ^ w) :
    ∃ acc, Decoding w bits (ds.foldl step s) ds acc := by
  induction ds using List.reverseRecOn with
  | nil => exact ⟨0, hs⟩
  | append_singleton ds d ih =>
    obtain ⟨acc, h⟩ := ih fun d hd => hds d (List.mem_append_left _ hd)
    rw [List.foldl_append]
    exact hstep _ _ _ d h (hds d (List.mem_append_right _ (List.mem_singleton.mpr rfl)))

theorem encodeBase64_writtenAs (vch : List UInt8) :
    WrittenAs alphabet64 padding64 vch (encodeBase64 vch) := by
  obtain ⟨ds, acc, h⟩ := foldl_encoding (fun _ _ _ _ byte h => Encoding.step64 h byte)
    (s := ⟨0, 0, []⟩) ⟨rfl, .start 8 6, fun h => absurd rfl h⟩ vch
  rw [encodeBase64]
  generalize vch.foldl encode64Step ⟨0, 0, []⟩ = s at h
  obtain ⟨mode, left, strRet⟩ := s
  obtain ⟨hstr, hregroup, hleft⟩ := h
  dsimp only at hstr hregroup hleft ⊢
  subst hstr
  match mode with
  | 0 => exact ⟨ds, 0, by decide, hregroup.padded_zero, by simp [padding64, alphabet64]⟩
  | 1 =>
    have hpad := hregroup.pad (show 2 ≤ 6 by decide)
    obtain rfl : left = acc <<< 4 := hleft (show 2 ≠ 0 by decide)
    refine ⟨_, _, show 4 < 6 by decide, hpad, ?_⟩
    rw [List.map_append, Nat.shiftLeft_eq, List.append_assoc]
    rfl
  | 2 =>
    have hpad := hregroup.pad (show 4 ≤ 6 by decide)
    obtain rfl : left = acc <<< 2 := hleft (show 4 ≠ 0 by decide)
    refine ⟨_, _, show 2 < 6 by decide, hpad, ?_⟩
    rw [List.map_append, Nat.shiftLeft_eq, List.append_assoc]
    rfl

theorem encodeBase32_writtenAs (vch : List UInt8) :
    WrittenAs alphabet32 padding32 vch (encodeBase32 vch) := by
  obtain ⟨ds, acc, h⟩ := foldl_encoding (fun _ _ _ _ byte h => Encoding.step32 h byte)
    (s := ⟨0, 0, []⟩) ⟨rfl, .start 8 5, fun h => absurd rfl h⟩ vch
  rw [encodeBase32]
  generalize vch.foldl encode32Step ⟨0, 0, []⟩ = s at h
  obtain ⟨mode, left, strRet⟩ := s
  obtain ⟨hstr, hregroup, hleft⟩ := h
  dsimp only at hstr hregroup hleft ⊢
  subst hstr
  -- what is left over fills the digit that is written at the end
  have hfinish : ∀ k, k ≤ 5 → k ≠ 0 → encode32Bits mode = k → mode ≠ 0 →
      padding32 (5 - k) = nPadding.getD mode 0 →
      WrittenAs alphabet32 padding32 vch (if mode ≠ 0 then
        ds.map alphabet32.char ++ [base32Char left] ++ List.replicate (nPadding.getD mode 0) 61
        else ds.map alphabet32.char) := by
    intro k hk hk0 hbits hmode hpadding
    rw [hbits] at hregroup hleft
    obtain rfl := hleft hk0
    refine ⟨_, 5 - k, by omega, hregroup.pad hk, ?_⟩
    rw [if_pos hmode, hpadding, List.map_append, Nat.shiftLeft_eq]
    rfl
  match mode with
  | 0 => exact ⟨ds, 0, by decide, hregroup.padded_zero, by simp [padding32]⟩
  | 1 => exact hfinish 3 (by decide) (by decide) rfl (by decide) rfl
  | 2 => exact hfinish 1 (by decide) (by decide) rfl (by decide) rfl
  | 3 => exact hfinish 4 (by decide) (by decide) rfl (by decide) rfl
  | 4 => exact hfinish 2 (by decide) (by decide) rfl (by decide) rfl

theorem decodeBase64_readAs (hds : ∀ d ∈ ds, d < 2 ^ 6)
    (hloop : decodeLoop decode64Table decode64Step ⟨0, 0, []⟩ p =
      (ds.foldl decode64Step ⟨0, 0, []⟩, rest))
    (hrest : decode64Table.getD (rest.getD 0 0).toNat (-1) = -1) :
    ReadAs alphabet64 padding64 ds rest (decodeBase64 p) := by
  obtain ⟨acc, h⟩ := foldl_decoding (fun _ _ _ _ h hx => Decoding.step64 h hx)
    (s := ⟨0, 0, []⟩) ⟨.start 6 8, fun h => absurd rfl h⟩ hds
  rw [decodeBase64, hloop]
  generalize ds.foldl decode64Step ⟨0, 0, []⟩ = s at h
  obtain ⟨mode, left, vchRet⟩ := s
  obtain ⟨hregroup, hleft⟩ := h
  have hlt : ∀ mode, decode64Bits mode < 8 := by decide
  refine ⟨_, acc, hregroup, hlt _, ?_⟩
  dsimp only at hregroup hleft ⊢
  match mode with
  | 0 =>
    have hacc : acc = 0 := by simpa [decode64Bits] using hregroup.acc_lt
    exact iff_of_true rfl ⟨by decide, hacc, by simp [decode64Bits, padding64], hrest⟩
  | 1 => exact iff_of_false (fun h => Bool.noConfusion h) fun h => absurd h.1 (by decide)
  | 2 =>
    obtain rfl : left = acc := hleft (show 4 ≠ 0 by decide)
    have hrange : List.range (padding64 (decode64Bits 2)) = [0, 1] := rfl
    rw [hrange]
    simp [decode64Bits, padding64, alphabet64, and_assoc]
  | 3 =>
    obtain rfl : left = acc := hleft (show 2 ≠ 0 by decide)
    have hrange : List.range (padding64 (decode64Bits 3)) = [0] := rfl
    rw [hrange]
    simp [decode64Bits, padding64, alphabet64, and_assoc]

theorem decodeBase32_readAs (hds : ∀ d ∈ ds, d < 2 ^ 5)
    (hloop : decodeLoop decode32Table decode32Step ⟨0, 0, []⟩ p =
      (ds.foldl decode32Step ⟨0, 0, []⟩, rest))
    (hrest : decode32Table.getD (rest.getD 0 0).toNat (-1) = -1) :
    ReadAs alphabet32 padding32 ds rest (decodeBase32 p) := by
  obtain ⟨acc, h⟩ := foldl_decoding (fun _ _ _ _ h hx => Decoding.step32 h hx)
    (s := ⟨0, 0, []⟩) ⟨.start 5 8, fun h => absurd rfl h⟩ hds
  rw [decodeBase32, hloop]
  generalize ds.foldl decode32Step ⟨0, 0, []⟩ = s at h
  obtain ⟨mode, left, vchRet⟩ := s
  obtain ⟨hregroup, hleft⟩ := h
  have hlt : ∀ mode, decode32Bits mode < 8 := by decide
  refine ⟨_, acc, hregroup, hlt _, ?_⟩
  dsimp only at hregroup hleft ⊢
  match mode with
  | 0 =>
    have hacc : acc = 0 := by simpa [decode32Bits] using hregroup.acc_lt
    exact iff_of_true rfl ⟨by decide, hacc, by simp [decode32Bits, padding32], hrest⟩
  | 1 => exact iff_of_false (fun h => Bool.noConfusion h) fun h => absurd h.1 (by decide)
  | 2 =>
    obtain rfl : left = acc := hleft (show 2 ≠ 0 by decide)
    have hrange : List.range (padding32 (decode32Bits 2)) = [0, 1, 2, 3, 4, 5] := rfl
    rw [hrange]
    simp [decode32Bits, padding32, alphabet32, and_assoc]
  | 3 => exact iff_of_false (fun h => Bool.noConfusion h) fun h => absurd h.1 (by decide)
  | 4 =>
    obtain rfl : left = acc := hleft (show 4 ≠ 0 by decide)
    have hrange : List.range (padding32 (decode32Bits 4)) = [0, 1, 2, 3] := rfl
    rw [hrange]
    simp [decode32Bits, padding32, alphabet32, and_assoc]
  | 5 =>
    obtain rfl : left = acc := hleft (show 1 ≠ 0 by decide)
    have hrange : List.range (padding32 (decode32Bits 5)) = [0, 1, 2] := rfl
    rw [hrange]
    simp [decode32Bits, padding32, alphabet32, and_assoc]
  | 6 => exact iff_of_false (fun h => Bool.noConfusion h) fun h => absurd h.1 (by decide)
  | 7 =>
    obtain rfl : left = acc := hleft (show 3 ≠ 0 by decide)
    have hrange : List.range (padding32 (decode32Bits 7)) = [0] := rfl
    rw [hrange]
    simp [decode32Bits, padding32, alphabet32, and_assoc]

end Runs

/-! ## Round trips -/

/-- An encoder and a decoder over one alphabet and with one padding. -/
structure Codec (w : ℕ) where
  A : Alphabet w
  npad : ℕ → ℕ
  encode : List UInt8 → StdString
  decode : StdString → List UInt8 × Bool
  S : Type
  step : S → ℕ → S
  s : S
  lt_byte : w < 8
  writtenAs : ∀ vch, WrittenAs A npad vch (encode vch)
  readAs : ∀ {p rest : StdString} {ds : List ℕ}, (∀ d ∈ ds, d < 2 ^ w) →
    decodeLoop A.table step s p = (ds.foldl step s, rest) →
    A.table.getD (rest.getD 0 0).toNat (-1) = -1 → ReadAs A npad ds rest (decode p)

namespace Codec

variable {w : ℕ} (C : Codec w)

/-- Padding ends the digits, as the end of the string does. -/
theorem table_padding_head (m : ℕ) :
    C.A.table.getD ((List.replicate m (61 : UInt8)).getD 0 0).toNat (-1) = -1 := by
  cases m with
  | zero => exact C.A.table_zero
  | succ m => exact C.A.table_padding

/-- **Decoding gives back what was encoded.** -/
theorem decode_encode (vch : List UInt8) : C.decode (C.encode vch) = (vch, false) := by
  obtain ⟨ds, p, hp, hpadded, hstr⟩ := C.writtenAs vch
  have hhead := C.table_padding_head (C.npad p)
  obtain ⟨k, acc, hregroup, hk, hvalid⟩ := C.readAs hpadded.outs_lt
    (C.A.decodeLoop_map hpadded.outs_lt hhead C.s) hhead
  rw [← hstr] at hregroup hvalid
  obtain ⟨hbytes, rfl, rfl⟩ := hpadded.read (hp.trans C.lt_byte) toNat_lt_of_mem hregroup hk
  refine Prod.ext (List.map_injective_iff.mpr (fun _ _ => UInt8.toNat_inj.mp) hbytes)
    (hvalid.mpr ⟨hp, rfl, fun i hi => ?_, ?_⟩)
  · rw [List.getD_eq_getElem?_getD, List.getElem?_replicate, if_pos (List.mem_range.mp hi)]
    rfl
  · have hend : (List.replicate (C.npad k) (61 : UInt8)).getD (C.npad k) 0 = 0 := by simp
    rw [hend]
    exact C.A.table_zero

/-- A string that begins with padding. -/
theorem padding_isPrefix {rest : StdString} {m : ℕ}
    (h : ∀ i ∈ List.range m, rest.getD i 0 = 61) : List.replicate m 61 <+: rest := by
  induction m generalizing rest with
  | zero => exact List.nil_prefix
  | succ m ih =>
    have hfirst := h 0 (by simp)
    cases rest with
    | nil => cases hfirst
    | cons c rest =>
      obtain rfl : c = 61 := hfirst
      refine List.prefix_cons_inj _ |>.mpr (ih fun i hi => ?_)
      have := h (i + 1) (by simpa using hi)
      simpa using this

/-- **Encoding gives back what was validly decoded**, up to the letter case and without what follows
the padding. -/
theorem encode_decode {p : StdString} (h : (C.decode p).2 = false) :
    C.encode (C.decode p).1 <+: p.map C.A.norm := by
  obtain ⟨ds, q, rest, hp, hq, hds, hrest, hloop⟩ := C.A.decodeLoop_spec C.s p
  obtain ⟨k, acc, hregroup, hk, hvalid⟩ := C.readAs hds hloop hrest
  obtain ⟨hkw, rfl, hpad, -⟩ := hvalid.mp h
  obtain ⟨ds', k', hk', hpadded, hstr⟩ := C.writtenAs (C.decode p).1
  obtain rfl := (hregroup.padded hds).unique hpadded hkw hk'
  obtain rfl : k = k' := by
    have hbits := (hregroup.padded hds).bits
    rw [hpadded.bits] at hbits
    omega
  rw [hstr, hp, List.map_append, ← hq]
  have hnorm := (padding_isPrefix hpad).map C.A.norm
  rw [List.map_replicate, C.A.norm_padding] at hnorm
  exact List.prefix_append_right_inj _ |>.mpr hnorm

/-- A string that is valid and ends with its padding. -/
def Canonical (p : StdString) : Prop :=
  (C.decode p).2 = false ∧ p.length = (C.encode (C.decode p).1).length

/-- A canonical string is what its bytes are encoded to. -/
theorem Canonical.map_norm {p : StdString} (h : C.Canonical p) :
    C.encode (C.decode p).1 = p.map C.A.norm := by
  refine (C.encode_decode h.1).eq_of_length ?_
  rw [List.length_map, h.2]

end Codec

/-- Base 64. -/
def codec64 : Codec 6 where
  A := alphabet64
  npad := padding64
  encode := encodeBase64
  decode := decodeBase64
  S := DecodeState 4
  step := decode64Step
  s := ⟨0, 0, []⟩
  lt_byte := by decide
  writtenAs := encodeBase64_writtenAs
  readAs := decodeBase64_readAs

/-- Base 32. -/
def codec32 : Codec 5 where
  A := alphabet32
  npad := padding32
  encode := encodeBase32
  decode := decodeBase32
  S := DecodeState 8
  step := decode32Step
  s := ⟨0, 0, []⟩
  lt_byte := by decide
  writtenAs := encodeBase32_writtenAs
  readAs := decodeBase32_readAs

/-- **The codecs of base 64 and base 32 invert themselves**: every byte string is read back as valid;
a C string that is valid starts with what its bytes are encoded to, which base 32 writes in lower
case; and canonical strings of the same bytes are the same. -/
theorem base64_base32_inverse :
    (∀ vch, decodeBase64 (encodeBase64 vch) = (vch, false)) ∧
    (∀ vch, decodeBase32 (encodeBase32 vch) = (vch, false)) ∧
    (∀ s, (decodeBase64 (cStr s)).2 = false → encodeBase64 (decodeBase64 (cStr s)).1 <+: cStr s) ∧
    (∀ s, (decodeBase32 (cStr s)).2 = false →
      encodeBase32 (decodeBase32 (cStr s)).1 <+: (cStr s).map tolower) ∧
    (∀ p p', codec64.Canonical p → codec64.Canonical p' →
      (decodeBase64 p).1 = (decodeBase64 p').1 → p = p') ∧
    ∀ p p', codec32.Canonical p → codec32.Canonical p' →
      (decodeBase32 p).1 = (decodeBase32 p').1 → p.map tolower = p'.map tolower := by
  refine ⟨codec64.decode_encode, codec32.decode_encode, fun s h => ?_, fun s h =>
    codec32.encode_decode h, fun p p' h h' hsame => ?_, fun p p' h h' hsame => ?_⟩
  · have hprefix := codec64.encode_decode h
    rwa [show codec64.A.norm = id from rfl, List.map_id] at hprefix
  · have hp := h.map_norm
    have hp' := h'.map_norm
    rw [show codec64.A.norm = id from rfl, List.map_id] at hp hp'
    exact hp.symm.trans ((congrArg encodeBase64 hsame).trans hp')
  · exact (h.map_norm codec32).symm.trans
      ((congrArg encodeBase32 hsame).trans (h'.map_norm codec32))

end FoxCoin
