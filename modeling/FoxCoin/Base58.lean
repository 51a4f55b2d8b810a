import FoxCoin.AddressTable
import FoxCoin.CString
import FoxCoin.EvalBounds
import FoxCoin.Lib.Positional

/-! # Base 58

`EncodeBase58` and `DecodeBase58` go through a `CBigNum`: its digits in base 58 are the characters,
its bytes the data, and leading zeros are counted on both sides. The number can be written with one
byte more than it has, for its sign. Both directions are the change of base of `Positional.rebase`. -/

namespace FoxCoin.Base58

open Positional Wire

/-! ## The code -/

/-- `pszBase58`. -/
def pszBase58 : StdString := literal "123456789ABCDEFGHJKLMNPQRSTUVWXYZabcdefghijkmnopqrstuvwxyz"

/-- `pszBase58[c]`; behind the last character is the NUL. -/
def base58Char (c : ℕ) : UInt8 := pszBase58.getD c 0

/-- The loop of `EncodeBase58`, which appends the remainders. -/
def convertLoop (bn : ℤ) (str : StdString) : StdString :=
  if 0 < bn then convertLoop (bn.tdiv 58) (str ++ [base58Char (bn.tmod 58).toNat])
  else str
termination_by bn.toNat
decreasing_by
  rename_i h
  rw [Int.tdiv_eq_ediv_of_nonneg h.le]
  omega

/-- `EncodeBase58`. -/
def encodeBase58 (vch : List UInt8) : StdString :=
  -- the zero at the end makes the number positive
  let bn := setvch (vch.reverse ++ [0])
  let str := convertLoop bn []
  (str ++ (vch.takeWhile (· = 0)).map fun _ => base58Char 0).reverse

/-- The loop of `DecodeBase58`: what `bn` is when the string, or all of it but blanks, is read. -/
def readLoop : ℤ → StdString → Option ℤ
  | bn, [] => some bn
  | bn, c :: p =>
    match pszBase58.idxOf? c with
    | none => if (c :: p).dropWhile isspace = [] then some bn else none
    | some i => readLoop (bn * 58 + i) p

/-- The sign byte is trimmed off if present. -/
def trimSign (vchTmp : List UInt8) : List UInt8 :=
  if 2 ≤ vchTmp.length ∧ vchTmp.getD (vchTmp.length - 1) 0 = 0 ∧
      0x80 ≤ vchTmp.getD (vchTmp.length - 2) 0 then vchTmp.dropLast
  else vchTmp

/-- `DecodeBase58(const char*)`: `vchRet`, or `none` for `false`, which leaves it empty. -/
def decodeBase58Psz (psz : StdString) : Option (List UInt8) := do
  let psz := psz.dropWhile isspace
  let bn ← readLoop 0 psz
  let vchTmp := trimSign (getvch bn)
  let nLeadingZeros := (psz.takeWhile (· = base58Char 0)).length
  some (List.replicate nLeadingZeros 0 ++ vchTmp.reverse)

/-- `DecodeBase58(const std::string&)`. -/
def decodeBase58 (str : StdString) : Option (List UInt8) := decodeBase58Psz (cStr str)

/-- The first four bytes of a hash as it lies in memory. -/
def checksum (Hash : List UInt8 → Vector UInt8 32) (vch : List UInt8) : List UInt8 :=
  (Hash vch).toList.take 4

/-- `EncodeBase58Check`. -/
def encodeBase58Check (Hash : List UInt8 → Vector UInt8 32) (vchIn : List UInt8) : StdString :=
  encodeBase58 (vchIn ++ checksum Hash vchIn)

/-- `DecodeBase58Check(const char*)`. -/
def decodeBase58CheckPsz (Hash : List UInt8 → Vector UInt8 32) (psz : StdString) :
    Option (List UInt8) := do
  let vchRet ← decodeBase58Psz psz
  if vchRet.length < 4 then none
  else
    let vch := vchRet.take (vchRet.length - 4)
    if checksum Hash vch ≠ vchRet.drop (vchRet.length - 4) then none else some vch

/-- `DecodeBase58Check(const std::string&)`. -/
def decodeBase58Check (Hash : List UInt8 → Vector UInt8 32) (str : StdString) :
    Option (List UInt8) :=
  decodeBase58CheckPsz Hash (cStr str)

/-! ## Characters -/

theorem length_pszBase58 : pszBase58.length = 58 := by decide

/-- A character is found at its digit, and is neither a blank nor a NUL. -/
theorem base58Char_spec : ∀ c < 58, pszBase58.idxOf? (base58Char c) = some c ∧
    isspace (base58Char c) = false ∧ base58Char c ≠ 0 := by
  decide

theorem idxOf?_base58Char {c : ℕ} (h : c < 58) : pszBase58.idxOf? (base58Char c) = some c :=
  (base58Char_spec c h).1

/-- What is found is the character of its position. -/
theorem base58Char_of_idxOf? {c : UInt8} {i : ℕ} (h : pszBase58.idxOf? c = some i) :
    i < 58 ∧ base58Char i = c := by
  obtain ⟨hi, hget, -⟩ := List.idxOf?_eq_some_iff.mp h
  refine ⟨by rwa [length_pszBase58] at hi, ?_⟩
  rw [base58Char, List.getD_eq_getElem?_getD, List.getElem?_eq_getElem hi, Option.getD_some, hget]

theorem base58Char_eq_zero_iff {c : ℕ} (h : c < 58) : base58Char c = base58Char 0 ↔ c = 0 := by
  refine ⟨fun heq => ?_, fun hzero => by rw [hzero]⟩
  have hidx := idxOf?_base58Char h
  rw [heq, idxOf?_base58Char (by omega)] at hidx
  exact (Option.some.inj hidx).symm

/-- Characters of digits are read as a C string. -/
theorem zero_notMem_map_base58Char {ds : List ℕ} (hds : ∀ d ∈ ds, d < 58) :
    0 ∉ ds.map base58Char := by
  intro h
  obtain ⟨d, hd, hzero⟩ := List.mem_map.mp h
  exact (base58Char_spec d (hds d hd)).2.2 hzero

theorem isspace_map_base58Char {ds : List ℕ} (hds : ∀ d ∈ ds, d < 58) :
    ∀ c ∈ ds.map base58Char, isspace c = false := by
  intro c hc
  obtain ⟨d, hd, rfl⟩ := List.mem_map.mp hc
  exact (base58Char_spec d (hds d hd)).2.1

/-- As many characters are ones as digits are zeros. -/
theorem length_takeWhile_base58Char {ds : List ℕ} (hds : ∀ d ∈ ds, d < 58) :
    ((ds.map base58Char).takeWhile (· = base58Char 0)).length = leadingZeros ds := by
  induction ds with
  | nil => rfl
  | cons d ds ih =>
    have hd := base58Char_eq_zero_iff (hds d List.mem_cons_self)
    rw [List.map_cons, leadingZeros]
    by_cases hzero : d = 0
    · rw [List.takeWhile_cons_of_pos (by simpa using hd.mpr hzero),
        List.takeWhile_cons_of_pos (by simpa using hzero), List.length_cons, List.length_cons,
        ih fun d hd => hds d (List.mem_cons_of_mem _ hd), leadingZeros]
    · rw [List.takeWhile_cons_of_neg (by simpa using fun h => hzero (hd.mp h)),
        List.takeWhile_cons_of_neg (by simpa using hzero)]
      rfl

/-- The zeros that bytes start with are those of their numbers. -/
theorem length_takeWhile_zero (vch : List UInt8) :
    (vch.takeWhile (· = 0)).length = leadingZeros (vch.map UInt8.toNat) := by
  rw [leadingZeros, List.takeWhile_map, List.length_map]
  congr 2
  funext b
  simp [← UInt8.toNat_inj]

/-! ## The number -/

theorem readLE_eq_ofDigits (bs : List UInt8) : readLE bs = Nat.ofDigits 256 (bs.map UInt8.toNat) := by
  induction bs with
  | nil => rfl
  | cons b bs ih => rw [readLE, ih, List.map_cons, Nat.ofDigits_cons]

/-- The value of big-endian bytes. -/
theorem value_map_toNat (vch : List UInt8) : value 256 (vch.map UInt8.toNat) = readLE vch.reverse := by
  rw [readLE_eq_ofDigits, value, List.map_reverse]

/-- A zero behind little-endian bytes leaves their number, and makes it positive. -/
theorem setvch_append_zero (vch : List UInt8) : setvch (vch ++ [0]) = readLE vch := by
  have hread : readLE (vch ++ [0]) = readLE vch := by
    rw [readLE_eq_ofDigits, List.map_append, Nat.ofDigits_append, readLE_eq_ofDigits]
    simp
  have hlt := readLE_lt vch
  have hsign : ¬ (vch ++ [0] ≠ [] ∧ 256 ^ (vch ++ [0]).length / 2 ≤ readLE vch) := by
    rintro ⟨-, hle⟩
    rw [List.length_append, List.length_singleton, pow_succ] at hle
    omega
  rw [setvch, hread]
  exact if_neg hsign

/-- The loop appends the characters of the digits. -/
theorem convertLoop_natCast (n : ℕ) (str : StdString) :
    convertLoop n str = str ++ (Nat.digits 58 n).map base58Char := by
  induction n using Nat.strong_induction_on generalizing str with
  | _ n ih =>
    rw [convertLoop]
    split_ifs with hpos
    · have hn : 0 < n := by exact_mod_cast hpos
      have hdiv : (n : ℤ).tdiv 58 = ((n / 58 : ℕ) : ℤ) := by
        rw [Int.tdiv_eq_ediv_of_nonneg hpos.le]
        norm_cast
      have hmod : ((n : ℤ).tmod 58).toNat = n % 58 := by
        rw [Int.tmod_eq_emod_of_nonneg hpos.le]
        omega
      rw [hdiv, hmod, ih _ (by omega), Nat.digits_def' (by omega) hn, List.map_cons,
        List.append_assoc, List.singleton_append]
    · have hzero : n = 0 := by
        have : ¬ 0 < n := fun h => hpos (by exact_mod_cast h)
        omega
      rw [hzero, Nat.digits_zero, List.map_nil, List.append_nil]

/-- The loop reads digits up to what follows them. -/
theorem readLoop_append {ds : List ℕ} (hds : ∀ d ∈ ds, d < 58) (n : ℕ) (p : StdString) :
    readLoop n (ds.map base58Char ++ p) =
      readLoop ((n * 58 ^ ds.length + value 58 ds : ℕ) : ℤ) p := by
  rw [← foldl_eq_value]
  induction ds generalizing n with
  | nil => rfl
  | cons d ds ih =>
    rw [List.map_cons, List.cons_append, readLoop, idxOf?_base58Char (hds d List.mem_cons_self),
      List.foldl_cons, ← ih fun d hd => hds d (List.mem_cons_of_mem _ hd)]
    push_cast
    ring_nf

/-- **What the loop accepts** is characters of digits, and blanks after them. -/
theorem exists_of_readLoop {n : ℕ} {p : StdString} {bn : ℤ} (h : readLoop n p = some bn) :
    ∃ (ds : List ℕ) (blanks : StdString), p = ds.map base58Char ++ blanks ∧ (∀ d ∈ ds, d < 58) ∧
      (∀ c ∈ blanks, isspace c = true) := by
  induction p generalizing n with
  | nil => exact ⟨[], [], rfl, by simp, by simp⟩
  | cons c p ih =>
    rw [readLoop] at h
    cases hidx : pszBase58.idxOf? c with
    | none =>
      simp only [hidx] at h
      split_ifs at h with hblank
      exact ⟨[], c :: p, rfl, by simp, List.dropWhile_eq_nil_iff.mp hblank⟩
    | some i =>
      simp only [hidx] at h
      obtain ⟨hi, rfl⟩ := base58Char_of_idxOf? hidx
      have hnext : (n : ℤ) * 58 + i = ((n * 58 + i : ℕ) : ℤ) := by push_cast; ring
      rw [hnext] at h
      obtain ⟨ds, blanks, rfl, hds, hblanks⟩ := ih h
      refine ⟨i :: ds, blanks, rfl, fun d hd => ?_, hblanks⟩
      rcases List.mem_cons.mp hd with rfl | hd
      · exact hi
      · exact hds d hd

/-! ## The bytes of the number -/

/-- Trimming the sign byte, on big-endian bytes. -/
theorem reverse_trimSign_of_sign {b : UInt8} (hb : 0x80 ≤ b) (r : List UInt8) :
    (trimSign (0 :: b :: r).reverse).reverse = b :: r := by
  rw [trimSign, if_pos]
  · simp
  · refine ⟨by simp, ?_, ?_⟩
    · simp [List.getD_eq_getElem?_getD]
    · simpa [List.getD_eq_getElem?_getD] using hb

/-- Bytes without a sign byte stay. -/
theorem reverse_trimSign_of_no_sign {vch : List UInt8}
    (h : ∀ b r, vch = 0 :: b :: r → ¬ 0x80 ≤ b) : (trimSign vch.reverse).reverse = vch := by
  rw [trimSign, if_neg, List.reverse_reverse]
  rintro ⟨hlen, hlast, htop⟩
  match vch with
  | [] => simp at hlen
  | [b] => simp at hlen
  | b :: b' :: r =>
    obtain rfl : b = 0 := by simpa [List.getD_eq_getElem?_getD] using hlast
    exact h b' r rfl (by simpa [List.getD_eq_getElem?_getD] using htop)

theorem readLE_getvch (n : ℕ) : readLE (getvch n) = n := by
  have hget : getvch n = leBytes (mpiSize n) n := by
    rw [getvch, Int.natAbs_natCast, if_neg (by omega), Nat.add_zero]
  rw [hget, readLE_leBytes]
  refine Nat.mod_eq_of_lt ?_
  by_cases hn : n = 0
  · rw [hn]
    exact Nat.pow_pos (by omega)
  · have := (mpiSize_spec hn).2.2
    omega

/-- The first of the bytes of a number is zero only when the next has its top bit set. -/
theorem head_getvch {n : ℕ} {vch : List UInt8} (h : (getvch n).reverse = 0 :: vch) :
    ∃ b r, vch = b :: r ∧ 0x80 ≤ b := by
  have hvalue : value 256 (((getvch n).reverse).map UInt8.toNat) = n := by
    rw [value_map_toNat, List.reverse_reverse, readLE_getvch]
  have hlen := congrArg List.length h
  rw [List.length_reverse, getvch_length, Int.natAbs_natCast, List.length_cons] at hlen
  have hn : n ≠ 0 := by
    rintro rfl
    rw [mpiSize, if_pos rfl] at hlen
    omega
  have hlow := (mpiSize_spec hn).2.1
  rw [hlen, Nat.add_sub_cancel] at hlow
  have htail : value 256 (vch.map UInt8.toNat) = n := by
    rw [← hvalue, h]
    exact (value_replicate_append 256 1 _).symm
  cases vch with
  | nil => exact absurd htail.symm hn
  | cons b r =>
    refine ⟨b, r, rfl, ?_⟩
    have hr := value_lt (by omega) (toNat_lt_of_mem (s := r))
    rw [List.map_cons, ← List.singleton_append, value_append, value_singleton] at htail
    rw [List.length_map] at hr htail
    rw [List.length_cons, pow_succ] at hlow
    have hb : 128 ≤ b.toNat := by
      by_contra hlt
      have : b.toNat * 256 ^ r.length ≤ 127 * 256 ^ r.length := Nat.mul_le_mul_right _ (by omega)
      omega
    exact UInt8.le_iff_toNat_le.mpr hb

/-- **The bytes of a number without its sign byte** are its digits in base 256. -/
theorem map_toNat_trimSign_getvch (n : ℕ) :
    (trimSign (getvch n)).reverse.map UInt8.toNat = digits 256 n := by
  have hvalue : value 256 (((getvch n).reverse).map UInt8.toNat) = n := by
    rw [value_map_toNat, List.reverse_reverse, readLE_getvch]
  by_cases hsign : ∃ b r, (getvch n).reverse = 0 :: b :: r ∧ 0x80 ≤ b
  · obtain ⟨b, r, heq, hb⟩ := hsign
    have htrim := reverse_trimSign_of_sign hb r
    rw [← heq, List.reverse_reverse] at htrim
    rw [heq] at hvalue
    rw [htrim]
    have htail : value 256 ((b :: r).map UInt8.toNat) = n := by
      rw [← hvalue]
      exact (value_replicate_append 256 1 _).symm
    rw [← htail]
    refine (digits_value (by omega) toNat_lt_of_mem fun d hd => ?_).symm
    obtain rfl := Option.some.inj hd
    have := UInt8.le_iff_toNat_le.mp hb
    exact Nat.ne_of_gt (this.trans_lt' (by decide))
  · have htrim : (trimSign (getvch n).reverse.reverse).reverse = (getvch n).reverse :=
      reverse_trimSign_of_no_sign fun b r heq hb => hsign ⟨b, r, heq, hb⟩
    rw [List.reverse_reverse] at htrim
    rw [htrim]
    conv_rhs => rw [← hvalue]
    refine (digits_value (by omega) toNat_lt_of_mem fun d hd => ?_).symm
    rintro rfl
    -- a first byte that is zero would have been trimmed
    refine hsign ?_
    rw [List.head?_map, Option.mem_def, Option.map_eq_some_iff] at hd
    obtain ⟨b, hb, hzero⟩ := hd
    obtain rfl : b = 0 := UInt8.toNat_inj.mp hzero
    obtain ⟨vch, heq⟩ := List.head?_eq_some_iff.mp hb
    obtain ⟨b, r, rfl, htop⟩ := head_getvch heq
    exact ⟨b, r, heq, htop⟩

/-! ## The codec -/

/-- **`EncodeBase58` writes the digits in base 58.** -/
theorem encodeBase58_eq (vch : List UInt8) :
    encodeBase58 vch = (rebase 256 58 (vch.map UInt8.toNat)).map base58Char := by
  rw [encodeBase58, setvch_append_zero, convertLoop_natCast, ← value_map_toNat, rebase,
    ← length_takeWhile_zero]
  simp [digits, List.map_const']

/-- **`DecodeBase58` on characters of digits** writes them in base 256. -/
theorem decodeBase58Psz_map {ds : List ℕ} (hds : ∀ d ∈ ds, d < 58) :
    decodeBase58Psz (ds.map base58Char) = some ((rebase 58 256 ds).map UInt8.ofNat) := by
  have hskip : (ds.map base58Char).dropWhile isspace = ds.map base58Char :=
    dropWhile_isspace_eq_self fun c hc =>
      isspace_map_base58Char hds c (List.mem_of_head? hc)
  have hread := readLoop_append hds 0 []
  rw [List.append_nil, readLoop, zero_mul, zero_add] at hread
  have hbytes := congrArg (List.map UInt8.ofNat) (map_toNat_trimSign_getvch (value 58 ds))
  rw [map_ofNat_map_toNat] at hbytes
  rw [decodeBase58Psz, hskip]
  simp only [Nat.cast_zero] at hread
  rw [hread, Option.bind_eq_bind, Option.bind_some, length_takeWhile_base58Char hds]
  dsimp only
  rw [hbytes, rebase]
  simp

/-- What is decoded and has no blanks is characters of digits. -/
theorem exists_of_decodeBase58Psz {psz : StdString} {vch : List UInt8}
    (hblank : ∀ c ∈ psz, isspace c = false) (h : decodeBase58Psz psz = some vch) :
    ∃ ds : List ℕ, psz = ds.map base58Char ∧ (∀ d ∈ ds, d < 58) ∧
      vch = (rebase 58 256 ds).map UInt8.ofNat := by
  have hskip : psz.dropWhile isspace = psz :=
    dropWhile_isspace_eq_self fun c hc => hblank c (List.mem_of_head? hc)
  have hread := h
  rw [decodeBase58Psz, hskip, Option.bind_eq_bind, Option.bind_eq_some_iff] at hread
  obtain ⟨bn, hbn, -⟩ := hread
  obtain ⟨ds, blanks, rfl, hds, hblanks⟩ := exists_of_readLoop (n := 0) hbn
  have hnone : blanks = [] := by
    refine List.eq_nil_iff_forall_not_mem.mpr fun c hc => ?_
    have hno := hblank c (List.mem_append_right _ hc)
    rw [hblanks c hc] at hno
    cases hno
  subst hnone
  rw [List.append_nil] at h ⊢
  rw [decodeBase58Psz_map hds] at h
  exact ⟨ds, rfl, hds, (Option.some.inj h).symm⟩

/-- **Decoding gives back what was encoded.** -/
theorem decodeBase58_encodeBase58 (vch : List UInt8) :
    decodeBase58 (encodeBase58 vch) = some vch := by
  have hlt : ∀ d ∈ rebase 256 58 (vch.map UInt8.toNat), d < 58 := rebase_lt (by omega)
  rw [decodeBase58, encodeBase58_eq, cStr_eq_self (zero_notMem_map_base58Char hlt),
    decodeBase58Psz_map hlt, rebase_rebase (by omega) toNat_lt_of_mem, map_ofNat_map_toNat]

/-- **Encoding gives back what was decoded**, when it has no blanks. -/
theorem encodeBase58_of_decodeBase58Psz {psz : StdString} {vch : List UInt8}
    (hblank : ∀ c ∈ psz, isspace c = false) (h : decodeBase58Psz psz = some vch) :
    encodeBase58 vch = psz := by
  obtain ⟨ds, rfl, hds, rfl⟩ := exists_of_decodeBase58Psz hblank h
  rw [encodeBase58_eq, map_toNat_map_ofNat (rebase_lt (by omega)), rebase_rebase (by omega) hds]

theorem length_checksum (Hash : List UInt8 → Vector UInt8 32) (vch : List UInt8) :
    (checksum Hash vch).length = 4 := by
  rw [checksum, List.length_take, Vector.length_toList]
  rfl

/-- **A string with its checksum is read back.** -/
theorem decodeBase58Check_encodeBase58Check (Hash : List UInt8 → Vector UInt8 32)
    (vch : List UInt8) : decodeBase58Check Hash (encodeBase58Check Hash vch) = some vch := by
  have hdecode : decodeBase58Psz (cStr (encodeBase58Check Hash vch)) =
      some (vch ++ checksum Hash vch) := decodeBase58_encodeBase58 _
  have hlen := length_checksum Hash vch
  rw [decodeBase58Check, decodeBase58CheckPsz, hdecode, Option.bind_eq_bind, Option.bind_some,
    List.length_append, hlen, Nat.add_sub_cancel, List.take_left, List.drop_left]
  simp

/-- **What is decoded from a string with a checksum** is followed by it. -/
theorem decodeBase58CheckPsz_eq_some_iff {Hash : List UInt8 → Vector UInt8 32} {psz : StdString}
    {vch : List UInt8} : decodeBase58CheckPsz Hash psz = some vch ↔
      decodeBase58Psz psz = some (vch ++ checksum Hash vch) := by
  rw [decodeBase58CheckPsz, Option.bind_eq_bind, Option.bind_eq_some_iff]
  constructor
  · rintro ⟨vchRet, hdecode, h⟩
    dsimp only at h
    split_ifs at h with hlen hsum
    obtain rfl := Option.some.inj h
    rw [hdecode, not_not.mp hsum, List.take_append_drop]
  · intro h
    refine ⟨_, h, ?_⟩
    dsimp only
    rw [List.length_append, length_checksum, Nat.add_sub_cancel, List.take_left, List.drop_left]
    simp

/-- **The codec of base 58 inverts itself**: every byte vector is read back; a string without blanks
and without a NUL that is accepted is what its bytes encode to; and with a checksum every byte vector
is read back, and a string that is too short or has another checksum is rejected. -/
theorem base58_inverse :
    (∀ vch, decodeBase58 (encodeBase58 vch) = some vch) ∧
    (∀ s vch, (∀ c ∈ s, isspace c = false) → 0 ∉ s → decodeBase58 s = some vch →
      encodeBase58 vch = s) ∧
    ∀ Hash : List UInt8 → Vector UInt8 32,
      (∀ vch, decodeBase58Check Hash (encodeBase58Check Hash vch) = some vch) ∧
      ∀ s vch, decodeBase58 s = some vch → vch.length < 4 ∨
          checksum Hash (vch.take (vch.length - 4)) ≠ vch.drop (vch.length - 4) →
        decodeBase58Check Hash s = none := by
  refine ⟨decodeBase58_encodeBase58, fun s vch hblank hzero h => ?_, fun Hash =>
    ⟨decodeBase58Check_encodeBase58Check Hash, fun s vch h hbad => ?_⟩⟩
  · rw [decodeBase58, cStr_eq_self hzero] at h
    exact encodeBase58_of_decodeBase58Psz hblank h
  · refine Option.eq_none_iff_forall_ne_some.mpr fun data hdata => ?_
    have hsplit := h.symm.trans (decodeBase58CheckPsz_eq_some_iff.mp hdata)
    obtain rfl := Option.some.inj hsplit
    rw [List.length_append, length_checksum, Nat.add_sub_cancel, List.take_left,
      List.drop_left] at hbad
    rcases hbad with hlen | hsum
    · omega
    · exact hsum rfl

/-- What follows a NUL is not read: `"1"` with a NUL behind it is accepted, and encoded without it. -/
theorem not_encodeBase58_decodeBase58 :
    ¬ ∀ s vch, (∀ c ∈ s, isspace c = false) → decodeBase58 s = some vch →
      encodeBase58 vch = s := by
  intro h
  have hone : encodeBase58 [0] = [49] := by
    rw [encodeBase58_eq]
    decide +kernel
  have hdecode : decodeBase58 [49, 0] = some [0] := by
    rw [← decodeBase58_encodeBase58, hone]
    rfl
  have := h [49, 0] [0] (by decide +kernel) hdecode
  rw [hone] at this
  cases this

/-! ## The addresses of the table -/

/-- **The string of an address** is what the code computes. -/
theorem map_encodeBase58 (vch : List UInt8) :
    (encodeBase58 vch).map (fun c => Char.ofNat c.toNat) = FoxCoin.encodeBase58 vch := by
  have hchar : ∀ d < 58, Char.ofNat (base58Char d).toNat = FoxCoin.pszBase58.getD d '1' := by decide
  have hlt : ∀ d ∈ rebase 256 58 (vch.map UInt8.toNat), d < 58 := rebase_lt (by omega)
  have hzeros : (vch.takeWhile (· == 0)).length = leadingZeros (vch.map UInt8.toNat) :=
    length_takeWhile_zero vch
  rw [encodeBase58_eq, List.map_map, FoxCoin.encodeBase58, hzeros]
  refine (List.map_congr_left fun d hd => hchar d (hlt d hd)).trans ?_
  rw [rebase, value, digits, List.map_append, List.map_replicate, ← List.map_reverse,
    List.map_reverse, List.reverse_append, List.reverse_replicate]
  rfl

/-- **The table of addresses shows the strings of the codec.** -/
theorem map_encodeBase58Check (Hash : List UInt8 → Vector UInt8 32) (vch : List UInt8) :
    (encodeBase58Check Hash vch).map (fun c => Char.ofNat c.toNat) =
      FoxCoin.encodeBase58Check (fun vch => (Hash vch).toList) vch :=
  map_encodeBase58 _

end FoxCoin.Base58
