import FoxCoin.CString
import FoxCoin.Lib.Positional

/-! # Decimal numbers in strings

The digits that `strprintf` writes for a number, the number that digits write, and what `strtol` makes
of a string. -/

namespace FoxCoin

open Positional

/-- The character of a digit. -/
def digitChar (d : ℕ) : UInt8 := UInt8.ofNat (48 + d)

/-- The digit of a character: `c - '0'`. -/
def digitVal (c : UInt8) : ℕ := c.toNat - 48

/-- `%u`, and `%d` for a number that is not negative. -/
def decimal (n : ℕ) : StdString := if n = 0 then [48] else (digits 10 n).map digitChar

/-- `%0kd` for a number that is not negative. -/
def paddedDecimal (k n : ℕ) : StdString := (decimal n).leftpad k 48

/-- The number that decimal digits write. -/
def readDecimal (s : StdString) : ℕ := value 10 (s.map digitVal)

/-! ## Digits -/

theorem isdigit_iff {c : UInt8} : isdigit c = true ↔ 48 ≤ c.toNat ∧ c.toNat ≤ 57 := by
  rw [isdigit, Bool.and_eq_true, decide_eq_true_eq, decide_eq_true_eq, UInt8.le_iff_toNat_le,
    UInt8.le_iff_toNat_le]
  rfl

theorem digitVal_lt {c : UInt8} (h : isdigit c = true) : digitVal c < 10 := by
  have := isdigit_iff.mp h
  unfold digitVal
  omega

theorem toNat_digitChar {d : ℕ} (h : d < 10) : (digitChar d).toNat = 48 + d :=
  UInt8.toNat_ofNat_of_lt' (show 48 + d < 256 by omega)

theorem isdigit_digitChar {d : ℕ} (h : d < 10) : isdigit (digitChar d) = true := by
  rw [isdigit_iff, toNat_digitChar h]
  omega

theorem digitVal_digitChar {d : ℕ} (h : d < 10) : digitVal (digitChar d) = d := by
  rw [digitVal, toNat_digitChar h]
  omega

/-- A digit is not a blank. -/
theorem isspace_of_isdigit {c : UInt8} (h : isdigit c = true) : isspace c = false := by
  have hdigit := isdigit_iff.mp h
  have hne : c ≠ 32 := by
    rintro rfl
    revert h
    decide
  have hhigh : ¬c ≤ 13 := by
    rw [UInt8.le_iff_toNat_le]
    exact Nat.not_le.mpr (hdigit.1.trans_lt' (by decide))
  simp [isspace, hne, hhigh]

theorem isdigit_map_digitChar {ds : List ℕ} (h : ∀ d ∈ ds, d < 10) :
    ∀ c ∈ ds.map digitChar, isdigit c = true := by
  intro c hc
  obtain ⟨d, hd, rfl⟩ := List.mem_map.mp hc
  exact isdigit_digitChar (h d hd)

theorem map_digitVal_map_digitChar {ds : List ℕ} (h : ∀ d ∈ ds, d < 10) :
    (ds.map digitChar).map digitVal = ds := by
  rw [List.map_map]
  exact (List.map_congr_left fun d hd => digitVal_digitChar (h d hd)).trans (List.map_id ds)

/-! ## Numbers -/

theorem readDecimal_append (s t : StdString) :
    readDecimal (s ++ t) = readDecimal s * 10 ^ t.length + readDecimal t := by
  rw [readDecimal, List.map_append, value_append, List.length_map, readDecimal, readDecimal]

theorem readDecimal_lt {s : StdString} (h : ∀ c ∈ s, isdigit c = true) :
    readDecimal s < 10 ^ s.length := by
  rw [readDecimal, ← List.length_map (f := digitVal)]
  refine value_lt (by omega) fun d hd => ?_
  obtain ⟨c, hc, rfl⟩ := List.mem_map.mp hd
  exact digitVal_lt (h c hc)

theorem isdigit_decimal (n : ℕ) : ∀ c ∈ decimal n, isdigit c = true := by
  rw [decimal]
  split_ifs with hn
  · simp [isdigit]
  · exact isdigit_map_digitChar (digits_lt (by omega))

theorem decimal_ne_nil (n : ℕ) : decimal n ≠ [] := by
  rw [decimal]
  split_ifs with hn
  · simp
  · rw [ne_eq, List.map_eq_nil_iff, digits, List.reverse_eq_nil_iff]
    exact Nat.digits_ne_nil_iff_ne_zero.mpr hn

/-- **A number is read from its digits.** -/
theorem readDecimal_decimal (n : ℕ) : readDecimal (decimal n) = n := by
  rw [decimal]
  split_ifs with hn
  · rw [hn]
    rfl
  · rw [readDecimal, map_digitVal_map_digitChar (digits_lt (by omega)), value_digits]

/-- A number below a power of ten has at most so many digits. -/
theorem length_decimal_le {n k : ℕ} (hk : 0 < k) (h : n < 10 ^ k) : (decimal n).length ≤ k := by
  rw [decimal]
  split_ifs with hn
  · exact hk
  · rw [List.length_map, digits, List.length_reverse]
    exact (Nat.digits_length_le_iff (by omega) n).mpr h

theorem readDecimal_replicate_append (k : ℕ) (s : StdString) :
    readDecimal (List.replicate k 48 ++ s) = readDecimal s := by
  rw [readDecimal, List.map_append, List.map_replicate, show digitVal 48 = 0 from rfl,
    value_replicate_append, readDecimal]

/-- A number in a width that it fits in. -/
theorem paddedDecimal_spec {k n : ℕ} (hk : 0 < k) (h : n < 10 ^ k) :
    (∀ c ∈ paddedDecimal k n, isdigit c = true) ∧ (paddedDecimal k n).length = k ∧
      readDecimal (paddedDecimal k n) = n := by
  refine ⟨fun c hc => ?_, ?_, ?_⟩
  · rcases List.mem_append.mp hc with hc | hc
    · rw [List.eq_of_mem_replicate hc]
      rfl
    · exact isdigit_decimal n c hc
  · rw [paddedDecimal, List.length_leftpad, Nat.max_eq_left (length_decimal_le hk h)]
  · rw [paddedDecimal, List.leftpad, readDecimal_replicate_append, readDecimal_decimal]

theorem zero_notMem_of_isdigit {s : StdString} (h : ∀ c ∈ s, isdigit c = true) : 0 ∉ s := by
  intro hzero
  exact absurd (h 0 hzero) (by decide)

/-! ## `strtol` -/

/-- The sign that `strtol` takes, and what is behind it. -/
def takeSign : StdString → Bool × StdString
  | 45 :: s => (true, s)
  | 43 :: s => (false, s)
  | s => (false, s)

/-- A number as a `long` of 64 bits: `strtol` saturates. -/
def clampLong (n : ℤ) : ℤ := max (-2 ^ 63) (min n (2 ^ 63 - 1))

/-- `strtol` of a C string in base 10: the number, and the string from `endp` on. -/
def strtol (s : StdString) : ℤ × StdString :=
  let (fNegative, t) := takeSign (s.dropWhile isspace)
  let ds := t.takeWhile isdigit
  if ds = [] then (0, s)
  else
    let n : ℤ := readDecimal ds
    (clampLong (if fNegative then -n else n), t.dropWhile isdigit)

/-- What `strtol` accepts as a whole: blanks, a sign, and digits. -/
structure LongText (s blanks sign ds : StdString) : Prop where
  eq : s = blanks ++ sign ++ ds
  blanks : ∀ c ∈ blanks, isspace c = true
  sign : sign = [] ∨ sign = [43] ∨ sign = [45]
  digits : ∀ c ∈ ds, isdigit c = true
  ne_nil : ds ≠ []

/-- The number that a sign and digits write. -/
def signedNumber (sign ds : StdString) : ℤ := if sign = [45] then -readDecimal ds else readDecimal ds

theorem takeSign_append {sign ds : StdString} (hsign : sign = [] ∨ sign = [43] ∨ sign = [45])
    (hds : ∀ c ∈ ds, isdigit c = true) (hne : ds ≠ []) :
    takeSign (sign ++ ds) = (decide (sign = [45]), ds) := by
  rcases hsign with rfl | rfl | rfl
  · cases ds with
    | nil => exact absurd rfl hne
    | cons c ds =>
      have hdigit := isdigit_iff.mp (hds c List.mem_cons_self)
      rw [List.nil_append, takeSign]
      · rfl
      · intro s heq
        obtain ⟨rfl, -⟩ := List.cons.inj heq
        revert hdigit
        decide
      · intro s heq
        obtain ⟨rfl, -⟩ := List.cons.inj heq
        revert hdigit
        decide
  · rfl
  · rfl

/-- **`strtol` reads such a text to its end.** -/
theorem LongText.strtol_eq {s blanks sign ds : StdString} (h : LongText s blanks sign ds) :
    strtol s = (clampLong (signedNumber sign ds), []) := by
  obtain ⟨rfl, hblanks, hsign, hds, hne⟩ := h
  have hskip : (blanks ++ sign ++ ds).dropWhile isspace = sign ++ ds := by
    rw [List.append_assoc, List.dropWhile_append_of_pos hblanks]
    refine dropWhile_isspace_eq_self fun c hc => ?_
    rcases hsign with rfl | rfl | rfl
    · exact isspace_of_isdigit (hds c (List.mem_of_head? hc))
    · obtain rfl := Option.some.inj hc
      rfl
    · obtain rfl := Option.some.inj hc
      rfl
  rw [strtol, hskip, takeSign_append hsign hds hne]
  dsimp only
  rw [List.takeWhile_eq_self_iff.mpr hds, List.dropWhile_eq_nil_iff.mpr hds, if_neg hne]
  simp only [signedNumber, decide_eq_true_eq]

theorem exists_of_takeSign (s : StdString) : ∃ sign, (sign = [] ∨ sign = [43] ∨ sign = [45]) ∧
    s = sign ++ (takeSign s).2 := by
  unfold takeSign
  split
  · exact ⟨[45], by simp, rfl⟩
  · exact ⟨[43], by simp, rfl⟩
  · exact ⟨[], by simp, rfl⟩

/-- **What is read to its end** is such a text, unless it is read as zero. -/
theorem exists_longText {s : StdString} (h : (strtol s).2 = []) (hvalue : (strtol s).1 ≠ 0) :
    ∃ blanks sign ds, LongText s blanks sign ds := by
  obtain ⟨sign, hsign, heq⟩ := exists_of_takeSign (s.dropWhile isspace)
  rw [strtol] at h hvalue
  dsimp only at h hvalue
  by_cases hds : (takeSign (s.dropWhile isspace)).2.takeWhile isdigit = []
  · rw [if_pos hds] at hvalue
    exact absurd rfl hvalue
  · rw [if_neg hds] at h
    have hall := List.dropWhile_eq_nil_iff.mp h
    refine ⟨s.takeWhile isspace, sign, (takeSign (s.dropWhile isspace)).2, ?_, ?_, hsign, hall, ?_⟩
    · rw [List.append_assoc, ← heq, List.takeWhile_append_dropWhile]
    · exact fun c hc => List.mem_takeWhile_imp hc
    · intro hnil
      rw [hnil] at hds
      exact hds rfl

end FoxCoin
