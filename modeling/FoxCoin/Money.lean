import FoxCoin.DataModel
import FoxCoin.Decimal
import FoxCoin.PoolAccept

/-! # Amounts in text

`FormatMoney` writes an amount with its decimals, and `ParseMoney` reads an amount in two loops,
over the whole part and over at most eight decimals with a multiplier that runs down. -/

namespace FoxCoin

open Positional

/-! ## The code -/

/-- The zeros at the end, of a string from its last character on: one is trimmed as long as two
places before it there is a digit. -/
def trimZeros : StdString → StdString
  | c :: d :: e :: s => if c = 48 && isdigit e then trimZeros (d :: e :: s) else c :: d :: e :: s
  | s => s

/-- `FormatMoney`. -/
def formatMoney (n : ℤ) (fPlus : Bool) : StdString :=
  let n_abs := if 0 < n then n else -n
  let quotient := n_abs.tdiv coin
  let remainder := n_abs.tmod coin
  let str := decimal quotient.toNat ++ literal "." ++ paddedDecimal 8 remainder.toNat
  let str := (trimZeros str.reverse).reverse
  if n < 0 then literal "-" ++ str else if fPlus && 0 < n then literal "+" ++ str else str

/-- The loop over the decimals: `nUnits` and `p` after it. -/
def readUnits : ℤ → ℤ → StdString → ℤ × StdString
  | nUnits, _, [] => (nUnits, [])
  | nUnits, nMult, c :: p =>
    if isdigit c && 0 < nMult then readUnits (nUnits + nMult * digitVal c) (nMult.tdiv 10) p
    else (nUnits, c :: p)

/-- The loop over the whole part: `strWhole`, `nUnits` and `p` after it, or `none` for `false`. -/
def readWhole (strWhole : StdString) : StdString → Option (StdString × ℤ × StdString)
  | [] => some (strWhole, 0, [])
  | c :: p =>
    if c = 46 then
      let (nUnits, p) := readUnits 0 (cent * 10) p
      some (strWhole, nUnits, p)
    else if isspace c then some (strWhole, 0, c :: p)
    else if !isdigit c then none
    else readWhole (strWhole ++ [c]) p

/-- `atoi64`. -/
def atoi64 (str : StdString) : ℤ := (strtol (cStr str)).1

/-- `ParseMoney` of a C string: `nRet`, or `none` for `false`. -/
def parseMoneyChars (pszIn : StdString) : Option ℤ := do
  let (strWhole, nUnits, p) ← readWhole [] (pszIn.dropWhile isspace)
  if p.any fun c => !isspace c then none
  else if strWhole.length > 10 then none
  else if nUnits < 0 || nUnits > coin then none
  else some (int64 (atoi64 strWhole * coin + nUnits))

/-- `ParseMoney` of a `string`. -/
def parseMoney (str : StdString) : Option ℤ := parseMoneyChars (cStr str)

/-! ## Decimals -/

/-- The multiplier when so many decimals can still be read. -/
def multiplier (j : ℕ) : ℤ := if j = 0 then 0 else 10 ^ (j - 1)

theorem multiplier_tdiv (j : ℕ) : (multiplier (j + 1)).tdiv 10 = multiplier j := by
  unfold multiplier
  rw [if_neg (Nat.succ_ne_zero j), Nat.add_sub_cancel]
  cases j with
  | zero => rfl
  | succ j =>
    rw [if_neg (Nat.succ_ne_zero j), Nat.add_sub_cancel, pow_succ]
    exact Int.mul_tdiv_cancel _ (by decide)

/-- What the decimals add to the units, when there could be `j` of them. -/
def units (j : ℕ) (frac : StdString) : ℤ := readDecimal frac * 10 ^ (j - frac.length)

theorem units_cons {j : ℕ} {c : UInt8} {frac : StdString} (hlen : frac.length ≤ j) :
    units (j + 1) (c :: frac) = multiplier (j + 1) * digitVal c + units j frac := by
  have hread : readDecimal (c :: frac) = digitVal c * 10 ^ frac.length + readDecimal frac := by
    have happend := readDecimal_append [c] frac
    rwa [show readDecimal [c] = digitVal c from value_singleton 10 _] at happend
  obtain ⟨i, rfl⟩ := Nat.exists_eq_add_of_le hlen
  have hi : frac.length + i + 1 - (frac.length + 1) = i := by omega
  have hi' : frac.length + i - frac.length = i := by omega
  rw [units, units, hread, multiplier, if_neg (Nat.succ_ne_zero _), Nat.add_sub_cancel,
    List.length_cons, hi, hi', pow_add]
  push_cast
  ring

/-- **What the loop over the decimals reads**: digits, as many as the multiplier allows. -/
theorem exists_of_readUnits (j : ℕ) (nUnits : ℤ) (p : StdString) : ∃ frac rest,
    p = frac ++ rest ∧ (∀ c ∈ frac, isdigit c = true) ∧ frac.length ≤ j ∧
    readUnits nUnits (multiplier j) p = (nUnits + units j frac, rest) := by
  induction p generalizing j nUnits with
  | nil => exact ⟨[], [], rfl, by simp, Nat.zero_le j, by simp [readUnits, units, readDecimal]⟩
  | cons c p ih =>
    rw [readUnits]
    split_ifs with hread
    · rw [Bool.and_eq_true, decide_eq_true_eq] at hread
      obtain ⟨j, rfl⟩ : ∃ i, j = i + 1 := by
        cases j with
        | zero => exact absurd hread.2 (by simp [multiplier])
        | succ j => exact ⟨j, rfl⟩
      obtain ⟨frac, rest, rfl, hfrac, hlen, hloop⟩ :=
        ih j (nUnits + multiplier (j + 1) * digitVal c)
      refine ⟨c :: frac, rest, rfl, List.forall_mem_cons.mpr ⟨hread.1, hfrac⟩,
        by simpa using hlen, ?_⟩
      rw [multiplier_tdiv, hloop, units_cons hlen]
      ring_nf
    · exact ⟨[], c :: p, rfl, by simp, Nat.zero_le j, by simp [units, readDecimal]⟩

/-- Decimals are read up to what follows them, which is no digit. -/
theorem readUnits_append {frac rest : StdString} {j : ℕ} (hfrac : ∀ c ∈ frac, isdigit c = true)
    (hlen : frac.length ≤ j) (hrest : ∀ c ∈ rest.head?, isdigit c = false) (nUnits : ℤ) :
    readUnits nUnits (multiplier j) (frac ++ rest) = (nUnits + units j frac, rest) := by
  induction frac generalizing j nUnits with
  | nil =>
    rw [List.nil_append]
    cases rest with
    | nil => simp [readUnits, units, readDecimal]
    | cons c rest =>
      rw [readUnits, hrest c rfl]
      simp [units, readDecimal]
  | cons c frac ih =>
    obtain ⟨j, rfl⟩ : ∃ i, j = i + 1 := Nat.exists_eq_succ_of_ne_zero (by
      rintro rfl
      simp at hlen)
    have hlen' : frac.length ≤ j := by simpa using hlen
    have hpos : 0 < multiplier (j + 1) := by
      rw [multiplier, if_neg (Nat.succ_ne_zero j)]
      positivity
    rw [List.cons_append, readUnits, if_pos (by simp [hfrac c List.mem_cons_self, hpos]),
      multiplier_tdiv, ih (fun c hc => hfrac c (List.mem_cons_of_mem _ hc)) hlen',
      units_cons hlen']
    ring_nf

theorem units_nonneg (j : ℕ) (frac : StdString) : 0 ≤ units j frac := by
  unfold units
  positivity

theorem units_lt {j : ℕ} {frac : StdString} (hfrac : ∀ c ∈ frac, isdigit c = true)
    (hlen : frac.length ≤ j) : units j frac < 10 ^ j := by
  have hread : (readDecimal frac : ℤ) < 10 ^ frac.length := by exact_mod_cast readDecimal_lt hfrac
  calc units j frac < 10 ^ frac.length * 10 ^ (j - frac.length) :=
        mul_lt_mul_of_pos_right hread (by positivity)
    _ = 10 ^ j := by rw [← pow_add, Nat.add_sub_cancel' hlen]

/-! ## The whole part -/

/-- Digits are taken into the whole part. -/
theorem readWhole_append {whole : StdString} (hwhole : ∀ c ∈ whole, isdigit c = true)
    (strWhole rest : StdString) :
    readWhole strWhole (whole ++ rest) = readWhole (strWhole ++ whole) rest := by
  induction whole generalizing strWhole with
  | nil => rw [List.nil_append, List.append_nil]
  | cons c whole ih =>
    have hdigit := hwhole c List.mem_cons_self
    have hpoint : c ≠ 46 := by
      rintro rfl
      exact absurd hdigit (by decide)
    rw [List.cons_append, readWhole, if_neg hpoint, isspace_of_isdigit hdigit,
      if_neg Bool.false_ne_true, hdigit, ih fun c hc => hwhole c (List.mem_cons_of_mem _ hc),
      List.append_assoc]
    rfl

/-- **What the loop over the whole part reads**: digits, and then the end, a blank, or a point with
decimals. -/
theorem exists_of_readWhole {strWhole strWhole' p p' : StdString} {nUnits : ℤ}
    (h : readWhole strWhole p = some (strWhole', nUnits, p')) : ∃ whole frac point,
      strWhole' = strWhole ++ whole ∧ p = whole ++ point ++ p' ∧ nUnits = units 8 frac ∧
      (point = [] ∧ frac = [] ∨ point = 46 :: frac) ∧ (∀ c ∈ whole, isdigit c = true) ∧
      (∀ c ∈ frac, isdigit c = true) ∧ frac.length ≤ 8 := by
  have hzero : units 8 [] = 0 := rfl
  induction p generalizing strWhole with
  | nil =>
    obtain ⟨rfl, rfl, rfl⟩ : strWhole = strWhole' ∧ 0 = nUnits ∧ [] = p' := by
      simpa [readWhole] using h
    exact ⟨[], [], [], by simp, rfl, hzero.symm, .inl ⟨rfl, rfl⟩, by simp, by simp, by simp⟩
  | cons c p ih =>
    rw [readWhole] at h
    split_ifs at h with hpoint hspace hdigit
    · obtain ⟨frac, rest, rfl, hfrac, hlen, hloop⟩ := exists_of_readUnits 8 0 p
      rw [show cent * 10 = multiplier 8 by decide, hloop] at h
      obtain ⟨rfl, rfl, rfl⟩ : strWhole = strWhole' ∧ 0 + units 8 frac = nUnits ∧ rest = p' := by
        simpa using h
      exact ⟨[], frac, 46 :: frac, by simp, by rw [hpoint]; rfl, zero_add _, .inr rfl, by simp,
        hfrac, hlen⟩
    · obtain ⟨rfl, rfl, rfl⟩ : strWhole = strWhole' ∧ 0 = nUnits ∧ c :: p = p' := by simpa using h
      exact ⟨[], [], [], by simp, rfl, hzero.symm, .inl ⟨rfl, rfl⟩, by simp, by simp, by simp⟩
    · obtain ⟨whole, frac, point, rfl, rfl, hunits, hfrac, hwhole, hdigits, hlen⟩ := ih h
      refine ⟨c :: whole, frac, point, by simp, rfl, hunits, hfrac, ?_, hdigits, hlen⟩
      exact List.forall_mem_cons.mpr ⟨by simpa using hdigit, hwhole⟩

/-! ## Texts of amounts -/

/-- **The texts of amounts**: blanks, at most ten digits, a point with at most eight digits or none,
and blanks. -/
structure MoneyText (s whole frac : StdString) : Prop where
  split : ∃ blanks point blanks', s = blanks ++ (whole ++ point ++ blanks') ∧
    (∀ c ∈ blanks, isspace c = true) ∧ (∀ c ∈ blanks', isspace c = true) ∧
    (point = [] ∧ frac = [] ∨ point = 46 :: frac)
  whole_digits : ∀ c ∈ whole, isdigit c = true
  whole_length : whole.length ≤ 10
  frac_digits : ∀ c ∈ frac, isdigit c = true
  frac_length : frac.length ≤ 8

/-- The number that a whole part and decimals write. -/
def decimalValue (whole frac : StdString) : ℚ :=
  readDecimal whole + readDecimal frac / 10 ^ frac.length

variable {s whole frac : StdString}

theorem atoi64_eq (hwhole : ∀ c ∈ whole, isdigit c = true) (hlen : whole.length ≤ 10) :
    atoi64 whole = readDecimal whole := by
  rw [atoi64, cStr_eq_self (zero_notMem_of_isdigit hwhole)]
  by_cases hne : whole = []
  · rw [hne]
    rfl
  · have hlong : LongText whole [] [] whole := ⟨rfl, by simp, .inl rfl, hwhole, hne⟩
    have hlt := readDecimal_lt hwhole
    have hpow : 10 ^ whole.length ≤ 10 ^ 10 := Nat.pow_le_pow_right (by omega) hlen
    have hsigned : signedNumber [] whole = readDecimal whole := rfl
    rw [hlong.strtol_eq, hsigned]
    show clampLong _ = _
    rw [clampLong, min_eq_left (by omega), max_eq_right (by omega)]

/-- The loop over the whole part of a text without the blanks in front. -/
theorem readWhole_text {point blanks' : StdString} (hwhole : ∀ c ∈ whole, isdigit c = true)
    (hfrac : ∀ c ∈ frac, isdigit c = true) (hlen : frac.length ≤ 8)
    (hpoint : point = [] ∧ frac = [] ∨ point = 46 :: frac)
    (hblanks : ∀ c ∈ blanks', isspace c = true) :
    readWhole [] (whole ++ point ++ blanks') = some (whole, units 8 frac, blanks') := by
  have hzero : units 8 [] = 0 := rfl
  rw [List.append_assoc, readWhole_append hwhole, List.nil_append]
  rcases hpoint with ⟨rfl, rfl⟩ | rfl
  · rw [List.nil_append, hzero]
    cases blanks' with
    | nil => rfl
    | cons c blanks' =>
      have hspace := hblanks c List.mem_cons_self
      have hne : c ≠ 46 := by
        rintro rfl
        exact absurd hspace (by decide)
      rw [readWhole, if_neg hne, if_pos hspace]
  · have hend : ∀ c ∈ blanks'.head?, isdigit c = false := by
      intro c hc
      have hspace := hblanks c (List.mem_of_head? hc)
      rw [Bool.eq_false_iff]
      intro hdigit
      rw [isspace_of_isdigit hdigit] at hspace
      cases hspace
    have hloop := readUnits_append hfrac hlen hend 0
    rw [List.cons_append, readWhole, if_pos rfl, show cent * 10 = multiplier 8 by decide, hloop,
      zero_add]

/-- **Such a text is read**, as its units. -/
theorem MoneyText.parseMoneyChars_eq (h : MoneyText s whole frac) :
    parseMoneyChars s = some (readDecimal whole * coin + units 8 frac) := by
  obtain ⟨⟨blanks, point, blanks', rfl, hblanks, hblanks', hpoint⟩, hwhole, hwlen, hfrac, hflen⟩ := h
  -- only a text of blanks is skipped whole
  obtain ⟨p, hread, hp⟩ : ∃ p,
      readWhole [] ((blanks ++ (whole ++ point ++ blanks')).dropWhile isspace) =
        some (whole, units 8 frac, p) ∧ ∀ c ∈ p, isspace c = true := by
    rw [List.dropWhile_append_of_pos hblanks]
    by_cases hempty : whole ++ point = []
    · obtain ⟨rfl, rfl⟩ := List.append_eq_nil_iff.mp hempty
      obtain ⟨-, rfl⟩ : True ∧ frac = [] := by simpa using hpoint
      rw [List.nil_append, List.nil_append, List.dropWhile_eq_nil_iff.mpr hblanks']
      exact ⟨[], rfl, by simp⟩
    · refine ⟨blanks', ?_, hblanks'⟩
      rw [dropWhile_isspace_eq_self, readWhole_text hwhole hfrac hflen hpoint hblanks']
      intro c hc
      rw [List.head?_append_of_ne_nil _ hempty] at hc
      rcases List.mem_append.mp (List.mem_of_head? hc) with hc | hc
      · exact isspace_of_isdigit (hwhole c hc)
      · rcases hpoint with ⟨rfl, -⟩ | rfl
        · cases hc
        · rcases List.mem_cons.mp hc with rfl | hc
          · rfl
          · exact isspace_of_isdigit (hfrac c hc)
  have hunits := units_nonneg 8 frac
  have hlt := units_lt hfrac hflen
  have hvalue : (readDecimal whole : ℤ) < 10 ^ 10 := by
    have := (readDecimal_lt hwhole).trans_le (Nat.pow_le_pow_right (by omega) hwlen)
    exact_mod_cast this
  have hcoin : coin = 10 ^ 8 := by decide
  have hany : (p.any fun c => !isspace c) = false := by
    rw [List.any_eq_false]
    intro c hc
    simp [hp c hc]
  have hrange : (decide (units 8 frac < 0) || decide (units 8 frac > coin)) = false := by
    rw [Bool.or_eq_false_iff, decide_eq_false_iff_not, decide_eq_false_iff_not, hcoin]
    omega
  rw [parseMoneyChars, hread, Option.bind_eq_bind, Option.bind_some]
  dsimp only
  rw [hany, if_neg Bool.false_ne_true, if_neg (by omega), hrange, if_neg Bool.false_ne_true,
    atoi64_eq hwhole hwlen, int64_eq_self (by rw [hcoin]; omega) (by rw [hcoin]; omega)]

/-- **What is read is such a text.** -/
theorem exists_moneyText {n : ℤ} (h : parseMoneyChars s = some n) :
    ∃ whole frac, MoneyText s whole frac := by
  rw [parseMoneyChars, Option.bind_eq_bind, Option.bind_eq_some_iff] at h
  obtain ⟨⟨strWhole, nUnits, p⟩, hread, h⟩ := h
  obtain ⟨whole, frac, point, heq, hp, -, hpoint, hwhole, hfrac, hflen⟩ := exists_of_readWhole hread
  rw [List.nil_append] at heq
  subst heq
  dsimp only at h
  split_ifs at h with hblank hlen
  refine ⟨strWhole, frac, ⟨s.takeWhile isspace, point, p, ?_, ?_, ?_, hpoint⟩, hwhole, ?_, hfrac,
    hflen⟩
  · rw [← hp, List.takeWhile_append_dropWhile]
  · exact fun c hc => List.mem_takeWhile_imp hc
  · intro c hc
    by_contra hc'
    exact hblank (List.any_eq_true.mpr ⟨c, hc, by simpa using hc'⟩)
  · omega

/-- There is no zero in such a text. -/
theorem MoneyText.zero_notMem (h : MoneyText s whole frac) : 0 ∉ s := by
  obtain ⟨⟨blanks, point, blanks', rfl, hblanks, hblanks', hpoint⟩, hwhole, -, hfrac, -⟩ := h
  have hspace : isspace 0 = false := by decide
  intro hzero
  rcases List.mem_append.mp hzero with hzero | hzero
  · rw [hblanks 0 hzero] at hspace
    cases hspace
  · rcases List.mem_append.mp hzero with hzero | hzero
    · rcases List.mem_append.mp hzero with hzero | hzero
      · exact zero_notMem_of_isdigit hwhole hzero
      · rcases hpoint with ⟨rfl, -⟩ | rfl
        · cases hzero
        · refine zero_notMem_of_isdigit hfrac (List.mem_of_ne_of_mem ?_ hzero)
          decide
    · rw [hblanks' 0 hzero] at hspace
      cases hspace

/-- The units of a text are its value in coins. -/
theorem MoneyText.cast_eq (h : MoneyText s whole frac) :
    ((readDecimal whole * coin + units 8 frac : ℤ) : ℚ) = decimalValue whole frac * coin := by
  have hcoin : (coin : ℚ) = 10 ^ frac.length * 10 ^ (8 - frac.length) := by
    rw [← pow_add, Nat.add_sub_cancel' h.frac_length]
    norm_num [coin]
  have hpos : (10 : ℚ) ^ frac.length ≠ 0 := by positivity
  rw [decimalValue, units]
  push_cast
  rw [hcoin]
  field_simp

/-! ## Amounts that are written -/

theorem trimZeros_cons (c : UInt8) (s : StdString) :
    trimZeros (c :: s) = c :: s ∨ c = 48 ∧ trimZeros (c :: s) = trimZeros s := by
  match s with
  | [] => exact .inl rfl
  | [d] => exact .inl rfl
  | d :: e :: s =>
    rw [trimZeros]
    split_ifs with htrim
    · rw [Bool.and_eq_true, decide_eq_true_eq] at htrim
      exact .inr ⟨htrim.1, rfl⟩
    · exact .inl rfl

/-- **Only zeros behind the point are trimmed.** -/
theorem exists_of_trimZeros (t u : StdString) :
    ∃ k t', t = List.replicate k 48 ++ t' ∧ trimZeros (t ++ 46 :: u) = t' ++ 46 :: u := by
  induction t with
  | nil =>
    refine ⟨0, [], rfl, ?_⟩
    rcases trimZeros_cons 46 u with h | ⟨h, -⟩
    · exact h
    · cases h
  | cons c t ih =>
    rcases trimZeros_cons c (t ++ 46 :: u) with h | ⟨rfl, h⟩
    · exact ⟨0, c :: t, rfl, h⟩
    · obtain ⟨k, t', rfl, htrim⟩ := ih
      exact ⟨k + 1, t', by rw [List.replicate_succ, List.cons_append], h.trans htrim⟩

/-- What `FormatMoney` writes of the decimals: zeros at the end are left out. -/
theorem exists_of_trim (whole frac : StdString) : ∃ k frac', frac = frac' ++ List.replicate k 48 ∧
    (trimZeros (whole ++ literal "." ++ frac).reverse).reverse = whole ++ 46 :: frac' := by
  obtain ⟨k, t, ht, htrim⟩ := exists_of_trimZeros frac.reverse whole.reverse
  have hreverse : (whole ++ literal "." ++ frac).reverse = frac.reverse ++ 46 :: whole.reverse := by
    rw [List.reverse_append, List.reverse_append]
    rfl
  refine ⟨k, t.reverse, ?_, ?_⟩
  · rw [← List.reverse_reverse frac, ht, List.reverse_append, List.reverse_replicate]
  · rw [hreverse, htrim]
    simp

/-- Zeros at the end do not change the units. -/
theorem units_append_replicate {frac : StdString} {j k : ℕ} (h : frac.length + k ≤ j) :
    units j (frac ++ List.replicate k 48) = units j frac := by
  obtain ⟨i, rfl⟩ := Nat.exists_eq_add_of_le h
  have hzero : readDecimal (List.replicate k 48) = 0 := by
    have hread := readDecimal_replicate_append k []
    rwa [List.append_nil] at hread
  have hi : frac.length + k + i - (frac.length + k) = i := by omega
  have hki : frac.length + k + i - frac.length = k + i := by omega
  rw [units, units, readDecimal_append, hzero, List.length_append, List.length_replicate, hi, hki,
    pow_add]
  push_cast
  ring

/-- **The text of an amount.** -/
theorem exists_moneyText_formatMoney {n : ℤ} (h : 0 ≤ n) (hmax : n ≤ maxMoney) :
    ∃ whole frac, MoneyText (formatMoney n false) whole frac ∧
      readDecimal whole * coin + units 8 frac = n := by
  have hcoin : coin = ((10 ^ 8 : ℕ) : ℤ) := by decide
  have hmaxMoney : maxMoney < 10 ^ 18 := by decide
  obtain ⟨m, rfl⟩ := Int.eq_ofNat_of_zero_le h
  have hnabs : (if (0 : ℤ) < m then (m : ℤ) else -m) = m := by
    split_ifs with hpos
    · rfl
    · omega
  have hquot : ((m : ℤ).tdiv coin).toNat = m / 10 ^ 8 := by
    rw [hcoin, Int.tdiv_eq_ediv_of_nonneg h]
    exact_mod_cast Int.toNat_natCast _
  have hrem : ((m : ℤ).tmod coin).toNat = m % 10 ^ 8 := by
    rw [hcoin, Int.tmod_eq_emod_of_nonneg h]
    exact_mod_cast Int.toNat_natCast _
  obtain ⟨hdigits, hlength, hread⟩ :=
    paddedDecimal_spec (show 0 < 8 by decide) (Nat.mod_lt m (show 0 < 10 ^ 8 by decide))
  obtain ⟨k, frac, hfrac, htrim⟩ :=
    exists_of_trim (decimal (m / 10 ^ 8)) (paddedDecimal 8 (m % 10 ^ 8))
  have hformat : formatMoney m false = decimal (m / 10 ^ 8) ++ 46 :: frac := by
    rw [formatMoney, hnabs, hquot, hrem, htrim, if_neg (by omega), Bool.false_and,
      if_neg Bool.false_ne_true]
  have hlen : frac.length + k = 8 := by
    rw [← hlength, hfrac, List.length_append, List.length_replicate]
  refine ⟨decimal (m / 10 ^ 8), frac, ⟨⟨[], 46 :: frac, [], ?_, by simp, by simp, .inr rfl⟩,
    isdigit_decimal _, length_decimal_le (by decide) ?_, fun c hc => hdigits c ?_, by omega⟩, ?_⟩
  · rw [hformat, List.append_nil, List.nil_append]
  · exact Nat.div_lt_of_lt_mul (by omega)
  · rw [hfrac]
    exact List.mem_append_left _ hc
  · have hunits : units 8 frac = (m % 10 ^ 8 : ℕ) := by
      rw [← units_append_replicate hlen.le, ← hfrac, units, hread, hlength]
      simp
    rw [readDecimal_decimal, hunits, hcoin]
    exact_mod_cast Nat.div_add_mod' m (10 ^ 8)

/-- **`ParseMoney` inverts `FormatMoney`, and reads just the texts of amounts, by their value.** -/
theorem parseMoney_iff :
    (∀ n, 0 ≤ n → n ≤ maxMoney → parseMoney (formatMoney n false) = some n) ∧
    ∀ s : StdString, 0 ∉ s →
      ((∃ n, parseMoney s = some n) ↔ ∃ whole frac, MoneyText s whole frac) ∧
      ∀ whole frac n, MoneyText s whole frac → parseMoney s = some n →
        (n : ℚ) = decimalValue whole frac * coin := by
  refine ⟨fun n h hmax => ?_, fun s hzero => ?_⟩
  · obtain ⟨whole, frac, htext, hvalue⟩ := exists_moneyText_formatMoney h hmax
    rw [parseMoney, cStr_eq_self htext.zero_notMem, htext.parseMoneyChars_eq, hvalue]
  · rw [parseMoney, cStr_eq_self hzero]
    refine ⟨⟨fun ⟨n, h⟩ => exists_moneyText h, ?_⟩, ?_⟩
    · rintro ⟨whole, frac, htext⟩
      exact ⟨_, htext.parseMoneyChars_eq⟩
    · intro whole frac n htext hparse
      rw [htext.parseMoneyChars_eq, Option.some_inj] at hparse
      rw [← hparse, htext.cast_eq]

end FoxCoin
