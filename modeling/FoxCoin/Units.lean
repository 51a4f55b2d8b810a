import FoxCoin.AddressTable
import FoxCoin.Decimal

/-! # Amounts on the screen

`FoxcoinUnits` writes an amount in a unit, with the digits of its whole part in groups as in
English, and reads an amount back from its digits, which must not be in groups. -/

namespace FoxCoin

/-! ## Qt -/

/-- `QString::fromLatin1`. -/
def latin1 (s : StdString) : QString := s.map Char.ofUInt8

/-- A comma before every three digits but the first ones, of a string from its last digit on. -/
def groupThousands : QString → QString
  | a :: b :: c :: d :: s => a :: b :: c :: ',' :: groupThousands (d :: s)
  | s => s

/-- What the units need of Qt's numbers: `QLocale(QLocale::English).toString` puts digits in groups,
and `QString::toLongLong` reads digits and refuses such groups. -/
structure QtNumbers where
  toString : ℤ → QString
  toLongLong : QString → Option ℤ
  toString_natCast (n : ℕ) (h : n < 2 ^ 63) :
    toString n = (groupThousands (latin1 (decimal n)).reverse).reverse
  toLongLong_latin1 (ds : StdString) (hdigits : ∀ c ∈ ds, isdigit c = true) (hne : ds ≠ [])
    (h : readDecimal ds < 2 ^ 63) : toLongLong (latin1 ds) = some (readDecimal ds : ℤ)
  toLongLong_comma (s : QString) (h : ',' ∈ s) : toLongLong s = none

/-- `QString::number`. -/
def QString.number (n : ℤ) : QString :=
  if n < 0 then '-' :: latin1 (decimal (-n).toNat) else latin1 (decimal n.toNat)

/-! ## The code -/

/-- The units. -/
inductive FoxcoinUnit
  | FOX
  | mFOX
  | uFOX
  | nFOX
  | KFOX
  | MFOX
  | GFOX
  deriving DecidableEq

/-- A unit as an `int`. -/
def FoxcoinUnit.toInt : FoxcoinUnit → ℤ
  | FOX => 0
  | mFOX => 1
  | uFOX => 2
  | nFOX => 3
  | KFOX => 4
  | MFOX => 5
  | GFOX => 6

/-- The unit that an `int` stands for: what a `switch` does. -/
def FoxcoinUnit.ofInt : ℤ → Option FoxcoinUnit
  | 0 => some FOX
  | 1 => some mFOX
  | 2 => some uFOX
  | 3 => some nFOX
  | 4 => some KFOX
  | 5 => some MFOX
  | 6 => some GFOX
  | _ => none

namespace FoxcoinUnits

/-- `valid`. -/
def valid (unit : ℤ) : Bool := (FoxcoinUnit.ofInt unit).isSome

/-- `factor`. -/
def factor (unit : ℤ) : ℤ :=
  match FoxcoinUnit.ofInt unit with
  | some .FOX => 100000000
  | some .mFOX => 100000
  | some .uFOX => 100
  | some .nFOX => 1
  | some .KFOX => 100000000000
  | some .MFOX => 100000000000000
  | some .GFOX => 100000000000000000
  | none => 100000000

/-- `decimals`. -/
def decimals (unit : ℤ) : ℕ :=
  match FoxcoinUnit.ofInt unit with
  | some .FOX => 8
  | some .mFOX => 5
  | some .uFOX => 2
  | some .nFOX => 0
  | some .KFOX => 11
  | some .MFOX => 14
  | some .GFOX => 17
  | none => 0

/-- The zeros at the end that `format` trims, of a string from its last character on: two characters
stay. -/
def trimZeros : QString → QString
  | c :: s => if 2 ≤ s.length ∧ c = '0' then trimZeros s else c :: s
  | [] => []

/-- `format`. -/
def format (qt : QtNumbers) (unit n : ℤ) (fPlus : Bool) : QString :=
  if !valid unit then []
  else
    let coin := factor unit
    let num_decimals := decimals unit
    let n_abs := if 0 < n then n else -n
    let quotient := n_abs.tdiv coin
    let remainder := n_abs.tmod coin
    let quotient_str := qt.toString quotient
    let remainder_str := (QString.number remainder).leftpad num_decimals '0'
    let remainder_str := (trimZeros remainder_str.reverse).reverse
    let quotient_str :=
      if n < 0 then '-' :: quotient_str
      else if fPlus && 0 < n then '+' :: quotient_str else quotient_str
    quotient_str ++ ['.'] ++ remainder_str

/-- `parse`: what it returns, and what it writes to `val_out`. -/
def parse (qt : QtNumbers) (unit : ℤ) (value : QString) : Bool × Option ℤ :=
  if !valid unit || value.isEmpty then (false, none)
  else
    let num_decimals := decimals unit
    let parts := value.splitOn '.'
    if 2 < parts.length then (false, none)
    else
      let whole := parts.headD []
      let decimals := if 1 < parts.length then parts.getD 1 [] else []
      if num_decimals < decimals.length then (false, none)
      else
        let str := whole ++ decimals.rightpad num_decimals '0'
        if 18 < str.length then (false, none)
        else
          let retvalue := qt.toLongLong str
          (retvalue.isSome, some (retvalue.getD 0))

/-! ## Strings -/

theorem ofUInt8_inj {b b' : UInt8} (h : Char.ofUInt8 b = Char.ofUInt8 b') : b = b' := by
  have hval := congrArg Char.toUInt8 h
  rwa [show (Char.ofUInt8 b).toUInt8 = b from UInt8.toUInt8_toUInt32 b,
    show (Char.ofUInt8 b').toUInt8 = b' from UInt8.toUInt8_toUInt32 b'] at hval

/-- Nothing but digits stands in digits. -/
theorem notMem_latin1 {ds : StdString} {b : UInt8} (h : ∀ c ∈ ds, isdigit c = true)
    (hb : isdigit b = false) : Char.ofUInt8 b ∉ latin1 ds := by
  intro hmem
  obtain ⟨b', hb', heq⟩ := List.mem_map.mp hmem
  rw [← ofUInt8_inj heq, h b' hb'] at hb
  cases hb

theorem point_notMem_latin1 {ds : StdString} (h : ∀ c ∈ ds, isdigit c = true) : '.' ∉ latin1 ds :=
  notMem_latin1 (b := 46) h rfl

theorem map_toUInt8_latin1 (s : StdString) : (latin1 s).map Char.toUInt8 = s := by
  rw [latin1, List.map_map]
  exact (List.map_congr_left fun b _ => UInt8.toUInt8_toUInt32 b).trans (List.map_id s)

/-- Qt's numbers, for strings of digits. -/
def plainNumbers : QtNumbers where
  toString n := (groupThousands (latin1 (decimal n.toNat)).reverse).reverse
  toLongLong s :=
    let ds := s.map Char.toUInt8
    if s = latin1 ds ∧ ds.all isdigit = true ∧ ds ≠ [] ∧ readDecimal ds < 2 ^ 63 then
      some (readDecimal ds)
    else none
  toString_natCast n _ := by rw [Int.toNat_natCast]
  toLongLong_latin1 ds hdigits hne h := by
    rw [map_toUInt8_latin1]
    exact if_pos ⟨rfl, List.all_eq_true.mpr hdigits, hne, h⟩
  toLongLong_comma s h := by
    refine if_neg ?_
    rintro ⟨heq, hdigits, -, -⟩
    rw [heq] at h
    exact notMem_latin1 (b := 44) (List.all_eq_true.mp hdigits) rfl h

theorem latin1_append (s t : StdString) : latin1 (s ++ t) = latin1 s ++ latin1 t := List.map_append

theorem latin1_leftpad (s : StdString) (k : ℕ) :
    latin1 (s.leftpad k 48) = (latin1 s).leftpad k '0' := by
  rw [List.leftpad, latin1_append, List.leftpad, latin1, latin1, List.map_replicate,
    List.length_map]
  rfl

/-- Three digits are one group. -/
theorem groupThousands_eq_self {s : QString} (h : s.length ≤ 3) : groupThousands s = s := by
  match s, h with
  | [], _ => rfl
  | [a], _ => rfl
  | [a, b], _ => rfl
  | [a, b, c], _ => rfl

/-- There is a comma as soon as there are more. -/
theorem comma_mem_groupThousands {s : QString} (h : 3 < s.length) : ',' ∈ groupThousands s := by
  match s, h with
  | a :: b :: c :: d :: s, _ =>
    rw [groupThousands]
    simp

/-- Nothing else is put in. -/
theorem mem_groupThousands {s : QString} {c : Char} (h : c ∈ groupThousands s) :
    c = ',' ∨ c ∈ s := by
  fun_induction groupThousands s with
  | case1 a b c' d s ih =>
    simp only [List.mem_cons] at h ih ⊢
    rcases h with rfl | rfl | rfl | rfl | h
    · simp
    · simp
    · simp
    · simp
    · rcases ih h with rfl | rfl | h
      · simp
      · simp
      · simp [h]
  | case2 s hs => exact .inr h

/-- Trimming takes zeros from the end. -/
theorem exists_of_trimZeros (s : QString) : ∃ k, s = List.replicate k '0' ++ trimZeros s := by
  induction s with
  | nil => exact ⟨0, rfl⟩
  | cons c s ih =>
    rw [trimZeros]
    split_ifs with htrim
    · obtain ⟨k, hs⟩ := ih
      exact ⟨k + 1, by rw [List.replicate_succ, List.cons_append, ← hs, htrim.2]⟩
    · exact ⟨0, rfl⟩

/-! ## Units -/

variable {qt : QtNumbers} {u : FoxcoinUnit}

theorem valid_toInt (u : FoxcoinUnit) : valid u.toInt = true := by
  cases u <;> rfl

/-- The factor of a unit and its number of decimals agree. -/
theorem factor_eq (u : FoxcoinUnit) : factor u.toInt = ((10 ^ decimals u.toInt : ℕ) : ℤ) := by
  cases u <;> rfl

theorem decimals_le (u : FoxcoinUnit) : decimals u.toInt ≤ 17 := by
  cases u <;> decide

theorem two_le_decimals (h : u ≠ .nFOX) : 2 ≤ decimals u.toInt := by
  cases u
  case nFOX => exact absurd rfl h
  all_goals decide

/-! ## What is written, and how it is read -/

/-- The text of an amount that is not negative. -/
theorem format_natCast (m : ℕ) : format qt u.toInt m false =
    qt.toString ((m / 10 ^ decimals u.toInt : ℕ) : ℤ) ++ '.' ::
      (trimZeros (latin1 (paddedDecimal (decimals u.toInt)
        (m % 10 ^ decimals u.toInt))).reverse).reverse := by
  have hnabs : (if (0 : ℤ) < m then (m : ℤ) else -m) = m := by
    split_ifs with hpos
    · rfl
    · omega
  have hquot : (m : ℤ).tdiv (factor u.toInt) = ((m / 10 ^ decimals u.toInt : ℕ) : ℤ) := by
    rw [factor_eq, Int.tdiv_eq_ediv_of_nonneg (Int.natCast_nonneg m), Int.natCast_div]
  have hrem : (m : ℤ).tmod (factor u.toInt) = ((m % 10 ^ decimals u.toInt : ℕ) : ℤ) := by
    rw [factor_eq, Int.tmod_eq_emod_of_nonneg (Int.natCast_nonneg m), Int.natCast_mod]
  have hnumber (r : ℕ) : QString.number (r : ℤ) = latin1 (decimal r) := by
    rw [QString.number, if_neg (by omega), Int.toNat_natCast]
  rw [format, valid_toInt, Bool.not_true, if_neg Bool.false_ne_true, hnabs]
  dsimp only
  rw [hquot, hrem, hnumber, if_neg (by omega), Bool.false_and, if_neg Bool.false_ne_true,
    ← latin1_leftpad, List.append_assoc]
  rfl

/-- A text with one point is read as its two parts. -/
theorem parse_append {whole frac : QString} (hwhole : '.' ∉ whole) (hfrac : '.' ∉ frac) :
    parse qt u.toInt (whole ++ '.' :: frac) =
      if decimals u.toInt < frac.length then (false, none)
      else if 18 < (whole ++ frac.rightpad (decimals u.toInt) '0').length then (false, none)
      else ((qt.toLongLong (whole ++ frac.rightpad (decimals u.toInt) '0')).isSome,
        some ((qt.toLongLong (whole ++ frac.rightpad (decimals u.toInt) '0')).getD 0)) := by
  have hne (s : QString) (hs : '.' ∉ s) : ∀ c ∈ s, (c == '.') = false := by
    intro c hc
    rw [beq_eq_false_iff_ne]
    rintro rfl
    exact hs hc
  have hsplit : (whole ++ '.' :: frac).splitOn '.' = [whole, frac] := by
    rw [List.splitOn_eq_splitOnP,
      List.splitOnP_append_cons_of_forall_mem (hne whole hwhole) '.' (by rfl),
      List.splitOnP_eq_singleton (hne frac hfrac)]
  have hempty : (whole ++ '.' :: frac).isEmpty = false := by
    cases whole <;> rfl
  rw [parse, valid_toInt, hempty, hsplit, Bool.not_true, Bool.or_false, if_neg Bool.false_ne_true]
  rfl

/-- A small whole part is one group. -/
theorem toString_of_lt {q : ℕ} (h : q < 1000) : qt.toString q = latin1 (decimal q) := by
  have hlen := length_decimal_le (show 0 < 3 by decide) (show q < 10 ^ 3 from h)
  rw [qt.toString_natCast q (by omega), groupThousands_eq_self, List.reverse_reverse]
  rw [List.length_reverse, latin1, List.length_map]
  exact hlen

/-- A large whole part has more groups. -/
theorem comma_mem_toString {q : ℕ} (h : 1000 ≤ q) (h' : q < 2 ^ 63) : ',' ∈ qt.toString q := by
  rw [qt.toString_natCast q h', List.mem_reverse]
  apply comma_mem_groupThousands
  rw [List.length_reverse, latin1, List.length_map]
  by_contra hlen
  have hread := readDecimal_lt (isdigit_decimal q)
  have hpow := Nat.pow_le_pow_right (show 0 < 10 by decide) (not_lt.mp hlen)
  rw [readDecimal_decimal] at hread
  omega

theorem point_notMem_toString {q : ℕ} (h : q < 2 ^ 63) : '.' ∉ qt.toString q := by
  rw [qt.toString_natCast q h, List.mem_reverse]
  intro hmem
  rcases mem_groupThousands hmem with heq | hmem
  · revert heq
    decide
  · exact point_notMem_latin1 (isdigit_decimal q) (List.mem_reverse.mp hmem)

/-- **Trimming and padding cancel.** -/
theorem trimZeros_spec (s : QString) :
    ((trimZeros s.reverse).reverse).rightpad s.length '0' = s ∧
    (trimZeros s.reverse).reverse.length ≤ s.length ∧
    ∀ c ∈ (trimZeros s.reverse).reverse, c ∈ s := by
  obtain ⟨k, hs⟩ := exists_of_trimZeros s.reverse
  have heq : s = (trimZeros s.reverse).reverse ++ List.replicate k '0' := by
    rw [← List.reverse_replicate, ← List.reverse_append, ← hs, List.reverse_reverse]
  have hlen : s.length = (trimZeros s.reverse).reverse.length + k := by
    conv_lhs => rw [heq]
    rw [List.length_append, List.length_replicate]
  refine ⟨?_, by omega, fun c hc => ?_⟩
  · rw [List.rightpad, hlen, Nat.add_sub_cancel_left]
    exact heq.symm
  · rw [heq]
    exact List.mem_append_left _ hc

/-- **What is shown is read back exactly when the unit has decimals and the whole part has no
groups.** -/
theorem parse_format_iff (qt : QtNumbers) (u : FoxcoinUnit) (n : ℤ) (h : 0 ≤ n)
    (hmax : n ≤ maxMoney) :
    parse qt u.toInt (format qt u.toInt n false) = (true, some n) ↔
      u ≠ .nFOX ∧ n < 1000 * factor u.toInt := by
  have hmaxMoney : maxMoney = ((10 ^ 17 : ℕ) : ℤ) := by decide
  obtain ⟨m, rfl⟩ := Int.eq_ofNat_of_zero_le h
  have hm : m ≤ 10 ^ 17 := by
    rw [hmaxMoney] at hmax
    exact_mod_cast hmax
  have hq : m / 10 ^ decimals u.toInt ≤ m := Nat.div_le_self _ _
  have hpoint : '.' ∉ qt.toString ((m / 10 ^ decimals u.toInt : ℕ) : ℤ) :=
    point_notMem_toString (by omega)
  by_cases hu : u = .nFOX
  · -- its one digit behind the point is one too many
    subst hu
    have hone : trimZeros (latin1 (paddedDecimal 0 (m % 10 ^ 0))).reverse = ['0'] := by
      rw [pow_zero, Nat.mod_one]
      rfl
    have hparse : parse qt (FoxcoinUnit.toInt .nFOX) (format qt (FoxcoinUnit.toInt .nFOX) m false) =
        (false, none) := by
      rw [format_natCast]
      show parse qt _ (_ ++ '.' ::
        (trimZeros (latin1 (paddedDecimal 0 (m % 10 ^ 0))).reverse).reverse) = _
      rw [hone, parse_append hpoint (by decide), if_pos (by decide)]
    rw [hparse]
    simp
  · have hdecimals := two_le_decimals hu
    have hle := decimals_le u
    obtain ⟨hdigits, hlength, hread⟩ := paddedDecimal_spec
      (show 0 < decimals u.toInt by omega)
      (Nat.mod_lt m (show 0 < 10 ^ decimals u.toInt by positivity))
    have hlatin : (latin1 (paddedDecimal (decimals u.toInt) (m % 10 ^ decimals u.toInt))).length =
        decimals u.toInt := by rw [latin1, List.length_map, hlength]
    obtain ⟨hpad, htrim, hmem⟩ :=
      trimZeros_spec (latin1 (paddedDecimal (decimals u.toInt) (m % 10 ^ decimals u.toInt)))
    rw [hlatin] at hpad htrim
    have hfrac := fun hc => point_notMem_latin1 hdigits (hmem '.' hc)
    rw [format_natCast, parse_append hpoint hfrac, if_neg (not_lt.mpr htrim), hpad]
    have hiff : (m : ℤ) < 1000 * factor u.toInt ↔ m / 10 ^ decimals u.toInt < 1000 := by
      rw [factor_eq, Nat.div_lt_iff_lt_mul (by positivity)]
      exact_mod_cast Iff.rfl
    rw [hiff]
    by_cases hsmall : m / 10 ^ decimals u.toInt < 1000
    · -- one group: the digits of the amount
      have hlen : (decimal (m / 10 ^ decimals u.toInt)).length ≤ 18 - decimals u.toInt := by
        refine length_decimal_le (by omega) (Nat.div_lt_of_lt_mul ?_)
        rw [← pow_add, Nat.add_sub_cancel' (by omega)]
        omega
      have hdigits' : ∀ c ∈ decimal (m / 10 ^ decimals u.toInt) ++
          paddedDecimal (decimals u.toInt) (m % 10 ^ decimals u.toInt), isdigit c = true := by
        intro c hc
        rcases List.mem_append.mp hc with hc | hc
        · exact isdigit_decimal _ c hc
        · exact hdigits c hc
      have hvalue : readDecimal (decimal (m / 10 ^ decimals u.toInt) ++
          paddedDecimal (decimals u.toInt) (m % 10 ^ decimals u.toInt)) = m := by
        rw [readDecimal_append, readDecimal_decimal, hread, hlength, Nat.div_add_mod']
      rw [toString_of_lt hsmall, ← latin1_append, qt.toLongLong_latin1 _ hdigits' ?_ ?_, hvalue,
        if_neg ?_]
      · simp [hu, hsmall]
      · rw [latin1, List.length_map, List.length_append, hlength]
        omega
      · exact List.append_ne_nil_of_left_ne_nil (decimal_ne_nil _) _
      · rw [hvalue]
        omega
    · -- a comma, which is refused
      have hcomma : ',' ∈ qt.toString ((m / 10 ^ decimals u.toInt : ℕ) : ℤ) ++
          latin1 (paddedDecimal (decimals u.toInt) (m % 10 ^ decimals u.toInt)) :=
        List.mem_append_left _ (comma_mem_toString (not_lt.mp hsmall) (by omega))
      rw [qt.toLongLong_comma _ hcomma]
      split_ifs
      · simp [hsmall]
      · simp [hsmall]

theorem parse_format_small : parse plainNumbers 0 (format plainNumbers 0 150000000 false) =
    (true, some 150000000) :=
  (parse_format_iff plainNumbers .FOX 150000000 (by decide) (by decide)).mpr ⟨by decide, by decide⟩

/-- A thousand coins are shown as `1,000.00`, which is not read back. -/
theorem not_parse_format : ¬∀ (qt : QtNumbers) (u : FoxcoinUnit) (n : ℤ), 0 ≤ n → n ≤ maxMoney →
    parse qt u.toInt (format qt u.toInt n false) = (true, some n) := by
  intro hall
  have hparse : parse plainNumbers 0 (format plainNumbers 0 100000000000 false) =
      (false, some 0) := by
    decide +kernel
  have hclaim := hall plainNumbers .FOX 100000000000 (by decide) (by decide)
  rw [show FoxcoinUnit.FOX.toInt = 0 from rfl, hparse] at hclaim
  cases hclaim

end FoxcoinUnits

end FoxCoin
