import Mathlib.Data.List.TakeWhile
import Mathlib.Tactic

/-! # Strings of bytes

A `std::string` holds any bytes. The functions that get a `const char*` see the bytes before the
first NUL, and test characters with the functions of the C locale. -/

namespace FoxCoin

/-- A `std::string`. -/
abbrev StdString := List UInt8

/-- The bytes of an ASCII literal. -/
def literal (s : String) : StdString := s.toList.map fun c => UInt8.ofNat c.toNat

/-- `c_str()`: what is read up to the NUL. -/
def cStr (s : StdString) : StdString := s.takeWhile (· ≠ 0)

/-- `isspace`. -/
def isspace (c : UInt8) : Bool := c = 32 || (9 ≤ c && c ≤ 13)

/-- `isdigit`. -/
def isdigit (c : UInt8) : Bool := 48 ≤ c && c ≤ 57

/-- `tolower`. -/
def tolower (c : UInt8) : UInt8 := if 65 ≤ c ∧ c ≤ 90 then c + 32 else c

/-- A string without a NUL is read whole. -/
theorem cStr_eq_self {s : StdString} (h : 0 ∉ s) : cStr s = s := by
  refine List.takeWhile_eq_self_iff.mpr fun c hc => ?_
  have hne : c ≠ 0 := ne_of_mem_of_not_mem hc h
  simpa using hne

/-- Leading blanks are skipped up to a character that is none. -/
theorem dropWhile_isspace_eq_self {s : StdString} (h : ∀ c ∈ s.head?, isspace c = false) :
    s.dropWhile isspace = s := by
  cases s with
  | nil => rfl
  | cons c s =>
    have hc := h c rfl
    exact List.dropWhile_cons_of_neg (by simp [hc])

/-! ## Bytes and numbers -/

theorem toNat_lt_of_mem {s : StdString} : ∀ n ∈ s.map UInt8.toNat, n < 256 := by
  intro n hn
  obtain ⟨byte, -, rfl⟩ := List.mem_map.mp hn
  exact byte.toNat_lt

theorem map_ofNat_map_toNat (s : StdString) : (s.map UInt8.toNat).map UInt8.ofNat = s := by
  rw [List.map_map]
  exact (List.map_congr_left fun byte _ => UInt8.ofNat_toNat).trans (List.map_id s)

theorem map_toNat_map_ofNat {ns : List ℕ} (h : ∀ n ∈ ns, n < 256) :
    (ns.map UInt8.ofNat).map UInt8.toNat = ns := by
  rw [List.map_map]
  refine (List.map_congr_left fun n hn => ?_).trans (List.map_id ns)
  exact UInt8.toNat_ofNat_of_lt' (h n hn)

end FoxCoin
