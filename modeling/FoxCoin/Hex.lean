import FoxCoin.DataModel
import FoxCoin.CString
import FoxCoin.Lib.Positional

/-! # Hashes in hexadecimal

`GetHex` writes a hash with two digits for each byte, the most significant byte first. `SetHex` takes
the hexadecimal digits that a string begins with, after blanks and a `0x`. -/

namespace FoxCoin

open Positional

/-- The character of a digit of `%02x`. -/
def hexChar (d : ℕ) : UInt8 := if d < 10 then UInt8.ofNat (48 + d) else UInt8.ofNat (87 + d)

/-- The table `phexdigit`. -/
def phexdigit (c : UInt8) : ℕ :=
  if 48 ≤ c ∧ c ≤ 57 then c.toNat - 48
  else if 65 ≤ c ∧ c ≤ 70 then c.toNat - 55
  else if 97 ≤ c ∧ c ≤ 102 then c.toNat - 87
  else 0

/-- `uint256::GetHex`, which is `ToString`. -/
def getHex (hash : Uint256) : StdString := ((digits 16 hash).leftpad 64 0).map hexChar

/-- Skip a `0x`. -/
def skip0x : StdString → StdString
  | 48 :: c :: psz => if tolower c = 120 then psz else 48 :: c :: psz
  | psz => psz

/-- The digits that `SetHex` reads. -/
def hexDigits (str : StdString) : List ℕ :=
  ((skip0x ((cStr str).dropWhile isspace)).takeWhile
    fun c => decide (phexdigit c ≠ 0) || decide (c = 48)).map phexdigit

/-- `uint256::SetHex`. The bytes are filled from the last digit on, as far as there is room. -/
def setHex (str : StdString) : Uint256 := value 16 (hexDigits str) % 2 ^ 256

/-! ## Reading back -/

/-- What the functions above need to know of the sixteen characters. -/
theorem hexChar_spec : ∀ d < 16, phexdigit (hexChar d) = d ∧
    (decide (phexdigit (hexChar d) ≠ 0) || decide (hexChar d = 48)) = true ∧
    hexChar d ≠ 0 ∧ isspace (hexChar d) = false ∧ tolower (hexChar d) ≠ 120 := by
  decide

/-- The digits that `GetHex` writes. -/
theorem lt_of_mem_leftpad {hash : Uint256} : ∀ d ∈ (digits 16 hash).leftpad 64 0, d < 16 := by
  intro d hd
  rw [List.leftpad, List.mem_append] at hd
  obtain hzero | hdigit := hd
  · rw [List.eq_of_mem_replicate hzero]
    norm_num
  · exact digits_lt (by norm_num) d hdigit

/-- A text of digits is read as it stands. -/
theorem hexDigits_map_hexChar {ds : List ℕ} (hds : ∀ d ∈ ds, d < 16) :
    hexDigits (ds.map hexChar) = ds := by
  have hchar : ∀ c ∈ ds.map hexChar, c ≠ 0 ∧ isspace c = false ∧ tolower c ≠ 120 := by
    intro c hc
    obtain ⟨d, hd, rfl⟩ := List.mem_map.mp hc
    obtain ⟨-, -, hne, hspace, hx⟩ := hexChar_spec d (hds d hd)
    exact ⟨hne, hspace, hx⟩
  have hread : cStr (ds.map hexChar) = ds.map hexChar :=
    cStr_eq_self fun hmem => (hchar 0 hmem).1 rfl
  have hblank : (ds.map hexChar).dropWhile isspace = ds.map hexChar :=
    dropWhile_isspace_eq_self fun c hc => (hchar c (List.mem_of_mem_head? hc)).2.1
  -- no digit is an `x`
  have hskip : skip0x (ds.map hexChar) = ds.map hexChar := by
    unfold skip0x
    split
    next c psz heq =>
      rw [if_neg (hchar c (by rw [heq]; simp)).2.2, heq]
    next => rfl
  have htake : (ds.map hexChar).takeWhile
      (fun c => decide (phexdigit c ≠ 0) || decide (c = 48)) = ds.map hexChar := by
    refine List.takeWhile_eq_self_iff.mpr fun c hc => ?_
    obtain ⟨d, hd, rfl⟩ := List.mem_map.mp hc
    exact (hexChar_spec d (hds d hd)).2.1
  rw [hexDigits, hread, hblank, hskip, htake, List.map_map]
  exact (List.map_congr_left fun d hd => (hexChar_spec d (hds d hd)).1).trans (List.map_id ds)

/-- **What `GetHex` writes, `SetHex` reads.** -/
theorem setHex_getHex {hash : Uint256} (h : hash < 2 ^ 256) : setHex (getHex hash) = hash := by
  rw [setHex, getHex, hexDigits_map_hexChar lt_of_mem_leftpad, List.leftpad,
    value_replicate_append, value_digits, Nat.mod_eq_of_lt h]

end FoxCoin
