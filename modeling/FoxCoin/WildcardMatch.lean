import FoxCoin.CString
import FoxCoin.Lib.Checked

/-! # Wildcards

`WildcardMatch` compares a string with a mask in which `*` stands for any characters and `?` for
one. It walks along both with pointers, and tries all the ways to continue behind a `*`. -/

namespace FoxCoin

open Checked

/-! ## The code -/

/-- A NUL-terminated string: the bytes before the NUL. -/
structure NulTerminated where
  chars : List UInt8
  notMem : 0 ∉ chars

/-- The bytes that can be read: none behind the NUL. -/
def NulTerminated.memory (s : NulTerminated) : List UInt8 := s.chars ++ [0]

/-- What can happen besides a result: a read behind the NUL, and a call that is still running. -/
inductive PointerFault where
  | pastEnd
  | running
  deriving DecidableEq, Repr

/-- `*p`. -/
def NulTerminated.load (s : NulTerminated) (p : ℕ) : Except PointerFault UInt8 :=
  match s.memory[p]? with
  | none => .error .pastEnd
  | some c => .ok c

/-- `'*'`. -/
def charStar : UInt8 := 42
/-- `'?'`. -/
def charQuestion : UInt8 := 63

/-- `WildcardMatch` on the pointers `psz` and `mask`, for a number of rounds and calls. -/
def wildcardMatchLoop (str pattern : NulTerminated) : ℕ → ℕ → ℕ → Except PointerFault Bool
  | 0, _, _ => .error .running
  | nFuel + 1, psz, mask => do
    let m ← pattern.load mask
    if m = 0 then
      let c ← str.load psz
      return c == 0
    else if m = charStar then
      if ← wildcardMatchLoop str pattern nFuel psz (mask + 1) then return true
      let c ← str.load psz
      if c = 0 then return false
      wildcardMatchLoop str pattern nFuel (psz + 1) mask
    else if m = charQuestion then
      let c ← str.load psz
      if c = 0 then return false
      wildcardMatchLoop str pattern nFuel (psz + 1) (mask + 1)
    else
      let c ← str.load psz
      if c ≠ m then return false
      wildcardMatchLoop str pattern nFuel (psz + 1) (mask + 1)

/-- `WildcardMatch(psz, mask)`. -/
def wildcardMatch (nFuel : ℕ) (str pattern : NulTerminated) : Except PointerFault Bool :=
  wildcardMatchLoop str pattern nFuel 0 0

/-! ## What a mask stands for -/

/-- A string matches a mask: `*` stands for any substring, `?` for any character, and every other
character for itself. -/
inductive Matches : List UInt8 → List UInt8 → Prop
  | nil : Matches [] []
  | star {s mask : List UInt8} (sub : List UInt8) (h : Matches s mask) :
      Matches (sub ++ s) (charStar :: mask)
  | question {s mask : List UInt8} (c : UInt8) (h : Matches s mask) :
      Matches (c :: s) (charQuestion :: mask)
  | self {s mask : List UInt8} {c : UInt8} (hstar : c ≠ charStar) (hquestion : c ≠ charQuestion)
      (h : Matches s mask) : Matches (c :: s) (c :: mask)

variable {s mask : List UInt8} {c m : UInt8}

theorem matches_nil_iff : Matches s [] ↔ s = [] := by
  constructor
  · intro h
    cases h
    rfl
  · rintro rfl
    exact .nil

/-- A `*` stands for nothing, or for one character and what it then stands for. -/
theorem matches_star_iff :
    Matches s (charStar :: mask) ↔
      Matches s mask ∨ ∃ c s', s = c :: s' ∧ Matches s' (charStar :: mask) := by
  constructor
  · intro h
    generalize hmask : charStar :: mask = pattern at h
    cases h with
    | nil => cases hmask
    | star sub h =>
      cases hmask
      cases sub with
      | nil => exact .inl h
      | cons c sub => exact .inr ⟨c, _, rfl, .star sub h⟩
    | question c h => exact absurd (List.cons.inj hmask).1 (by decide)
    | self hstar _ h => exact absurd (List.cons.inj hmask).1.symm hstar
  · rintro (h | ⟨c, s', rfl, h⟩)
    · exact .star [] h
    · -- what the `*` stands for has one character more
      generalize hmask : charStar :: mask = pattern at h
      cases h with
      | nil => cases hmask
      | star sub h =>
        cases hmask
        exact .star (c :: sub) h
      | question c h => exact absurd (List.cons.inj hmask).1 (by decide)
      | self hstar _ h => exact absurd (List.cons.inj hmask).1.symm hstar

theorem matches_question_iff :
    Matches s (charQuestion :: mask) ↔ ∃ c s', s = c :: s' ∧ Matches s' mask := by
  constructor
  · intro h
    generalize hmask : charQuestion :: mask = pattern at h
    cases h with
    | nil => cases hmask
    | star sub h => exact absurd (List.cons.inj hmask).1 (by decide)
    | question c h =>
      cases hmask
      exact ⟨c, _, rfl, h⟩
    | self _ hquestion h => exact absurd (List.cons.inj hmask).1.symm hquestion
  · rintro ⟨c, s', rfl, h⟩
    exact .question c h

theorem matches_self_iff (hstar : m ≠ charStar) (hquestion : m ≠ charQuestion) :
    Matches s (m :: mask) ↔ ∃ s', s = m :: s' ∧ Matches s' mask := by
  constructor
  · intro h
    generalize hmask : m :: mask = pattern at h
    cases h with
    | nil => cases hmask
    | star sub h => exact absurd (List.cons.inj hmask).1 hstar
    | question c h => exact absurd (List.cons.inj hmask).1 hquestion
    | self _ _ h =>
      cases hmask
      exact ⟨_, rfl, h⟩
  · rintro ⟨s', rfl, h⟩
    exact .self hstar hquestion h

/-! ## Reading -/

namespace NulTerminated

/-- **What a pointer into a string reads**: the NUL at the end, and before it a character that is
none, with the rest of the string behind it. -/
theorem load_cases (str : NulTerminated) {p : ℕ} (hp : p ≤ str.chars.length) :
    (str.chars.drop p = [] ∧ str.load p = .ok 0) ∨
      ∃ c s, str.chars.drop p = c :: s ∧ str.load p = .ok c ∧ c ≠ 0 ∧
        str.chars.drop (p + 1) = s ∧ p < str.chars.length := by
  cases hdrop : str.chars.drop p with
  | nil =>
    obtain rfl : p = str.chars.length := le_antisymm hp (List.drop_eq_nil_iff.mp hdrop)
    exact .inl ⟨rfl, by rw [load, memory, List.getElem?_concat_length]⟩
  | cons c s =>
    have hget : str.chars[p]? = some c := by rw [← List.head?_drop, hdrop, List.head?_cons]
    have hlt := (List.getElem?_eq_some_iff.mp hget).1
    refine .inr ⟨c, s, rfl, ?_, ?_, ?_, hlt⟩
    · rw [load, memory, List.getElem?_append_left hlt, hget]
    · rintro rfl
      exact str.notMem (List.mem_of_getElem? hget)
    · rw [← List.drop_drop, hdrop, List.drop_one, List.tail_cons]

end NulTerminated

/-! ## Matching -/

/-- A computation ends with the answer to a question. -/
def Decides (x : Except PointerFault Bool) (p : Prop) : Prop := ∃ b, x = .ok b ∧ (b = true ↔ p)

theorem decides_pure {b : Bool} {p : Prop} (h : b = true ↔ p) : Decides (pure b) p := ⟨b, rfl, h⟩

theorem decides_false {p : Prop} (h : ¬p) : Decides (pure false) p :=
  decides_pure (iff_of_false Bool.false_ne_true h)

theorem Decides.congr {x : Except PointerFault Bool} {p q : Prop} (h : Decides x p) (hpq : q ↔ p) :
    Decides x q := by
  obtain ⟨b, hb, hiff⟩ := h
  exact ⟨b, hb, hiff.trans hpq.symm⟩

/-- **The loop decides whether the rest of the string matches the rest of the mask**: every round
and every call has less of one of them before it. -/
theorem wildcardMatchLoop_decides (str pattern : NulTerminated) {nFuel psz mask : ℕ}
    (hpsz : psz ≤ str.chars.length) (hmask : mask ≤ pattern.chars.length)
    (hfuel : str.chars.length - psz + (pattern.chars.length - mask) < nFuel) :
    Decides (wildcardMatchLoop str pattern nFuel psz mask)
      (Matches (str.chars.drop psz) (pattern.chars.drop mask)) := by
  induction nFuel generalizing psz mask with
  | zero => omega
  | succ nFuel ih =>
    rw [wildcardMatchLoop]
    obtain ⟨hend, hm⟩ | ⟨m, rest, hrest, hm, hm0, hdrop, hmask'⟩ := pattern.load_cases hmask
    · rw [hm, ok_bind, if_pos rfl, hend, matches_nil_iff]
      obtain ⟨hchars, hc⟩ | ⟨c, s, hchars, hc, hc0, -, -⟩ := str.load_cases hpsz
      · rw [hc, ok_bind, hchars]
        exact decides_pure (by simp)
      · rw [hc, ok_bind, hchars]
        exact decides_pure (by simp [hc0])
    rw [hm, ok_bind, if_neg hm0, hrest]
    split_ifs with hstar hquestion
    · -- the mask goes on behind the star, or the star takes one more character
      subst hstar
      obtain ⟨b, hb, hiff⟩ := ih hpsz hmask' (by omega)
      rw [hdrop] at hiff
      rw [hb, ok_bind]
      cases b with
      | true => exact decides_pure (iff_of_true rfl (matches_star_iff.mpr (.inl (hiff.mp rfl))))
      | false =>
        have hnot : ¬Matches (str.chars.drop psz) rest := fun h => Bool.false_ne_true (hiff.mpr h)
        rw [if_neg Bool.false_ne_true]
        obtain ⟨hchars, hc⟩ | ⟨c, s, hchars, hc, hc0, hdropc, hpsz'⟩ := str.load_cases hpsz
        · rw [hchars] at hnot ⊢
          rw [hc, ok_bind, if_pos rfl]
          exact decides_false (by rw [matches_star_iff]; simp [hnot])
        · rw [hchars] at hnot ⊢
          rw [hc, ok_bind, if_neg hc0]
          refine (ih hpsz' hmask (by omega)).congr ?_
          rw [matches_star_iff, hdropc, hrest]
          simp [hnot]
    · subst hquestion
      obtain ⟨hchars, hc⟩ | ⟨c, s, hchars, hc, hc0, hdropc, hpsz'⟩ := str.load_cases hpsz
      · rw [hc, ok_bind, if_pos rfl]
        exact decides_false (by rw [matches_question_iff]; simp [hchars])
      · rw [hc, ok_bind, if_neg hc0]
        refine (ih hpsz' hmask' (by omega)).congr ?_
        rw [matches_question_iff, hdropc, hdrop]
        simp [hchars]
    · obtain ⟨hchars, hc⟩ | ⟨c, s, hchars, hc, hc0, hdropc, hpsz'⟩ := str.load_cases hpsz
      · -- the NUL of the string is no character of the mask
        rw [hc, ok_bind, if_pos (Ne.symm hm0)]
        exact decides_false (by rw [matches_self_iff hstar hquestion]; simp [hchars])
      · rw [hc, ok_bind]
        split_ifs with hne
        · exact decides_false (by rw [matches_self_iff hstar hquestion]; simp [hchars, hne])
        · obtain rfl := not_not.mp hne
          refine (ih hpsz' hmask' (by omega)).congr ?_
          rw [matches_self_iff hstar hquestion, hdropc, hdrop]
          simp [hchars]

/-- **`WildcardMatch` decides whether a string matches a mask**: it ends within as many nested
rounds and calls as there are characters and NULs, reads nothing behind a NUL, and its result says
whether the string matches. -/
theorem wildcardMatch_decides (str pattern : NulTerminated) (k : ℕ) :
    Decides (wildcardMatch (str.chars.length + pattern.chars.length + 1 + k) str pattern)
      (Matches str.chars pattern.chars) :=
  wildcardMatchLoop_decides str pattern (Nat.zero_le _) (Nat.zero_le _) (by omega)

example : wildcardMatch 20 ⟨literal "abcdef", by decide⟩ ⟨literal "a*f", by decide⟩ = .ok true := by
  decide +kernel

end FoxCoin
