import Mathlib.Data.List.Lex
import Mathlib.Tactic

/-! # Scans over a range of keys

A scan sets a cursor on the first key from a start on and goes on as long as the keys meet a condition.
It meets all the keys of the condition when these are not before the start and no other key lies
between them. In the order of the bytes, the keys with a common prefix have none between them. -/

namespace RangeScan

variable {K : Type} [LinearOrder K]

/-- **A scan meets all keys of a condition** that are together and not before its start. -/
theorem takeWhile_dropWhile_eq_filter {l : List K} {start : K} {f : K → Bool}
    [∀ k, Decidable (k < start)] (hsorted : l.Pairwise (· < ·)) (hstart : ∀ k ∈ l, f k = true → start ≤ k)
    (htogether : ∀ k ∈ l, ∀ k' ∈ l, f k = true → f k' = false → start ≤ k' → k < k') :
    (l.dropWhile fun k => decide (k < start)).takeWhile f = l.filter f := by
  induction l with
  | nil => rfl
  | cons k l ih =>
    obtain ⟨hk, hsorted'⟩ := List.pairwise_cons.mp hsorted
    have hrest := ih hsorted' (fun k hk => hstart k (List.mem_cons_of_mem _ hk))
      fun k hk k' hk' => htogether k (List.mem_cons_of_mem _ hk) k' (List.mem_cons_of_mem _ hk')
    by_cases hlt : k < start
    · have hnot : f k = false := by
        by_contra hf
        exact absurd (hstart k List.mem_cons_self (by simpa using hf)) (not_le.mpr hlt)
      rw [List.dropWhile_cons_of_pos (by simpa using hlt), hrest,
        List.filter_cons_of_neg (by simpa using hnot)]
    · -- the keys behind the cursor are not before the start either
      have hdrop : l.dropWhile (fun k => decide (k < start)) = l := by
        cases l with
        | nil => rfl
        | cons k' l =>
          have hlt' := hk k' List.mem_cons_self
          refine List.dropWhile_cons_of_neg ?_
          simpa using (not_lt.mp hlt).trans hlt'.le
      rw [List.dropWhile_cons_of_neg (by simpa using not_lt.mp hlt)]
      cases hf : f k with
      | true =>
        rw [List.takeWhile_cons_of_pos hf, List.filter_cons_of_pos hf, ← hrest, hdrop]
      | false =>
        have hnone : l.filter f = [] := by
          refine List.filter_eq_nil_iff.mpr fun k' hk' hf' => ?_
          exact absurd (htogether k' (List.mem_cons_of_mem _ hk') k List.mem_cons_self hf' hf
            (not_lt.mp hlt)) (hk k' hk').not_gt
        rw [List.takeWhile_cons_of_neg (by simpa using hf),
          List.filter_cons_of_neg (by simpa using hf), hnone]

/-- Bytes are ordered as numbers, and strings of bytes by their first difference. -/
scoped instance byteOrder : LinearOrder UInt8 where
  le_refl _ := UInt8.le_refl _
  le_trans _ _ _ := UInt8.le_trans
  le_antisymm _ _ := UInt8.le_antisymm
  le_total := UInt8.le_total
  lt_iff_le_not_ge _ _ := by
    rw [UInt8.lt_iff_toNat_lt, UInt8.le_iff_toNat_le, UInt8.le_iff_toNat_le]
    omega
  toDecidableLE := inferInstance

/-! ## Prefixes -/

theorem cons_le_cons_iff {k k' : K} {s t : List K} : k :: s ≤ k' :: t ↔ k < k' ∨ k = k' ∧ s ≤ t := by
  rw [← not_lt, List.cons_lt_cons_iff, not_or, not_lt, not_and, not_lt, le_iff_lt_or_eq]
  constructor
  · rintro ⟨hlt | rfl, h⟩
    · exact .inl hlt
    · exact .inr ⟨rfl, h rfl⟩
  · rintro (hlt | ⟨rfl, h⟩)
    · exact ⟨.inl hlt, fun heq => absurd heq hlt.ne'⟩
    · exact ⟨.inr rfl, fun _ => h⟩

theorem append_le_append_iff (pre : List K) {s t : List K} : pre ++ s ≤ pre ++ t ↔ s ≤ t := by
  induction pre with
  | nil => rfl
  | cons k pre ih =>
    rw [List.cons_append, List.cons_append, cons_le_cons_iff, ih]
    simp

theorem nil_le (s : List K) : [] ≤ s := not_lt.mp (List.not_lt_nil s)

theorem le_append (pre s : List K) : pre ≤ pre ++ s := by
  have h := (append_le_append_iff pre (s := []) (t := s)).mpr (nil_le s)
  rwa [List.append_nil] at h

/-- What has a prefix comes before what does not have it and is not before it. -/
theorem lt_of_isPrefix {pre s t : List K} (hs : pre <+: s) (ht : ¬pre <+: t) (hle : pre ≤ t) :
    s < t := by
  induction pre generalizing s t with
  | nil => exact absurd (List.nil_prefix) ht
  | cons k pre ih =>
    obtain ⟨s', rfl⟩ := hs
    cases t with
    | nil => exact absurd hle (by simp)
    | cons k' t =>
      rw [List.cons_append, List.cons_lt_cons_iff]
      obtain hlt | ⟨rfl, hle'⟩ := cons_le_cons_iff.mp hle
      · exact .inl hlt
      · -- the rest of the prefix decides
        refine .inr ⟨rfl, ih (List.prefix_append _ _) ?_ hle'⟩
        rwa [List.prefix_cons_inj] at ht

/-- Zeros come first. -/
theorem replicate_le {zero : K} (hzero : ∀ k, zero ≤ k) {m : ℕ} {s : List K} (hm : m ≤ s.length) :
    List.replicate m zero ≤ s := by
  induction m generalizing s with
  | zero => exact nil_le s
  | succ m ih =>
    cases s with
    | nil => simp at hm
    | cons k s =>
      have hrest : List.replicate m zero ≤ s := ih (by simpa using hm)
      rw [List.replicate_succ, cons_le_cons_iff]
      exact (hzero k).lt_or_eq.imp_right fun heq => ⟨heq, hrest⟩

end RangeScan
