import Mathlib.Tactic

/-! # Multimaps in order of their keys

A multimap is read as the list of its elements in order. An insertion puts an element after those
with the same key, so that a multimap filled from a list is the list sorted by the keys, with elements
of one key in the order in which they came. -/

namespace MultiMap

variable {A K : Type} [LinearOrder K] (key : A → K)

/-- An insertion, after the elements with the same key. -/
def insert (a : A) : List A → List A
  | [] => [a]
  | b :: m => if key a < key b then a :: b :: m else b :: insert a m

/-- The multimap that is filled from a list. -/
def ofList (l : List A) : List A := l.foldl (fun m a => insert key a m) []

variable {key} {a : A} {m : List A}

theorem insert_perm (a : A) (m : List A) : (insert key a m).Perm (a :: m) := by
  induction m with
  | nil => exact .refl _
  | cons b m ih =>
    rw [insert]
    split_ifs
    · exact .refl _
    · exact (ih.cons b).trans (.swap a b m)

theorem pairwise_insert (hm : m.Pairwise fun a b => key a ≤ key b) (a : A) :
    (insert key a m).Pairwise fun a b => key a ≤ key b := by
  induction m with
  | nil => exact List.pairwise_singleton _ a
  | cons b m ih =>
    obtain ⟨hb, hm'⟩ := List.pairwise_cons.mp hm
    rw [insert]
    split_ifs with hlt
    · refine List.pairwise_cons.mpr ⟨fun c hc => ?_, hm⟩
      obtain rfl | hc := List.mem_cons.mp hc
      · exact hlt.le
      · exact hlt.le.trans (hb c hc)
    · refine List.pairwise_cons.mpr ⟨fun c hc => ?_, ih hm'⟩
      obtain rfl | hc := List.mem_cons.mp ((insert_perm a m).subset hc)
      · exact not_lt.mp hlt
      · exact hb c hc

/-- An element comes after those with its key. -/
theorem filter_insert (hm : m.Pairwise fun a b => key a ≤ key b) (a : A) (k : K) :
    (insert key a m).filter (fun b => decide (key b = k)) =
      m.filter (fun b => decide (key b = k)) ++ [a].filter fun b => decide (key b = k) := by
  induction m with
  | nil => rfl
  | cons b m ih =>
    obtain ⟨hb, hm'⟩ := List.pairwise_cons.mp hm
    rw [insert]
    split_ifs with hlt
    · by_cases ha : key a = k
      · -- all keys from `b` on are larger
        have hnone : (b :: m).filter (fun b => decide (key b = k)) = [] := by
          refine List.filter_eq_nil_iff.mpr fun c hc => ?_
          have hac : key a < key c := by
            obtain rfl | hc := List.mem_cons.mp hc
            · exact hlt
            · exact hlt.trans_le (hb c hc)
          simpa using (ha ▸ hac).ne'
        rw [List.filter_cons_of_pos (by simpa using ha), hnone, List.nil_append,
          List.filter_cons_of_pos (by simpa using ha), List.filter_nil]
      · have hnone : [a].filter (fun b => decide (key b = k)) = [] :=
          List.filter_cons_of_neg (by simpa using ha)
        rw [hnone, List.append_nil]
        exact List.filter_cons_of_neg (by simpa using ha)
    · rw [List.filter_cons, List.filter_cons, ih hm']
      split_ifs
      · rfl
      · rfl

theorem foldl_insert (hm : m.Pairwise fun a b => key a ≤ key b) (l : List A) :
    (l.foldl (fun m a => insert key a m) m).Perm (m ++ l) ∧
      (l.foldl (fun m a => insert key a m) m).Pairwise (fun a b => key a ≤ key b) ∧
      ∀ k, (l.foldl (fun m a => insert key a m) m).filter (fun b => decide (key b = k)) =
        (m ++ l).filter fun b => decide (key b = k) := by
  induction l generalizing m with
  | nil => exact ⟨by rw [List.append_nil]; rfl, hm, fun k => by rw [List.append_nil]; rfl⟩
  | cons a l ih =>
    obtain ⟨hperm, hsorted, hstable⟩ := ih (pairwise_insert hm a)
    refine ⟨hperm.trans ?_, hsorted, fun k => (hstable k).trans ?_⟩
    · exact ((insert_perm a m).append_right l).trans List.perm_middle.symm
    · rw [List.filter_append, filter_insert hm, List.append_assoc, ← List.filter_append,
        List.singleton_append, ← List.filter_append]

/-- **A multimap holds the elements it was filled with**, sorted by their keys, and those of one key in
the order in which they came. -/
theorem ofList_spec (key : A → K) (l : List A) : (ofList key l).Perm l ∧
    (ofList key l).Pairwise (fun a b => key a ≤ key b) ∧
    ∀ k, (ofList key l).filter (fun b => decide (key b = k)) =
      l.filter fun b => decide (key b = k) :=
  foldl_insert List.Pairwise.nil l

end MultiMap
