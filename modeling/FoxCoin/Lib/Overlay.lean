import Mathlib.Data.Finmap
import Mathlib.Tactic

/-! # Finite maps that change

How a finite map is read after an insertion or an erasure, and what the total of a weight over its
entries becomes. -/

namespace Overlay

variable {K V : Type} [DecidableEq K]

/-- A lookup after an insertion. -/
theorem lookup_insert_eq_ite (m : Finmap fun _ : K => V) (a k : K) (b : V) :
    (m.insert a b).lookup k = if k = a then some b else m.lookup k := by
  by_cases h : k = a
  · subst h
    rw [Finmap.lookup_insert, if_pos rfl]
  · rw [Finmap.lookup_insert_of_ne _ h, if_neg h]

/-- A lookup after an erasure. -/
theorem lookup_erase_eq_ite (m : Finmap fun _ : K => V) (a k : K) :
    (m.erase a).lookup k = if k = a then none else m.lookup k := by
  by_cases h : k = a
  · subst h
    rw [Finmap.lookup_erase, if_pos rfl]
  · rw [Finmap.lookup_erase_ne h, if_neg h]

/-- Erasing a key that is not there changes nothing. -/
theorem erase_of_notMem {m : Finmap fun _ : K => V} {a : K} (h : a ∉ m) : m.erase a = m := by
  refine Finmap.ext_lookup fun k => ?_
  rw [lookup_erase_eq_ite]
  split_ifs with hk
  · rw [hk, Finmap.lookup_eq_none.mpr h]
  · rfl

/-- Erasing a key that was just inserted leaves what erasing it before leaves. -/
theorem erase_insert (m : Finmap fun _ : K => V) (a : K) (b : V) :
    (m.insert a b).erase a = m.erase a := by
  refine Finmap.ext_lookup fun k => ?_
  rw [lookup_erase_eq_ite, lookup_insert_eq_ite, lookup_erase_eq_ite]
  split_ifs <;> rfl

/-- Inserting at an erased key is inserting at the key. -/
theorem insert_erase (m : Finmap fun _ : K => V) (a : K) (b : V) :
    (m.erase a).insert a b = m.insert a b := by
  refine Finmap.ext_lookup fun k => ?_
  rw [lookup_insert_eq_ite, lookup_insert_eq_ite, lookup_erase_eq_ite]
  split_ifs <;> rfl

/-- Inserting the entry that is there changes nothing. -/
theorem insert_of_lookup {m : Finmap fun _ : K => V} {a : K} {b : V} (h : m.lookup a = some b) :
    m.insert a b = m := by
  refine Finmap.ext_lookup fun k => ?_
  rw [lookup_insert_eq_ite]
  split_ifs with hk
  · rw [hk, h]
  · rfl

/-! ## Totals -/

/-- The total of a weight over the entries of a map. -/
def total (w : K → V → ℤ) (m : Finmap fun _ : K => V) : ℤ :=
  (m.entries.map fun e => w e.1 e.2).sum

/-- The weight of the entry at a key, zero when there is none. -/
def weightAt (w : K → V → ℤ) (m : Finmap fun _ : K => V) (a : K) : ℤ :=
  (m.lookup a).elim 0 (w a)

omit [DecidableEq K] in
@[simp] theorem total_empty (w : K → V → ℤ) : total w (∅ : Finmap fun _ : K => V) = 0 := rfl

/-- Inserting at a fresh key adds the weight of the new entry. -/
theorem total_insert_of_notMem {w : K → V → ℤ} {m : Finmap fun _ : K => V} {a : K} (h : a ∉ m)
    (b : V) : total w (m.insert a b) = w a b + total w m := by
  rw [total, total, Finmap.entries_insert_of_notMem h, Multiset.map_cons, Multiset.sum_cons]

/-- The entry at a key adds its weight to the rest. -/
theorem total_eq_erase_add (w : K → V → ℤ) (m : Finmap fun _ : K => V) (a : K) :
    total w m = weightAt w m a + total w (m.erase a) := by
  cases hb : m.lookup a with
  | none =>
    rw [weightAt, hb, erase_of_notMem (Finmap.lookup_eq_none.mp hb), Option.elim_none, zero_add]
  | some b' =>
    rw [weightAt, hb, Option.elim_some,
      ← total_insert_of_notMem (Finmap.notMem_erase_self (s := m)) b', insert_erase,
      insert_of_lookup hb]

/-- Inserting replaces the weight of the old entry by the weight of the new one. -/
theorem total_insert (w : K → V → ℤ) (m : Finmap fun _ : K => V) (a : K) (b : V) :
    total w (m.insert a b) = total w m - weightAt w m a + w a b := by
  rw [← insert_erase, total_insert_of_notMem Finmap.notMem_erase_self, total_eq_erase_add w m a]
  ring

/-- A total is the sum of the weights at the keys, and at any others. -/
theorem total_eq_sum (w : K → V → ℤ) (m : Finmap fun _ : K => V) {s : Finset K}
    (hs : ∀ k, k ∈ m → k ∈ s) : total w m = ∑ k ∈ s, weightAt w m k := by
  induction s using Finset.induction_on generalizing m with
  | empty =>
    have hempty : m = ∅ := by
      refine Finmap.ext_lookup fun k => ?_
      rw [Finmap.lookup_empty, Finmap.lookup_eq_none]
      exact fun hk => Finset.notMem_empty k (hs k hk)
    rw [hempty, total_empty, Finset.sum_empty]
  | insert a s hnot ih =>
    have herase : total w (m.erase a) = ∑ k ∈ s, weightAt w (m.erase a) k := by
      refine ih (m.erase a) fun k hk => ?_
      obtain ⟨hne, hk⟩ := Finmap.mem_erase.mp hk
      exact (Finset.mem_insert.mp (hs k hk)).resolve_left hne
    have hsame : ∀ k ∈ s, weightAt w (m.erase a) k = weightAt w m k := by
      intro k hk
      have hne : k ≠ a := by
        rintro rfl
        exact hnot hk
      rw [weightAt, weightAt, lookup_erase_eq_ite, if_neg hne]
    rw [Finset.sum_insert hnot, ← Finset.sum_congr rfl hsame, ← herase, total_eq_erase_add w m a]

/-- **Totals of maps that differ in the weight of one entry** differ by that weight. -/
theorem total_add_weightAt {w w' : K → V → ℤ} {m m' : Finmap fun _ : K => V} (a : K)
    (h : ∀ k, k ≠ a → weightAt w m k = weightAt w' m' k) :
    total w m + weightAt w' m' a = total w' m' + weightAt w m a := by
  have hkeys : ∀ k, k ∈ m → k ∈ insert a (m.keys ∪ m'.keys) := fun k hk => by
    simp [Finmap.mem_keys.mpr hk]
  have hkeys' : ∀ k, k ∈ m' → k ∈ insert a (m.keys ∪ m'.keys) := fun k hk => by
    simp [Finmap.mem_keys.mpr hk]
  rw [total_eq_sum w m hkeys, total_eq_sum w' m' hkeys',
    ← Finset.add_sum_erase _ _ (Finset.mem_insert_self a _),
    ← Finset.add_sum_erase _ (weightAt w' m') (Finset.mem_insert_self a _),
    Finset.sum_congr rfl fun k hk => h k (Finset.ne_of_mem_erase hk)]
  ring

/-- Maps with the same weights have the same total. -/
theorem total_congr {w w' : K → V → ℤ} {m m' : Finmap fun _ : K => V}
    (h : ∀ k, weightAt w m k = weightAt w' m' k) : total w m = total w' m' := by
  rw [total_eq_sum w m fun k hk => Finset.mem_union_left m'.keys (Finmap.mem_keys.mpr hk),
    total_eq_sum w' m' fun k hk => Finset.mem_union_right m.keys (Finmap.mem_keys.mpr hk)]
  exact Finset.sum_congr rfl fun k _ => h k

/-- A total of weights that are not negative is not negative. -/
theorem total_nonneg {w : K → V → ℤ} {m : Finmap fun _ : K => V}
    (h : ∀ a b, m.lookup a = some b → 0 ≤ w a b) : 0 ≤ total w m := by
  refine Multiset.sum_nonneg fun x hx => ?_
  obtain ⟨e, he, rfl⟩ := Multiset.mem_map.mp hx
  exact h e.1 e.2 (Finmap.lookup_eq_some_iff.mpr he)

end Overlay
