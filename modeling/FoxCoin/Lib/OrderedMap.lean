import Mathlib.Data.Finmap
import Mathlib.Data.Finset.Sort
import Mathlib.Tactic

/-! # Maps in the order of their keys

A walk through a map visits its pairs in the order of the keys. A map is built again from the pairs of
a walk, when each is inserted unless its key is there already. -/

namespace OrderedMap

variable {K V : Type} [DecidableEq K]

/-- Insert a pair unless its key is in the map. -/
def insertNew (m : Finmap fun _ : K => V) (item : K × V) : Finmap fun _ : K => V :=
  if item.1 ∈ m then m else m.insert item.1 item.2

theorem lookup_insertNew (m : Finmap fun _ : K => V) (item : K × V) (k : K) :
    (insertNew m item).lookup k =
      (m.lookup k).or (if item.1 = k then some item.2 else none) := by
  rw [insertNew]
  by_cases hkey : item.1 = k
  · subst hkey
    rw [if_pos rfl]
    split_ifs with hmem
    · obtain ⟨v, hv⟩ := Finmap.mem_iff.mp hmem
      rw [hv, Option.some_or]
    · rw [Finmap.lookup_insert, Finmap.lookup_eq_none.mpr hmem, Option.none_or]
  · rw [if_neg hkey, Option.or_none]
    split_ifs
    · rfl
    · rw [Finmap.lookup_insert_of_ne _ (Ne.symm hkey)]

/-- The first pair with a key counts. -/
theorem lookup_foldl_insertNew (l : List (K × V)) (m : Finmap fun _ : K => V) (k : K) :
    (l.foldl insertNew m).lookup k =
      (m.lookup k).or ((l.find? fun item => item.1 = k).map Prod.snd) := by
  induction l generalizing m with
  | nil => rw [List.foldl_nil, List.find?_nil, Option.map_none, Option.or_none]
  | cons item l ih =>
    rw [List.foldl_cons, ih, lookup_insertNew, Option.or_assoc, List.find?_cons]
    by_cases hkey : item.1 = k
    · simp [hkey]
    · simp [hkey]

variable [LinearOrder K]

/-- The pairs of a map in order. -/
def pairs (m : Finmap fun _ : K => V) : List (K × V) :=
  (m.keys.sort (· ≤ ·)).filterMap fun k => (m.lookup k).map fun v => (k, v)

variable {m : Finmap fun _ : K => V} {k : K} {v : V}

theorem mem_pairs : (k, v) ∈ pairs m ↔ m.lookup k = some v := by
  simp only [pairs, List.mem_filterMap, Finset.mem_sort, Finmap.mem_keys, Option.map_eq_some_iff,
    Prod.mk.injEq]
  constructor
  · rintro ⟨_, -, _, hlookup, rfl, rfl⟩
    exact hlookup
  · intro h
    exact ⟨k, Finmap.mem_of_lookup_eq_some h, v, h, rfl, rfl⟩

/-- The pairs of a map have its keys. -/
theorem map_fst_pairs (m : Finmap fun _ : K => V) : (pairs m).map Prod.fst = m.keys.sort (· ≤ ·) := by
  rw [pairs, List.map_filterMap]
  refine (List.filterMap_congr fun k hk => ?_).trans List.filterMap_some
  rw [Finset.mem_sort, Finmap.mem_keys] at hk
  obtain ⟨v, hv⟩ := Finmap.mem_iff.mp hk
  rw [hv]
  rfl

/-- As many pairs as keys. -/
theorem length_pairs (m : Finmap fun _ : K => V) : (pairs m).length = m.keys.card := by
  rw [← List.length_map Prod.fst, map_fst_pairs, Finset.length_sort]

/-- **The pairs of a map give the map.** -/
theorem foldl_insertNew_pairs (m : Finmap fun _ : K => V) : (pairs m).foldl insertNew ∅ = m := by
  refine Finmap.ext_lookup fun k => ?_
  rw [lookup_foldl_insertNew, Finmap.lookup_empty, Option.none_or]
  cases hfind : (pairs m).find? fun item => item.1 = k with
  | none =>
    cases hlookup : m.lookup k with
    | none => rfl
    | some v =>
      have hnot := List.find?_eq_none.mp hfind (k, v) (mem_pairs.mpr hlookup)
      exact absurd (decide_eq_true rfl) hnot
  | some item =>
    have hkey : item.1 = k := by simpa using List.find?_some hfind
    have hlookup := mem_pairs.mp (List.mem_of_find?_eq_some hfind)
    rw [← hkey, hlookup]
    rfl

end OrderedMap
