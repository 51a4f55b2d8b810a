import FoxCoin.Lib.Overlay

/-! # Indexes kept beside a map

A map from keys to values, where every value has a list of features, is often kept together with an
index that leads from a feature back to the keys. Here are the two kinds: an index with one place
for every feature, for features that no two values share, and an index with a bucket for every
feature. Both are kept up to date entry by entry. -/

namespace BackIndex

open Overlay

variable {X K V : Type} [DecidableEq X] [DecidableEq K]

/-! ## Places -/

/-- An index of places: a feature leads to the only key whose value has it, and to its position
among the features of that value. -/
def Placed (f : V → List X) (m : Finmap fun _ : K => V)
    (idx : Finmap fun _ : X => K × ℕ) : Prop :=
  ∀ x k i, idx.lookup x = some (k, i) ↔ ∃ v, m.lookup k = some v ∧ (f v)[i]? = some x

/-- The index with a place for each of the features, the first of which has position `n`. -/
def placeAll (k : K) : ℕ → List X → (Finmap fun _ : X => K × ℕ) → Finmap fun _ : X => K × ℕ
  | _, [], idx => idx
  | n, x :: xs, idx => placeAll k (n + 1) xs (idx.insert x (k, n))

variable {f : V → List X} {m : Finmap fun _ : K => V} {k : K} {v : V}

theorem placed_empty : Placed f (∅ : Finmap fun _ : K => V) ∅ := by
  intro x k i
  simp

omit [DecidableEq K] in
theorem lookup_placeAll {n : ℕ} {xs : List X} {idx : Finmap fun _ : X => K × ℕ} (hnodup : xs.Nodup)
    (x : X) :
    (placeAll k n xs idx).lookup x =
      if x ∈ xs then some (k, n + xs.idxOf x) else idx.lookup x := by
  induction xs generalizing n idx with
  | nil => rfl
  | cons y ys ih =>
    obtain ⟨hy, hys⟩ := List.nodup_cons.mp hnodup
    rw [placeAll, ih hys, lookup_insert_eq_ite]
    by_cases hxy : x = y
    · subst hxy
      rw [if_neg hy, if_pos rfl, if_pos List.mem_cons_self, List.idxOf_cons_self, Nat.add_zero]
    · by_cases hmem : x ∈ ys
      · rw [if_pos hmem, if_pos (List.mem_cons_of_mem y hmem), List.idxOf_cons_ne ys (Ne.symm hxy)]
        congr 2
        omega
      · rw [if_neg hmem, if_neg hxy, if_neg (by simp [hxy, hmem])]

omit [DecidableEq K] in
theorem mem_placeAll {n : ℕ} {xs : List X} {idx : Finmap fun _ : X => K × ℕ} {x : X} :
    x ∈ placeAll k n xs idx ↔ x ∈ xs ∨ x ∈ idx := by
  induction xs generalizing n idx with
  | nil => simp [placeAll]
  | cons y ys ih =>
    rw [placeAll, ih, Finmap.mem_insert, List.mem_cons]
    tauto

/-- **A new value is placed** under all its features, when they are new. -/
theorem Placed.insert {idx : Finmap fun _ : X => K × ℕ} (h : Placed f m idx) (hk : k ∉ m)
    (hnodup : (f v).Nodup) (hnew : ∀ x ∈ f v, x ∉ idx) :
    Placed f (m.insert k v) (placeAll k 0 (f v) idx) := by
  intro x k' i
  rw [lookup_placeAll hnodup, Nat.zero_add, lookup_insert_eq_ite]
  by_cases hmem : x ∈ f v
  · rw [if_pos hmem, Option.some.injEq, Prod.mk.injEq]
    constructor
    · rintro ⟨rfl, rfl⟩
      exact ⟨v, if_pos rfl, List.getElem?_idxOf hmem⟩
    · rintro ⟨v', hv', hi⟩
      by_cases hkk : k' = k
      · rw [if_pos hkk] at hv'
        cases hv'
        obtain ⟨hlt, hget⟩ := List.getElem?_eq_some_iff.mp hi
        exact ⟨hkk.symm, by rw [← hget, hnodup.idxOf_getElem]⟩
      · rw [if_neg hkk] at hv'
        have := (h x k' i).mpr ⟨v', hv', hi⟩
        exact absurd (Finmap.mem_of_lookup_eq_some this) (hnew x hmem)
  · rw [if_neg hmem, h x k' i]
    by_cases hkk : k' = k
    · subst hkk
      rw [if_pos rfl, Finmap.lookup_eq_none.mpr hk]
      constructor
      · rintro ⟨_, ⟨⟩, -⟩
      · rintro ⟨_, ⟨⟩, hi⟩
        exact absurd (List.mem_of_getElem? hi) hmem
    · rw [if_neg hkk]

omit [DecidableEq K] in
theorem lookup_foldl_erase {xs : List X} {idx : Finmap fun _ : X => K × ℕ} (x : X) :
    (xs.foldl (fun idx x => idx.erase x) idx).lookup x = if x ∈ xs then none else idx.lookup x := by
  induction xs generalizing idx with
  | nil => rfl
  | cons y ys ih =>
    rw [List.foldl_cons, ih, lookup_erase_eq_ite]
    by_cases hxy : x = y
    · subst hxy
      rw [if_pos rfl, if_pos List.mem_cons_self, ite_self]
    · rw [if_neg hxy]
      simp [hxy]

/-- **A value is taken out** together with the places of its features. -/
theorem Placed.erase {idx : Finmap fun _ : X => K × ℕ} (h : Placed f m idx)
    (hk : m.lookup k = some v) :
    Placed f (m.erase k) ((f v).foldl (fun idx x => idx.erase x) idx) := by
  intro x k' i
  rw [lookup_foldl_erase, lookup_erase_eq_ite]
  by_cases hmem : x ∈ f v
  · rw [if_pos hmem]
    refine ⟨fun hnone => absurd hnone (by simp), ?_⟩
    rintro ⟨v', hv', hi⟩
    by_cases hkk : k' = k
    · rw [if_pos hkk] at hv'
      cases hv'
    -- two values would share the feature
    · rw [if_neg hkk] at hv'
      have h1 := (h x k' i).mpr ⟨v', hv', hi⟩
      rw [(h x k _).mpr ⟨v, hk, List.getElem?_idxOf hmem⟩] at h1
      cases h1
      exact absurd rfl hkk
  · rw [if_neg hmem, h x k' i]
    by_cases hkk : k' = k
    · subst hkk
      rw [if_pos rfl, hk]
      constructor
      · rintro ⟨_, ⟨⟩, hi⟩
        exact absurd (List.mem_of_getElem? hi) hmem
      · rintro ⟨_, ⟨⟩, -⟩
    · rw [if_neg hkk]

/-- Values with an index of places share no feature. -/
theorem Placed.eq_of_mem {idx : Finmap fun _ : X => K × ℕ} (h : Placed f m idx) {k' : K} {v' : V}
    {x : X} (hk : m.lookup k = some v) (hk' : m.lookup k' = some v') (hx : x ∈ f v)
    (hx' : x ∈ f v') : k = k' := by
  have h1 := (h x k _).mpr ⟨v, hk, List.getElem?_idxOf hx⟩
  rw [(h x k' _).mpr ⟨v', hk', List.getElem?_idxOf hx'⟩, Option.some.injEq, Prod.mk.injEq] at h1
  exact h1.1.symm

/-! ## Buckets -/

/-- An index of buckets: a feature leads to the entries whose value has it. -/
abbrev Buckets (X K V : Type) := Finmap fun _ : X => Finmap fun _ : K => V

/-- The bucket of a feature; one that is not there holds nothing. -/
def bucket (idx : Buckets X K V) (x : X) : Finmap fun _ : K => V := (idx.lookup x).getD ∅

/-- The index after its bucket at `x` was accessed, which makes a bucket when there is none. -/
def touch (idx : Buckets X K V) (x : X) : Buckets X K V :=
  if x ∈ idx then idx else idx.insert x ∅

/-- An entry is added to a bucket, unless the bucket has the key. -/
def addEntry (idx : Buckets X K V) (x : X) (k : K) (v : V) : Buckets X K V :=
  idx.insert x (if k ∈ bucket idx x then bucket idx x else (bucket idx x).insert k v)

/-- A key is taken out of a bucket, and an empty bucket out of the index. -/
def dropEntry (idx : Buckets X K V) (x : X) (k : K) : Buckets X K V :=
  if ((bucket idx x).erase k).keys = ∅ then idx.erase x
  else idx.insert x ((bucket idx x).erase k)

/-- The buckets hold exactly the entries of the map, each in the buckets of its features. -/
def Inverse (f : V → List X) (m : Finmap fun _ : K => V) (idx : Buckets X K V) : Prop :=
  ∀ x k v, (bucket idx x).lookup k = some v ↔ m.lookup k = some v ∧ x ∈ f v

/-- No bucket is empty. -/
def NoEmpty (idx : Buckets X K V) : Prop := ∀ x b, idx.lookup x = some b → b.keys ≠ ∅

variable {idx : Buckets X K V} {x y : X}

omit [DecidableEq K] in
theorem bucket_insert (b : Finmap fun _ : K => V) :
    bucket (idx.insert x b) y = if y = x then b else bucket idx y := by
  rw [bucket, lookup_insert_eq_ite]
  by_cases h : y = x
  · rw [if_pos h, if_pos h, Option.getD_some]
  · rw [if_neg h, if_neg h, bucket]

omit [DecidableEq K] in
theorem bucket_eq_of_lookup {b : Finmap fun _ : K => V} (h : idx.lookup x = some b) :
    bucket idx x = b := by
  rw [bucket, h, Option.getD_some]

omit [DecidableEq K] in
theorem bucket_eq_empty (h : x ∉ idx) : bucket idx x = ∅ := by
  rw [bucket, Finmap.lookup_eq_none.mpr h, Option.getD_none]

theorem eq_empty_of_keys {b : Finmap fun _ : K => V} (h : b.keys = ∅) : b = ∅ := by
  refine Finmap.ext_lookup fun k => ?_
  rw [Finmap.lookup_empty, Finmap.lookup_eq_none, ← Finmap.mem_keys, h]
  exact Finset.notMem_empty k

omit [DecidableEq K] in
@[simp] theorem bucket_touch : bucket (touch idx x) y = bucket idx y := by
  unfold touch
  by_cases h : x ∈ idx
  · rw [if_pos h]
  · rw [if_neg h, bucket_insert]
    by_cases hy : y = x
    · rw [if_pos hy, hy, bucket_eq_empty h]
    · rw [if_neg hy]

theorem lookup_bucket_addEntry {k k' : K} {v v' : V} (hk : k ∉ bucket idx x) :
    (bucket (addEntry idx x k v) y).lookup k' = some v' ↔
      (y = x ∧ k' = k ∧ v' = v) ∨ (bucket idx y).lookup k' = some v' := by
  rw [addEntry, bucket_insert, if_neg hk]
  by_cases hy : y = x
  · subst hy
    rw [if_pos rfl, lookup_insert_eq_ite]
    by_cases hkk : k' = k
    · subst hkk
      rw [if_pos rfl, Finmap.lookup_eq_none.mpr hk]
      simp [eq_comm]
    · rw [if_neg hkk]
      simp [hkk]
  · rw [if_neg hy]
    simp [hy]

theorem lookup_bucket_dropEntry {k k' : K} :
    (bucket (dropEntry idx x k) y).lookup k' =
      if y = x ∧ k' = k then none else (bucket idx y).lookup k' := by
  have herased : ((bucket idx x).erase k).lookup k' =
      if k' = k then none else (bucket idx x).lookup k' := lookup_erase_eq_ite _ _ _
  unfold dropEntry
  by_cases hempty : ((bucket idx x).erase k).keys = ∅
  · rw [if_pos hempty]
    by_cases hy : y = x
    · subst hy
      rw [bucket, Finmap.lookup_erase, Option.getD_none, Finmap.lookup_empty]
      rw [eq_empty_of_keys hempty, Finmap.lookup_empty] at herased
      simpa using herased
    · rw [bucket, Finmap.lookup_erase_ne hy, if_neg (fun h => hy h.1), bucket]
  · rw [if_neg hempty, bucket_insert]
    by_cases hy : y = x
    · subst hy
      simpa using herased
    · rw [if_neg hy, if_neg (fun h => hy h.1)]

/-! ### Inverse indexes -/

theorem inverse_empty : Inverse f (∅ : Finmap fun _ : K => V) (∅ : Buckets X K V) := by
  intro x k v
  simp [bucket]

theorem inverse_touch (h : Inverse f m idx) : Inverse f m (touch idx x) := by
  intro y k v
  rw [bucket_touch]
  exact h y k v

/-- Adding the entry to one bucket after the other. -/
theorem lookup_bucket_addEntries {k' : K} {v' : V} (xs : List X)
    (hk : ∀ x, k ∈ bucket idx x → (bucket idx x).lookup k = some v) :
    (bucket (xs.foldl (fun idx x => addEntry idx x k v) idx) y).lookup k' = some v' ↔
      (y ∈ xs ∧ k' = k ∧ v' = v) ∨ (bucket idx y).lookup k' = some v' := by
  induction xs generalizing idx with
  | nil => simp
  | cons x xs ih =>
    have hone : ∀ y k' v', (bucket (addEntry idx x k v) y).lookup k' = some v' ↔
        (y = x ∧ k' = k ∧ v' = v) ∨ (bucket idx y).lookup k' = some v' := by
      intro y k' v'
      by_cases hmem : k ∈ bucket idx x
      · -- the bucket has the entry already
        rw [addEntry, if_pos hmem, bucket_insert]
        by_cases hy : y = x
        · subst hy
          rw [if_pos rfl]
          refine ⟨.inr, ?_⟩
          rintro (⟨-, rfl, rfl⟩ | h)
          · exact hk y hmem
          · exact h
        · rw [if_neg hy]
          simp [hy]
      · exact lookup_bucket_addEntry hmem
    rw [List.foldl_cons, ih, hone, List.mem_cons]
    · tauto
    · intro z hz
      obtain ⟨w, hw⟩ := Finmap.mem_iff.mp hz
      rw [hone]
      rcases (hone z k w).mp hw with ⟨rfl, -, -⟩ | h
      · exact .inl ⟨rfl, rfl, rfl⟩
      · exact .inr (hk z (Finmap.mem_of_lookup_eq_some h))

/-- **A new entry is added** to the buckets of its features. -/
theorem Inverse.insert (h : Inverse f m idx) (hk : k ∉ m) :
    Inverse f (m.insert k v) ((f v).foldl (fun idx x => addEntry idx x k v) idx) := by
  intro y k' v'
  have hnew : ∀ x, k ∉ bucket idx x := by
    intro x hx
    obtain ⟨w, hw⟩ := Finmap.mem_iff.mp hx
    exact hk (Finmap.mem_of_lookup_eq_some ((h x k w).mp hw).1)
  rw [lookup_bucket_addEntries (f v) fun x hx => absurd hx (hnew x), lookup_insert_eq_ite, h y k' v']
  by_cases hkk : k' = k
  · subst hkk
    rw [if_pos rfl, Finmap.lookup_eq_none.mpr hk]
    simp only [reduceCtorEq, false_and, or_false, true_and, Option.some.injEq]
    constructor
    · rintro ⟨hy, rfl⟩
      exact ⟨rfl, hy⟩
    · rintro ⟨rfl, hy⟩
      exact ⟨hy, rfl⟩
  · rw [if_neg hkk]
    simp [hkk]

theorem lookup_bucket_dropEntries {k' : K} (xs : List X) :
    (bucket (xs.foldl (fun idx x => dropEntry idx x k) idx) y).lookup k' =
      if y ∈ xs ∧ k' = k then none else (bucket idx y).lookup k' := by
  induction xs generalizing idx with
  | nil => simp
  | cons x xs ih =>
    rw [List.foldl_cons, ih, lookup_bucket_dropEntry]
    by_cases hk : k' = k
    · by_cases hy : y = x
      · simp [hk, hy]
      · simp [hk, hy]
    · simp [hk]

/-- **An entry is taken out** of the buckets of its features. -/
theorem Inverse.erase (h : Inverse f m idx) (hk : m.lookup k = some v) :
    Inverse f (m.erase k) ((f v).foldl (fun idx x => dropEntry idx x k) idx) := by
  intro y k' v'
  rw [lookup_bucket_dropEntries, lookup_erase_eq_ite]
  by_cases hkk : k' = k
  · subst hkk
    rw [if_pos rfl]
    by_cases hy : y ∈ f v
    · rw [if_pos ⟨hy, rfl⟩]
      simp
    · rw [if_neg fun h => hy h.1, h y k' v', hk]
      simp only [Option.some.injEq, reduceCtorEq, false_and, iff_false, not_and]
      rintro rfl
      exact hy
  · rw [if_neg fun h => hkk h.2, if_neg hkk, h y k' v']

/-! ### Empty buckets -/

omit [DecidableEq K] in
theorem noEmpty_empty : NoEmpty (∅ : Buckets X K V) := by
  intro x b hb
  cases hb

theorem NoEmpty.addEntry (h : NoEmpty idx) : NoEmpty (addEntry idx x k v) := by
  intro y b hb
  rw [BackIndex.addEntry, lookup_insert_eq_ite] at hb
  by_cases hy : y = x
  · rw [if_pos hy] at hb
    cases hb
    refine Finset.ne_empty_of_mem (a := k) (Finmap.mem_keys.mpr ?_)
    by_cases hk : k ∈ bucket idx x
    · rwa [if_pos hk]
    · rw [if_neg hk]
      exact Finmap.mem_insert.mpr (.inl rfl)
  · rw [if_neg hy] at hb
    exact h y b hb

theorem NoEmpty.dropEntry (h : NoEmpty idx) : NoEmpty (dropEntry idx x k) := by
  intro y b hb
  unfold BackIndex.dropEntry at hb
  by_cases hempty : ((bucket idx x).erase k).keys = ∅
  · rw [if_pos hempty, lookup_erase_eq_ite] at hb
    by_cases hy : y = x
    · rw [if_pos hy] at hb
      cases hb
    · rw [if_neg hy] at hb
      exact h y b hb
  · rw [if_neg hempty, lookup_insert_eq_ite] at hb
    by_cases hy : y = x
    · rw [if_pos hy] at hb
      cases hb
      exact hempty
    · rw [if_neg hy] at hb
      exact h y b hb

/-- Taking keys out of other buckets does not remove a bucket. -/
theorem lookup_dropEntries_of_notMem {xs : List X} (hx : x ∉ xs) :
    (xs.foldl (fun idx y => dropEntry idx y k) idx).lookup x = idx.lookup x := by
  induction xs generalizing idx with
  | nil => rfl
  | cons y xs ih =>
    obtain ⟨hxy, hxs⟩ := not_or.mp (List.mem_cons.not.mp hx)
    rw [List.foldl_cons, ih hxs, dropEntry]
    split_ifs
    · exact Finmap.lookup_erase_ne hxy
    · exact Finmap.lookup_insert_of_ne _ hxy

/-- **The number of buckets is bounded** by the features of the entries when none is empty. -/
theorem keys_card_le (h : Inverse f m idx) (hne : NoEmpty idx) :
    idx.keys.card ≤ (m.entries.map fun e => (f e.2).length).sum := by
  classical
  have hsub : idx.keys ⊆ (m.entries.bind fun e => (f e.2 : Multiset X)).toFinset := by
    intro x hx
    obtain ⟨b, hb⟩ := Finmap.mem_iff.mp (Finmap.mem_keys.mp hx)
    obtain ⟨k, hk⟩ := Finset.nonempty_iff_ne_empty.mpr (hne x b hb)
    obtain ⟨v, hv⟩ := Finmap.mem_iff.mp (Finmap.mem_keys.mp hk)
    rw [← bucket_eq_of_lookup hb, h x k v] at hv
    rw [Multiset.mem_toFinset, Multiset.mem_bind]
    exact ⟨⟨k, v⟩, Finmap.lookup_eq_some_iff.mp hv.1, hv.2⟩
  refine (Finset.card_le_card hsub).trans ((Multiset.toFinset_card_le _).trans (le_of_eq ?_))
  rw [Multiset.card_bind]
  rfl

end BackIndex
