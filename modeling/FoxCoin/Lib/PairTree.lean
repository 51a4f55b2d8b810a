import Mathlib.Data.List.Nodup
import Mathlib.Data.Nat.Bitwise
import Mathlib.Data.Set.Function
import Mathlib.Tactic.Ring

/-! # Trees of pairs over a list

Neighbours are combined row by row until one value is left; an odd last entry is combined with
itself. -/

namespace PairTree

variable {α : Type*}

/-! ## Pairs -/

/-- The pairs of neighbours in a row. -/
def pairs : List α → List (α × α)
  | [] => []
  | [a] => [(a, a)]
  | a :: b :: l => (a, b) :: pairs l

theorem length_pairs (l : List α) : (pairs l).length = (l.length + 1) / 2 := by
  induction l using pairs.induct with
  | case1 => simp [pairs]
  | case2 a => simp [pairs]
  | case3 a b l ih =>
    simp only [pairs, List.length_cons, ih]
    omega

theorem pairs_ne_nil {l : List α} (h : l ≠ []) : pairs l ≠ [] := by
  have hlen := List.length_pos_of_ne_nil h
  rw [← List.length_pos_iff_ne_nil, length_pairs]
  omega

theorem fst_mem_of_mem_pairs {l : List α} {p : α × α} (h : p ∈ pairs l) : p.1 ∈ l := by
  induction l using pairs.induct with
  | case1 => cases h
  | case2 a => simp_all [pairs]
  | case3 a b l ih =>
    rcases List.mem_cons.mp h with rfl | h
    · simp
    · simp [ih h]

theorem nodup_pairs {l : List α} (h : l.Nodup) : (pairs l).Nodup := by
  induction l using pairs.induct with
  | case1 => exact List.nodup_nil
  | case2 a => exact List.nodup_singleton _
  | case3 a b l ih =>
    rw [List.nodup_cons, List.nodup_cons, List.mem_cons, not_or] at h
    refine List.nodup_cons.mpr ⟨fun hmem => h.1.2 (fst_mem_of_mem_pairs hmem), ih h.2.2⟩

/-- Only a repeated last entry hides whether a row is odd. -/
theorem pairs_inj {l l' : List α} (h : l.Nodup) (h' : l'.Nodup) (heq : pairs l = pairs l') : l = l' := by
  induction l using pairs.induct generalizing l' with
  | case1 =>
    by_contra hne
    exact pairs_ne_nil (Ne.symm hne) heq.symm
  | case2 a =>
    match l' with
    | [] => cases heq
    | [c] => simp_all [pairs]
    | c :: d :: l' =>
      obtain ⟨⟨rfl, rfl⟩, -⟩ : (a = c ∧ a = d) ∧ [] = pairs l' := by simpa [pairs] using heq
      simp at h'
  | case3 a b l ih =>
    match l' with
    | [] => cases heq
    | [c] =>
      obtain ⟨⟨rfl, rfl⟩, -⟩ : (a = c ∧ b = c) ∧ pairs l = [] := by simpa [pairs] using heq
      simp at h
    | c :: d :: l' =>
      obtain ⟨⟨rfl, rfl⟩, hl⟩ : (a = c ∧ b = d) ∧ pairs l = pairs l' := by simpa [pairs] using heq
      rw [ih (h.of_cons).of_cons (h'.of_cons).of_cons hl]

theorem getElem?_pairs {l : List α} {k : ℕ} (h : 2 * k < l.length) :
    (pairs l)[k]? = (l[2 * k]?).bind fun a => (l[min (2 * k + 1) (l.length - 1)]?).map (a, ·) := by
  induction l using pairs.induct generalizing k with
  | case1 => simp at h
  | case2 a =>
    obtain rfl : k = 0 := by simp at h; omega
    simp [pairs]
  | case3 a b l ih =>
    cases k with
    | zero => simp [pairs]
    | succ k =>
      have hk : 2 * k < l.length := by simp at h; omega
      have hmin : min (2 * (k + 1) + 1) ((a :: b :: l).length - 1) =
          min (2 * k + 1) (l.length - 1) + 2 := by
        simp only [List.length_cons]
        omega
      rw [pairs, List.getElem?_cons_succ, ih hk, hmin, show 2 * (k + 1) = 2 * k + 2 by ring]
      simp only [List.getElem?_cons_succ]

/-! ## Rows -/

variable (pair : α → α → α)

/-- The row above a row. -/
def row (l : List α) : List α := (pairs l).map (Function.uncurry pair)

theorem length_row (l : List α) : (row pair l).length = (l.length + 1) / 2 := by
  rw [row, List.length_map, length_pairs]

theorem getD_row (d : α) {l : List α} {k : ℕ} (h : 2 * k < l.length) :
    (row pair l).getD k d = pair (l.getD (2 * k) d) (l.getD (min (2 * k + 1) (l.length - 1)) d) := by
  have hmin : min (2 * k + 1) (l.length - 1) < l.length := by omega
  simp only [row, List.getD_eq_getElem?_getD, List.getElem?_map, getElem?_pairs h]
  rw [List.getElem?_eq_getElem h, List.getElem?_eq_getElem hmin]
  rfl

/-- The rows of the tree from the leaves up. -/
def rows (l : List α) : List (List α) := if l.length ≤ 1 then [l] else l :: rows (row pair l)
termination_by l.length
decreasing_by rw [length_row]; omega

theorem rows_of_le {l : List α} (h : l.length ≤ 1) : rows pair l = [l] := by rw [rows, if_pos h]

theorem rows_of_lt {l : List α} (h : 1 < l.length) : rows pair l = l :: rows pair (row pair l) := by
  rw [rows, if_neg (by omega)]

theorem self_mem_rows (l : List α) : l ∈ rows pair l := by
  rw [rows]
  split <;> simp

/-- The last value of the tree. -/
def root (d : α) (l : List α) : α := (rows pair l).flatten.getLastD d

theorem root_of_le (d : α) {l : List α} (h : l.length ≤ 1) : root pair d l = l.getLastD d := by
  rw [root, rows_of_le pair h, List.flatten_cons, List.flatten_nil, List.append_nil]

theorem root_of_lt (d : α) {l : List α} (h : 1 < l.length) :
    root pair d l = root pair d (row pair l) := by
  have hne : (rows pair (row pair l)).flatten ≠ [] := by
    have hrow : row pair l ≠ [] := by
      rw [← List.length_pos_iff_ne_nil, length_row]
      omega
    intro hnil
    exact hrow (List.flatten_eq_nil_iff.mp hnil _ (self_mem_rows pair _))
  rw [root, rows_of_lt pair h, List.flatten_cons, root, List.getLastD_eq_getLast?,
    List.getLast?_append_of_ne_nil _ hne, ← List.getLastD_eq_getLast?]

/-! ## The root determines the leaves -/

/-- A pair that is combined somewhere in the tree. -/
def Combined (l : List α) (p : α × α) : Prop := ∃ m ∈ rows pair l, 1 < m.length ∧ p ∈ pairs m

variable {pair}

theorem Combined.of_row {l : List α} {p : α × α} (hl : 1 < l.length)
    (h : Combined pair (row pair l) p) : Combined pair l p := by
  obtain ⟨m, hm, hlen, hp⟩ := h
  exact ⟨m, rows_of_lt pair hl ▸ List.mem_cons_of_mem _ hm, hlen, hp⟩

theorem combined_of_mem_pairs {l : List α} {p : α × α} (hl : 1 < l.length) (h : p ∈ pairs l) :
    Combined pair l p := ⟨l, self_mem_rows pair l, hl, h⟩

theorem nodup_row {l : List α} (hl : 1 < l.length) (h : l.Nodup)
    (hinj : Set.InjOn (Function.uncurry pair) {p | Combined pair l p}) : (row pair l).Nodup :=
  List.Nodup.map_on (fun _ hp _ hq => hinj (combined_of_mem_pairs hl hp) (combined_of_mem_pairs hl hq))
    (nodup_pairs h)

/-- Rows stay free of repetitions, and a row other than the leaves is above another one. -/
theorem row_of_mem_rows {l : List α} (h : l.Nodup)
    (hinj : Set.InjOn (Function.uncurry pair) {p | Combined pair l p}) {m : List α}
    (hm : m ∈ rows pair l) :
    m.Nodup ∧ (m = l ∨ ∃ m' ∈ rows pair l, 1 < m'.length ∧ m = row pair m') := by
  induction l using rows.induct pair with
  | case1 l hl =>
    rw [rows_of_le pair hl, List.mem_singleton] at hm
    exact ⟨hm ▸ h, .inl hm⟩
  | case2 l hl ih =>
    have hlt : 1 < l.length := by omega
    rw [rows_of_lt pair hlt, List.mem_cons] at hm
    obtain rfl | hm := hm
    · exact ⟨h, .inl rfl⟩
    · obtain ⟨hnodup, hrow⟩ := ih (nodup_row hlt h hinj) (hinj.mono fun p hp => hp.of_row hlt) hm
      refine ⟨hnodup, .inr ?_⟩
      obtain rfl | ⟨m', hm', hlen, rfl⟩ := hrow
      · exact ⟨l, self_mem_rows pair l, hlt, rfl⟩
      · exact ⟨m', rows_of_lt pair hlt ▸ List.mem_cons_of_mem _ hm', hlen, rfl⟩

/-- Lists with the same image are equal where the function is injective. -/
theorem map_injOn {β : Type*} {f : α → β} {S : Set α} (hf : S.InjOn f) {l m : List α}
    (hl : ∀ a ∈ l, a ∈ S) (hm : ∀ a ∈ m, a ∈ S) (h : l.map f = m.map f) : l = m := by
  induction l generalizing m with
  | nil => exact (List.map_eq_nil_iff.mp h.symm).symm
  | cons a l ih =>
    obtain ⟨b, m, rfl, hb, hml⟩ := List.map_eq_cons_iff.mp h.symm
    rw [List.forall_mem_cons] at hl hm
    rw [hf hl.1 hm.1 hb.symm, ih hl.2 hm.2 hml.symm]

theorem row_inj {S : Set (α × α)} (hinj : S.InjOn (Function.uncurry pair)) {l m : List α}
    (hl : ∀ p ∈ pairs l, p ∈ S) (hm : ∀ p ∈ pairs m, p ∈ S) (hnodup : l.Nodup) (hnodup' : m.Nodup)
    (h : row pair l = row pair m) : l = m :=
  pairs_inj hnodup hnodup' (map_injOn hinj hl hm h)

theorem singleton_root_mem_rows (d : α) {l : List α} (h : l ≠ []) :
    [root pair d l] ∈ rows pair l := by
  induction l using rows.induct pair with
  | case1 l hl =>
    obtain ⟨a, rfl⟩ : ∃ a, l = [a] := by
      rw [← List.length_eq_one_iff]
      have := List.length_pos_of_ne_nil h
      omega
    rw [root_of_le pair d hl, rows_of_le pair hl]
    simp
  | case2 l hl ih =>
    have hlt : 1 < l.length := by omega
    rw [root_of_lt pair d hlt, rows_of_lt pair hlt]
    exact List.mem_cons_of_mem _ (ih (by simpa [row] using pairs_ne_nil h))

/-- A row that two trees share is above the same row in both. -/
theorem mem_rows_of_row_mem {l l' : List α} (hlt : 1 < l.length) (hlt' : 1 < l'.length) (h : l.Nodup)
    (h' : l'.Nodup)
    (hinj : Set.InjOn (Function.uncurry pair) {p | Combined pair l p ∨ Combined pair l' p})
    (hmem : row pair l ∈ rows pair (row pair l')) : l ∈ rows pair l' := by
  have hinj' : Set.InjOn (Function.uncurry pair) {p | Combined pair l' p} :=
    hinj.mono fun p hp => .inr hp
  have hl : ∀ p ∈ pairs l, Combined pair l p ∨ Combined pair l' p :=
    fun p hp => .inl (combined_of_mem_pairs hlt hp)
  obtain ⟨-, hrow | ⟨m, hm, hlen, hrow⟩⟩ := row_of_mem_rows (nodup_row hlt' h' hinj')
    (hinj'.mono fun p hp => hp.of_row hlt') hmem
  · rw [row_inj hinj hl (fun p hp => .inr (combined_of_mem_pairs hlt' hp)) h h' hrow]
    exact self_mem_rows pair l'
  · have hm' : m ∈ rows pair l' := rows_of_lt pair hlt' ▸ List.mem_cons_of_mem _ hm
    rwa [row_inj hinj hl (fun p hp => .inr ⟨m, hm', hlen, hp⟩) h
      (row_of_mem_rows h' hinj' hm').1 hrow]

/-- Trees with the same root are the same from the last row down, as far as both reach. -/
theorem mem_rows_of_root_eq (d : α) {l l' : List α} (hne : l ≠ []) (hne' : l' ≠ []) (h : l.Nodup)
    (h' : l'.Nodup)
    (hinj : Set.InjOn (Function.uncurry pair) {p | Combined pair l p ∨ Combined pair l' p})
    (heq : root pair d l = root pair d l') : l ∈ rows pair l' ∨ l' ∈ rows pair l := by
  have hsingle : ∀ l : List α, l ≠ [] → l.length ≤ 1 → l = [root pair d l] := by
    intro l hne hl
    have hmem : [root pair d l] ∈ rows pair l := singleton_root_mem_rows d hne
    rw [rows_of_le pair hl, List.mem_singleton] at hmem
    exact hmem.symm
  induction l using rows.induct pair generalizing l' with
  | case1 l hl =>
    rw [hsingle l hne hl, heq]
    exact .inl (singleton_root_mem_rows d hne')
  | case2 l hl ih =>
    by_cases hl' : l'.length ≤ 1
    · rw [hsingle l' hne' hl', ← heq]
      exact .inr (singleton_root_mem_rows d hne)
    have hlt : 1 < l.length := by omega
    have hlt' : 1 < l'.length := by omega
    have hrows : row pair l ∈ rows pair (row pair l') ∨ row pair l' ∈ rows pair (row pair l) := ih
      (by simpa [row] using pairs_ne_nil hne)
      (by simpa [row] using pairs_ne_nil hne')
      (nodup_row hlt h (hinj.mono fun p hp => .inl hp))
      (nodup_row hlt' h' (hinj.mono fun p hp => .inr hp))
      (hinj.mono fun p hp => hp.imp (fun hp => hp.of_row hlt) fun hp => hp.of_row hlt')
      (by rw [← root_of_lt pair d hlt, ← root_of_lt pair d hlt', heq])
    refine hrows.imp (mem_rows_of_row_mem hlt hlt' h h' hinj) (mem_rows_of_row_mem hlt' hlt h' h ?_)
    exact hinj.mono fun p hp => hp.symm

/-- **The root determines the leaves** when they are not repeated, the pairs that are combined have
different values, and none of these is a leaf. -/
theorem root_inj (d : α) {l l' : List α} (hne : l ≠ []) (hne' : l' ≠ []) (h : l.Nodup)
    (h' : l'.Nodup)
    (hinj : Set.InjOn (Function.uncurry pair) {p | Combined pair l p ∨ Combined pair l' p})
    (hleaf : ∀ p, Combined pair l p ∨ Combined pair l' p →
      Function.uncurry pair p ∉ l ∧ Function.uncurry pair p ∉ l')
    (heq : root pair d l = root pair d l') : l = l' := by
  have hleaves : ∀ {l l' : List α}, l ≠ [] → l'.Nodup →
      Set.InjOn (Function.uncurry pair) {p | Combined pair l' p} →
      (∀ p, Combined pair l' p → Function.uncurry pair p ∉ l) → l ∈ rows pair l' → l = l' := by
    intro l l' hne h' hinj hleaf hmem
    obtain ⟨-, rfl | ⟨m, hm, hlen, rfl⟩⟩ := row_of_mem_rows h' hinj hmem
    · rfl
    · obtain ⟨a, ha⟩ := List.exists_mem_of_ne_nil _ hne
      obtain ⟨p, hp, rfl⟩ := List.mem_map.mp ha
      exact absurd ha (hleaf p ⟨m, hm, hlen, hp⟩)
  obtain hmem | hmem := mem_rows_of_root_eq d hne hne' h h' hinj heq
  · exact hleaves hne h' (hinj.mono fun p hp => .inr hp) (fun p hp => (hleaf p (.inr hp)).1) hmem
  · exact (hleaves hne' h (hinj.mono fun p hp => .inl hp) (fun p hp => (hleaf p (.inl hp)).2)
      hmem).symm

/-! ## Branches -/

variable (pair)

/-- The other halves of the pairs on the way up from the entry `i`. -/
def branch (d : α) : List (List α) → ℕ → List α
  | [], _ => []
  | l :: rows, i =>
    if l.length ≤ 1 then [] else l.getD (min (i ^^^ 1) (l.length - 1)) d :: branch d rows (i / 2)

/-- The value that a branch leads to from an entry. -/
def climb : α → List α → ℕ → α
  | a, [], _ => a
  | a, b :: bs, i => climb (if i % 2 = 1 then pair b a else pair a b) bs (i / 2)

/-- **A branch leads to the root.** -/
theorem climb_branch (d : α) {l : List α} {i : ℕ} (h : i < l.length) :
    climb pair (l.getD i d) (branch d (rows pair l) i) i = root pair d l := by
  induction l using rows.induct pair generalizing i with
  | case1 l hl =>
    obtain ⟨a, rfl⟩ : ∃ a, l = [a] := List.length_eq_one_iff.mp (by omega)
    obtain rfl : i = 0 := by simpa using h
    simp [rows_of_le pair hl, root_of_le pair d hl, branch, climb]
  | case2 l hl ih =>
    have hlt : 1 < l.length := by omega
    have hnext : (row pair l).getD (i / 2) d =
        if i % 2 = 1 then pair (l.getD (min (i ^^^ 1) (l.length - 1)) d) (l.getD i d)
        else pair (l.getD i d) (l.getD (min (i ^^^ 1) (l.length - 1)) d) := by
      rw [getD_row pair d (show 2 * (i / 2) < l.length by omega)]
      by_cases hodd : i % 2 = 1
      · have hxor : i ^^^ 1 = i - 1 := Nat.xor_one_of_odd (Nat.odd_iff.mpr hodd)
        rw [if_pos hodd, hxor, show min (i - 1) (l.length - 1) = 2 * (i / 2) by omega,
          show min (2 * (i / 2) + 1) (l.length - 1) = i by omega]
      · have hxor : i ^^^ 1 = i + 1 := Nat.xor_one_of_even (Nat.even_iff.mpr (by omega))
        rw [if_neg hodd, hxor, show 2 * (i / 2) = i by omega]
    rw [rows_of_lt pair hlt, branch, if_neg hl, climb, ← hnext, root_of_lt pair d hlt]
    exact ih (by rw [length_row]; omega)

end PairTree
