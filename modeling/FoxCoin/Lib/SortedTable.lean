import Mathlib.Data.List.TakeWhile
import Mathlib.Order.Basic
import Mathlib.Tactic

/-! # Sorted tables

The rows of a table are sorted by a key. A key splits the table into the rows below it, the row that
has it, if there is one, and the rows above it; rows are inserted and removed at that place. Where
it is can be found by halving. -/

namespace SortedTable

variable {α β γ : Type} [LinearOrder β] {key : α → β} {l A B : List α} {x : β}

/-- The rows are sorted by their keys, and no key is there twice. -/
def Sorted (key : α → β) (l : List α) : Prop := (l.map key).Pairwise (· < ·)

/-- The position of the first row whose key is not below `x`. -/
def lowerPos (l : List β) (x : β) : ℕ := (l.takeWhile fun y => decide (y < x)).length

/-- The position of the first row whose key is above `x`. -/
def upperPos (l : List β) (x : β) : ℕ := (l.takeWhile fun y => decide (y ≤ x)).length

/-! ## Splitting -/

theorem sorted_append : Sorted key (A ++ B) ↔
    Sorted key A ∧ Sorted key B ∧ ∀ a ∈ A, ∀ b ∈ B, key a < key b := by
  unfold Sorted
  rw [List.map_append, List.pairwise_append]
  simp only [List.mem_map, forall_exists_index, and_imp, forall_apply_eq_imp_iff₂]

theorem sorted_cons {a : α} : Sorted key (a :: l) ↔ (∀ b ∈ l, key a < key b) ∧ Sorted key l := by
  unfold Sorted
  rw [List.map_cons, List.pairwise_cons]
  simp only [List.mem_map, forall_exists_index, and_imp, forall_apply_eq_imp_iff₂]

theorem takeWhile_append {p : α → Bool} (hA : ∀ a ∈ A, p a = true) (hB : ∀ b ∈ B, p b = false) :
    (A ++ B).takeWhile p = A := by
  rw [List.takeWhile_append_of_pos hA]
  cases B with
  | nil => rw [List.takeWhile_nil, List.append_nil]
  | cons b B =>
    rw [List.takeWhile_cons_of_neg (by simp [hB b (List.mem_cons_self ..)]), List.append_nil]

theorem lowerPos_append (hA : ∀ a ∈ A, key a < x) (hB : ∀ b ∈ B, x ≤ key b) :
    lowerPos ((A ++ B).map key) x = A.length := by
  unfold lowerPos
  rw [List.map_append, takeWhile_append, List.length_map]
  · simpa using hA
  · simpa using hB

theorem upperPos_append (hA : ∀ a ∈ A, key a ≤ x) (hB : ∀ b ∈ B, x < key b) :
    upperPos ((A ++ B).map key) x = A.length := by
  unfold upperPos
  rw [List.map_append, takeWhile_append, List.length_map]
  · simpa using hA
  · simpa using hB

/-- A key that no row has splits the table in two. -/
structure Absent (key : α → β) (x : β) (l A B : List α) : Prop where
  eq : l = A ++ B
  below : ∀ a ∈ A, key a < x
  above : ∀ b ∈ B, x < key b

/-- A key that a row has. -/
structure Present (key : α → β) (x : β) (l A : List α) (e : α) (B : List α) : Prop where
  eq : l = A ++ e :: B
  below : ∀ a ∈ A, key a < x
  key_eq : key e = x
  above : ∀ b ∈ B, x < key b

theorem Absent.lowerPos (h : Absent key x l A B) : lowerPos (l.map key) x = A.length := by
  rw [h.eq]
  exact lowerPos_append h.below fun b hb => (h.above b hb).le

theorem Absent.upperPos (h : Absent key x l A B) : upperPos (l.map key) x = A.length := by
  rw [h.eq]
  exact upperPos_append (fun a ha => (h.below a ha).le) h.above

theorem Present.lowerPos {e : α} (h : Present key x l A e B) :
    lowerPos (l.map key) x = A.length := by
  rw [h.eq]
  refine lowerPos_append h.below fun b hb => ?_
  rcases List.mem_cons.mp hb with rfl | hb
  · exact h.key_eq.ge
  · exact (h.above b hb).le

theorem Present.upperPos {e : α} (h : Present key x l A e B) :
    upperPos (l.map key) x = A.length + 1 := by
  rw [h.eq, List.append_cons, upperPos_append, List.length_append, List.length_singleton]
  · intro a ha
    rcases List.mem_append.mp ha with ha | ha
    · exact (h.below a ha).le
    · rw [List.mem_singleton.mp ha]
      exact h.key_eq.le
  · exact h.above

theorem Absent.notMem (h : Absent key x l A B) : ∀ a ∈ l, key a ≠ x := by
  intro a ha
  rw [h.eq] at ha
  rcases List.mem_append.mp ha with ha | ha
  · exact (h.below a ha).ne
  · exact (h.above a ha).ne'

/-- A key is absent from a sorted table, or present. -/
theorem Sorted.split (h : Sorted key l) (x : β) :
    (∃ A B, Absent key x l A B) ∨ ∃ A e B, Present key x l A e B := by
  induction l with
  | nil => exact .inl ⟨[], [], rfl, by simp, by simp⟩
  | cons a l ih =>
    obtain ⟨habove, hl⟩ := sorted_cons.mp h
    rcases lt_trichotomy (key a) x with hlt | heq | hgt
    · rcases ih hl with ⟨A, B, hsplit⟩ | ⟨A, e, B, hsplit⟩
      · refine .inl ⟨a :: A, B, by rw [hsplit.eq]; rfl, ?_, hsplit.above⟩
        exact List.forall_mem_cons.mpr ⟨hlt, hsplit.below⟩
      · refine .inr ⟨a :: A, e, B, by rw [hsplit.eq]; rfl, ?_, hsplit.key_eq, hsplit.above⟩
        exact List.forall_mem_cons.mpr ⟨hlt, hsplit.below⟩
    · refine .inr ⟨[], a, l, rfl, by simp, heq, fun b hb => ?_⟩
      rw [← heq]
      exact habove b hb
    · refine .inl ⟨[], a :: l, rfl, by simp, ?_⟩
      exact List.forall_mem_cons.mpr ⟨hgt, fun b hb => hgt.trans (habove b hb)⟩

/-! ## Changing the table -/

theorem insertIdx_append (A B : List α) (e : α) : (A ++ B).insertIdx A.length e = A ++ e :: B := by
  induction A with
  | nil => exact List.insertIdx_zero
  | cons a A ih => exact congrArg (List.cons a) ih

/-- A new row is put at its place. -/
theorem Absent.insert (h : Absent key x l A B) (hl : Sorted key l) {e : α} (he : key e = x) :
    Sorted key (A ++ e :: B) := by
  rw [h.eq, sorted_append] at hl
  refine sorted_append.mpr ⟨hl.1, sorted_cons.mpr ⟨fun b hb => ?_, hl.2.1⟩, fun a ha b hb => ?_⟩
  · rw [he]
    exact h.above b hb
  · rcases List.mem_cons.mp hb with rfl | hb
    · rw [he]
      exact h.below a ha
    · exact hl.2.2 a ha b hb

/-- A row is removed. -/
theorem Present.erase {e : α} (h : Present key x l A e B) (hl : Sorted key l) :
    Sorted key (A ++ B) := by
  rw [h.eq, sorted_append, sorted_cons] at hl
  exact sorted_append.mpr ⟨hl.1, hl.2.1.2, fun a ha b hb =>
    hl.2.2 a ha b (List.mem_cons_of_mem _ hb)⟩

/-- A row is replaced by one with the same key. -/
theorem Present.replace {e e' : α} (h : Present key x l A e B) (hl : Sorted key l)
    (he : key e' = x) : Sorted key (A ++ e' :: B) := by
  have habsent : Absent key x (A ++ B) A B := ⟨rfl, h.below, h.above⟩
  exact habsent.insert (h.erase hl) he

/-! ## Halving -/

/-- The search for the end of the positions where a condition holds, among `n` positions. -/
def halve (p : ℕ → Bool) (start n : ℕ) : ℕ :=
  if n = 0 then start
  else if p (start + n / 2) then halve p (start + n / 2 + 1) (n - (n / 2 + 1))
  else halve p start (n / 2)
termination_by n
decreasing_by
  · omega
  · omega

/-- Halving finds the end, if the condition holds before it and not after it. -/
theorem halve_eq {p : ℕ → Bool} {k : ℕ} (hbelow : ∀ i < k, p i = true)
    (habove : ∀ i, k ≤ i → p i = false) (start n : ℕ) (hstart : start ≤ k) (hk : k ≤ start + n) :
    halve p start n = k := by
  induction start, n using halve.induct p with
  | case1 start =>
    rw [halve, if_pos rfl]
    omega
  | case2 start n hn hp ih =>
    rw [halve, if_neg hn, if_pos hp]
    refine ih ?_ (by omega)
    by_contra hlt
    rw [habove _ (by omega)] at hp
    cases hp
  | case3 start n hn hp ih =>
    rw [halve, if_neg hn, if_neg hp]
    refine ih hstart ?_
    by_contra hlt
    exact hp (hbelow _ (by omega))

/-- The end of the elements of a list that satisfy a condition, by halving. -/
def halveList (p : γ → Bool) (l : List γ) : ℕ := halve (fun i => l[i]?.any p) 0 l.length

/-- Halving finds the end of the elements that satisfy a condition, if they are all in front. -/
theorem halveList_eq {p : γ → Bool} {l : List γ} (hsorted : l.Pairwise fun a b => p b → p a) :
    halveList p l = (l.takeWhile p).length := by
  have hdrop : ∀ b ∈ l.dropWhile p, p b = false := by
    have hpairs : (l.dropWhile p).Pairwise fun a b => p b → p a :=
      hsorted.sublist (List.dropWhile_sublist _)
    cases hrest : l.dropWhile p with
    | nil => simp
    | cons a rest =>
      have ha : p a = false := by
        have := List.dropWhile_get_zero_not (p := p) l (by simp [hrest])
        simpa [hrest] using this
      rw [hrest] at hpairs
      intro b hb
      rcases List.mem_cons.mp hb with rfl | hb
      · exact ha
      · by_contra hp
        have := (List.pairwise_cons.mp hpairs).1 b hb (by simpa using hp)
        rw [ha] at this
        cases this
  have hsplit := List.takeWhile_append_dropWhile (p := p) (l := l)
  have hlen : (l.takeWhile p).length ≤ l.length := (List.takeWhile_sublist p).length_le
  refine halve_eq (fun i hi => ?_) (fun i hi => ?_) 0 l.length (Nat.zero_le _) (by omega)
  · rw [← hsplit, List.getElem?_append_left hi, List.getElem?_eq_getElem hi, Option.any_some]
    exact List.mem_takeWhile_imp (List.getElem_mem hi)
  · rw [← hsplit, List.getElem?_append_right hi]
    cases hget : (l.dropWhile p)[i - (l.takeWhile p).length]? with
    | none => rfl
    | some b => exact hdrop b (List.mem_of_getElem? hget)

/-- The position of the first row whose key is not below `x`, by halving. -/
def lowerHalving (l : List β) (x : β) : ℕ := halveList (fun y => decide (y < x)) l

/-- The position of the first row whose key is above `x`, by halving. -/
def upperHalving (l : List β) (x : β) : ℕ := halveList (fun y => decide (y ≤ x)) l

theorem lowerHalving_eq {l : List β} (h : l.Pairwise (· < ·)) (x : β) :
    lowerHalving l x = lowerPos l x :=
  halveList_eq (h.imp fun hlt hb => decide_eq_true (hlt.trans (of_decide_eq_true hb)))

theorem upperHalving_eq {l : List β} (h : l.Pairwise (· < ·)) (x : β) :
    upperHalving l x = upperPos l x :=
  halveList_eq (h.imp fun hlt hb => decide_eq_true (hlt.le.trans (of_decide_eq_true hb)))

/-- Halving does not find the first of two rows that are in the wrong order. -/
theorem halving_missed {first second : β} (hlt : second < first) :
    lowerHalving [first, second] first = 2 ∧ upperHalving [first, second] first = 2 := by
  constructor
  · show halve _ 0 2 = 2
    rw [halve, if_neg (by decide), if_pos (by simpa using hlt), halve, if_pos rfl]
  · show halve _ 0 2 = 2
    rw [halve, if_neg (by decide), if_pos (by simpa using hlt.le), halve, if_pos rfl]

end SortedTable
