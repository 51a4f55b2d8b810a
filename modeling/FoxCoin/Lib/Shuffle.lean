import Mathlib.Data.List.MinMax
import Mathlib.Tactic

/-! # Drawing from a list

The first elements of a list are drawn one after the other: the element at a position changes places
with one at that position or later. The drawn elements are then at the front of the list, in the
order in which they were drawn. -/

namespace Shuffle

variable {α : Type} {pick : ℕ → ℕ} {l : List α} {i j m : ℕ}

/-- The list with the elements at two positions exchanged. -/
def swap (l : List α) (i j : ℕ) : List α :=
  match l[j]?, l[i]? with
  | some x, some y => (l.set j y).set i x
  | _, _ => l

/-- Position by position, an element changes places with the one at the picked position. -/
def draw (pick : ℕ → ℕ) (is : List ℕ) (l : List α) : List α :=
  is.foldl (fun l i => swap l i (pick i)) l

@[simp] theorem draw_nil (pick : ℕ → ℕ) (l : List α) : draw pick [] l = l := rfl

@[simp] theorem draw_cons (pick : ℕ → ℕ) (i : ℕ) (is : List ℕ) (l : List α) :
    draw pick (i :: is) l = draw pick is (swap l i (pick i)) := rfl

theorem swap_perm (l : List α) (i j : ℕ) : (swap l i j).Perm l := by
  unfold swap
  split
  · next x y hx hy =>
    obtain ⟨hj, rfl⟩ := List.getElem?_eq_some_iff.mp hx
    obtain ⟨hi, rfl⟩ := List.getElem?_eq_some_iff.mp hy
    exact List.set_set_perm hj hi
  · exact .refl l

theorem draw_perm (pick : ℕ → ℕ) (is : List ℕ) (l : List α) : (draw pick is l).Perm l := by
  induction is generalizing l with
  | nil => exact .refl l
  | cons i is ih => exact (ih (swap l i (pick i))).trans (swap_perm l i (pick i))

/-- The first position holds the element that was picked. -/
theorem swap_getElem?_self (hi : i < l.length) (hj : j < l.length) : (swap l i j)[i]? = l[j]? := by
  unfold swap
  rw [List.getElem?_eq_getElem hj, List.getElem?_eq_getElem hi]
  dsimp only
  rw [List.getElem?_set_self (by simpa using hi)]

/-- Positions other than the two keep their element. -/
theorem swap_getElem?_of_ne {k : ℕ} (hi : k ≠ i) (hj : k ≠ j) : (swap l i j)[k]? = l[k]? := by
  unfold swap
  split
  · rw [List.getElem?_set_ne (Ne.symm hi), List.getElem?_set_ne (Ne.symm hj)]
  · rfl

/-- What was drawn stays where it is. -/
theorem draw_getElem?_of_lt {is : List ℕ} (h : ∀ j ∈ is, i < j ∧ j ≤ pick j) :
    (draw pick is l)[i]? = l[i]? := by
  induction is generalizing l with
  | nil => rfl
  | cons j is ih =>
    obtain ⟨⟨hlt, hle⟩, hrest⟩ := List.forall_mem_cons.mp h
    rw [draw_cons, ih hrest, swap_getElem?_of_ne (by omega) (by omega)]

/-! ## The first least element -/

/-- **Keeping the smaller of the best so far and the next one** finds the first least element. -/
theorem foldl_eq_argmin {β γ : Type} [LinearOrder β] (f : ℕ → β) (g : ℕ → γ)
    {better : ℕ → Option γ → γ} (hnone : ∀ j, better j none = g j)
    (hsome : ∀ j k, better j (some (g k)) = if f j < f k then g j else g k) (js : List ℕ) :
    js.foldl (fun best j => some (better j best)) none = (js.argmin f).map g := by
  have hgeneral : ∀ (js : List ℕ) (o : Option ℕ),
      js.foldl (fun best j => some (better j best)) (o.map g) =
        (js.foldl (List.argAux fun b c => f b < f c) o).map g := by
    intro js
    induction js with
    | nil => exact fun o => rfl
    | cons j js ih =>
      intro o
      rw [List.foldl_cons, List.foldl_cons, ← ih]
      congr 1
      cases o with
      | none => exact congrArg some (hnone j)
      | some k =>
        rw [Option.map_some, hsome, List.argAux]
        dsimp only
        split_ifs <;> rfl
  exact hgeneral js none

end Shuffle
