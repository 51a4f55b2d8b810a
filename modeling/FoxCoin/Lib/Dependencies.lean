import Mathlib.Data.Finset.SDiff
import Mathlib.Data.Multiset.AddSub
import Mathlib.Logic.Relation
import Mathlib.Tactic

/-! # Items that wait for other items

Every item depends on some keys. An item that lacks nothing is ready; the others wait with the keys
they lack. A ready item is taken, and may complete its own key. A waiting item learns of completed
keys one by one, and it becomes ready with the last one. -/

namespace Dependencies

variable {I K : Type} [DecidableEq K]

/-- The items by what has become of them, and the keys that are completed. -/
structure State (I K : Type) where
  ready : Multiset I
  waiting : Multiset (I × Finset K)
  taken : Multiset I
  done : Finset K

variable (key : I → K)

/-- A move: a ready item is taken, with or without completing its key, or a waiting item learns of a
completed key. -/
inductive Move : State I K → State I K → Prop
  | drop (i : I) (s : State I K) :
      Move { s with ready := i ::ₘ s.ready } { s with taken := i ::ₘ s.taken }
  | complete (i : I) (s : State I K) :
      Move { s with ready := i ::ₘ s.ready }
        { s with taken := i ::ₘ s.taken, done := insert (key i) s.done }
  | learn (i : I) (lacks : Finset K) {k : K} (s : State I K) (hk : k ∈ s.done)
      (hleft : lacks.erase k ≠ ∅) :
      Move { s with waiting := (i, lacks) ::ₘ s.waiting }
        { s with waiting := (i, lacks.erase k) ::ₘ s.waiting }
  | release (i : I) (lacks : Finset K) {k : K} (s : State I K) (hk : k ∈ s.done)
      (hlast : lacks.erase k = ∅) :
      Move { s with waiting := (i, lacks) ::ₘ s.waiting } { s with ready := i ::ₘ s.ready }

/-- Moves one after the other. -/
abbrev Moves : State I K → State I K → Prop := Relation.ReflTransGen (Move key)

/-- The invariant over the items with their dependencies: every item is in one place, as often as it
is given. Items that are ready or taken have their dependencies completed; an item that waits lacks
something, and what it does not lack is completed. -/
structure Tracks (deps : I → Finset K) (items : Multiset I) (s : State I K) : Prop where
  items_eq : s.taken + s.ready + s.waiting.map Prod.fst = items
  met : ∀ i ∈ s.taken + s.ready, deps i ⊆ s.done
  lacking : ∀ w ∈ s.waiting, w.2 ≠ ∅ ∧ w.2 ⊆ deps w.1 ∧ deps w.1 \ w.2 ⊆ s.done
  done_subset : ∀ k ∈ s.done, ∃ i ∈ s.taken, key i = k

variable {key} {deps : I → Finset K} {items : Multiset I} {s s' : State I K}

/-- What a key more is known of stays outside what an item lacks. -/
theorem sdiff_erase_subset {d l done : Finset K} {k : K} (h : d \ l ⊆ done) (hk : k ∈ done) :
    d \ l.erase k ⊆ done := by
  intro x hx
  obtain ⟨hd, hl⟩ := Finset.mem_sdiff.mp hx
  by_cases hxk : x = k
  · exact hxk ▸ hk
  · exact h (Finset.mem_sdiff.mpr ⟨hd, fun hmem => hl (Finset.mem_erase.mpr ⟨hxk, hmem⟩)⟩)

/-- **One move keeps the invariant.** -/
theorem Tracks.move (h : Tracks key deps items s) (hmove : Move key s s') :
    Tracks key deps items s' := by
  cases hmove with
  | drop i s =>
    obtain ⟨heq, hmet, hlack, hdone⟩ := h
    refine ⟨by rw [← heq]; simp [Multiset.cons_add, Multiset.add_cons], fun j hj => ?_, hlack, ?_⟩
    · refine hmet j ?_
      simpa [Multiset.cons_add, Multiset.add_cons] using hj
    · intro k hk
      obtain ⟨j, hj, rfl⟩ := hdone k hk
      exact ⟨j, Multiset.mem_cons_of_mem hj, rfl⟩
  | complete i s =>
    obtain ⟨heq, hmet, hlack, hdone⟩ := h
    refine ⟨by rw [← heq]; simp [Multiset.cons_add, Multiset.add_cons], fun j hj => ?_,
      fun w hw => ?_, ?_⟩
    · refine (hmet j ?_).trans (Finset.subset_insert _ _)
      simpa [Multiset.cons_add, Multiset.add_cons] using hj
    · obtain ⟨h1, h2, h3⟩ := hlack w hw
      exact ⟨h1, h2, h3.trans (Finset.subset_insert _ _)⟩
    · intro k hk
      rcases Finset.mem_insert.mp hk with rfl | hk
      · exact ⟨i, Multiset.mem_cons_self i _, rfl⟩
      · obtain ⟨j, hj, rfl⟩ := hdone k hk
        exact ⟨j, Multiset.mem_cons_of_mem hj, rfl⟩
  | @learn i lacks k s hk hleft =>
    obtain ⟨heq, hmet, hlack, hdone⟩ := h
    refine ⟨by rw [← heq]; simp, hmet, fun w hw => ?_, hdone⟩
    rcases Multiset.mem_cons.mp hw with rfl | hw
    · obtain ⟨-, h2, h3⟩ := hlack _ (Multiset.mem_cons_self (i, lacks) _)
      exact ⟨hleft, (Finset.erase_subset _ _).trans h2, sdiff_erase_subset h3 hk⟩
    · exact hlack w (Multiset.mem_cons_of_mem hw)
  | @release i lacks k s hk hlast =>
    obtain ⟨heq, hmet, hlack, hdone⟩ := h
    refine ⟨by rw [← heq]; simp [Multiset.add_cons], fun j hj => ?_,
      fun w hw => hlack w (Multiset.mem_cons_of_mem hw), hdone⟩
    rw [Multiset.add_cons] at hj
    rcases Multiset.mem_cons.mp hj with rfl | hj
    · -- nothing is lacking any more
      obtain ⟨-, -, h3⟩ := hlack _ (Multiset.mem_cons_self (j, lacks) _)
      simpa [hlast] using sdiff_erase_subset h3 hk
    · exact hmet j hj

/-- **Any number of moves keeps the invariant.** -/
theorem Tracks.moves (h : Tracks key deps items s) (hmoves : Moves key s s') :
    Tracks key deps items s' := by
  induction hmoves with
  | refl => exact h
  | tail _ hmove ih => exact ih.move hmove

/-- What is left to do: the items that have not been taken. -/
def State.left (s : State I K) : ℕ := s.ready.card + s.waiting.card

theorem Tracks.left_add (h : Tracks key deps items s) : s.left + s.taken.card = items.card := by
  rw [← h.items_eq, State.left]
  simp only [Multiset.card_add, Multiset.card_map]
  omega

/-- **What has been taken when nothing is ready**: exactly the items whose dependencies are
completed, provided those that wait know of all completed keys. -/
theorem Tracks.mem_taken_iff (h : Tracks key deps items s) (hready : s.ready = 0)
    (hknown : ∀ w ∈ s.waiting, Disjoint w.2 s.done) {i : I} (hi : i ∈ items) :
    i ∈ s.taken ↔ deps i ⊆ s.done := by
  constructor
  · intro htaken
    exact h.met i (Multiset.mem_add.mpr (.inl htaken))
  · intro hdeps
    rw [← h.items_eq, hready, add_zero] at hi
    rcases Multiset.mem_add.mp hi with htaken | hwait
    · exact htaken
    obtain ⟨w, hw, rfl⟩ := Multiset.mem_map.mp hwait
    obtain ⟨hne, hsub, -⟩ := h.lacking w hw
    -- what it lacks would be completed
    obtain ⟨k, hk⟩ := Finset.nonempty_of_ne_empty hne
    exact absurd (hdeps (hsub hk)) (Finset.disjoint_left.mp (hknown w hw) hk)

end Dependencies
