import Mathlib.Tactic

/-! # Two ends in step

A writer and a reader of a queue both keep a state that every message moves on. They need not be in
the same state at the same time: they are in step when the reader will be where the writer is once
it has read what is queued. -/

namespace InStep

variable {σ μ : Type}

/-- From one state to another by the messages of a list. -/
inductive Path (R : σ → μ → σ → Prop) : σ → List μ → σ → Prop
  | nil (s : σ) : Path R s [] s
  | cons {s t u : σ} {m : μ} {q : List μ} (hm : R s m t) (h : Path R t q u) : Path R s (m :: q) u

variable {R : σ → μ → σ → Prop} {s t u : σ} {m : μ} {q q' : List μ}

theorem Path.single (hm : R s m t) : Path R s [m] t := .cons hm (.nil t)

/-- The writer goes on. -/
theorem Path.append (h : Path R s q t) (h' : Path R t q' u) : Path R s (q ++ q') u := by
  induction h with
  | nil => exact h'
  | cons hm _ ih => exact .cons hm (ih h')

/-- The reader goes on. -/
theorem Path.pop (h : Path R s (m :: q) u) : ∃ t, R s m t ∧ Path R t q u := by
  cases h with
  | cons hm h => exact ⟨_, hm, h⟩

theorem Path.eq_of_nil (h : Path R s [] t) : s = t := by
  cases h
  rfl

/-- Messages that leave a state as it is. -/
theorem Path.stay (h : ∀ m ∈ q, R s m s) : Path R s q s := by
  induction q with
  | nil => exact .nil s
  | cons m q ih =>
    exact .cons (h m List.mem_cons_self) (ih fun m' hm => h m' (List.mem_cons_of_mem m hm))

/-- **The counting rule.** A number that every message of a kind raises by one, and no other
message changes, counts the messages of that kind. -/
theorem Path.count {p : μ → Bool} {n : σ → ℕ}
    (hn : ∀ s m t, R s m t → n t = n s + if p m then 1 else 0) (h : Path R s q t) :
    n t = n s + q.countP p := by
  induction h with
  | nil => rfl
  | cons hm _ ih => rw [ih, hn _ _ _ hm, List.countP_cons, Nat.add_right_comm, Nat.add_assoc]

end InStep
