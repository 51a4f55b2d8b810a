import Mathlib.Tactic

/-! # Checked computations

A validation routine that returns early with an error is an `Except` computation. This file gives
the one guard such routines are written with, `ensure`, and the inversion lemmas that read the
facts a successful run has established. -/

namespace Checked

variable {ε α β : Type}

/-- Continue when the test holds, otherwise stop with the error `r`. -/
def ensure (b : Bool) (r : ε) : Except ε Unit := if b then .ok () else .error r

@[simp] theorem ensure_true (r : ε) : ensure true r = .ok () := rfl

@[simp] theorem ensure_false (r : ε) : ensure false r = .error r := rfl

/-- A guard passes exactly when its test holds. -/
@[simp] theorem ensure_eq_ok {b : Bool} {r : ε} {u : Unit} : ensure b r = .ok u ↔ b = true := by
  cases b <;> simp [ensure]

/-- What follows a result is run on it. -/
@[simp] theorem ok_bind {a : α} {f : α → Except ε β} : ((.ok a : Except ε α) >>= f) = f a := rfl

/-- A sequence succeeds exactly when its first part succeeds and the rest succeeds on its result. -/
theorem bind_eq_ok {x : Except ε α} {f : α → Except ε β} {b : β} :
    (x >>= f) = .ok b ↔ ∃ a, x = .ok a ∧ f a = .ok b := by
  cases x with
  | error e => simp [bind, Except.bind]
  | ok a => simp [bind, Except.bind]

/-- A guard followed by `f` succeeds exactly when the test holds and `f` succeeds. -/
theorem ensure_bind_eq_ok {b : Bool} {r : ε} {f : Unit → Except ε β} {y : β} :
    (ensure b r >>= f) = .ok y ↔ b = true ∧ f () = .ok y := by
  cases b <;> simp [ensure, bind, Except.bind]

/-- A guard fails exactly when its test fails. -/
theorem ensure_eq_error {b : Bool} {r e : ε} : ensure b r = .error e ↔ b = false ∧ r = e := by
  cases b <;> simp [ensure]

/-- A guard followed by `f` fails exactly when the test fails, or `f` does. -/
theorem ensure_bind_eq_error {b : Bool} {r e : ε} {f : Unit → Except ε β} :
    (ensure b r >>= f) = .error e ↔ b = false ∧ r = e ∨ b = true ∧ f () = .error e := by
  cases b <;> simp [ensure, bind, Except.bind]

@[simp] theorem pure_eq_ok {a b : α} : (pure a : Except ε α) = .ok b ↔ a = b := by
  simp [pure, Except.pure]

@[simp] theorem error_ne_ok {e : ε} {b : α} : (Except.error e : Except ε α) = .ok b ↔ False := by
  simp

/-- A computation that is known to succeed has a result. -/
theorem exists_of_isOk {x : Except ε α} (h : x.isOk = true) : ∃ a, x = .ok a := by
  cases x with
  | error e => simp [Except.isOk, Except.toBool] at h
  | ok a => exact ⟨a, rfl⟩

/-- A computation with a result has succeeded. -/
theorem eq_ok_of_toOption {x : Except ε α} {a : α} (h : x.toOption = some a) : x = .ok a := by
  cases x with
  | error e => cases h
  | ok b => exact congrArg Except.ok (Option.some.inj h)

/-- A failure renamed by `mapError` is still a failure. -/
theorem mapError_eq_ok {ε' : Type} {x : Except ε α} {f : ε → ε'} {a : α} :
    x.mapError f = .ok a ↔ x = .ok a := by
  cases x <;> simp [Except.mapError]

/-- A loop with state over `a :: l` succeeds exactly when the step on `a` and the loop over `l`
do. -/
theorem foldlM_cons_eq_ok {f : β → α → Except ε β} {b c : β} {a : α} {l : List α} :
    List.foldlM f b (a :: l) = .ok c ↔ ∃ b', f b a = .ok b' ∧ List.foldlM f b' l = .ok c := by
  rw [List.foldlM_cons, bind_eq_ok]

/-- The loop rule: what every successful step preserves, a successful loop preserves. -/
theorem foldlM_invariant {f : β → α → Except ε β} {I : β → Prop} {l : List α} {b c : β}
    (step : ∀ b a b', a ∈ l → I b → f b a = .ok b' → I b') (hb : I b)
    (h : List.foldlM f b l = .ok c) : I c := by
  induction l generalizing b with
  | nil => simp only [List.foldlM_nil, pure_eq_ok] at h; exact h ▸ hb
  | cons a l ih =>
    obtain ⟨b', hstep, hrest⟩ := foldlM_cons_eq_ok.mp h
    exact ih (fun b a b' ha => step b a b' (List.mem_cons_of_mem _ ha))
      (step b a b' List.mem_cons_self hb hstep) hrest

/-- A loop over a list fails as one of its rounds. -/
theorem foldlM_error {f : β → α → Except ε β} {E : ε → Prop} {l : List α} {b : β} {e : ε}
    (hstep : ∀ b a e, f b a = .error e → E e) (h : List.foldlM f b l = .error e) : E e := by
  induction l generalizing b with
  | nil => cases h
  | cons a l ih =>
    rw [List.foldlM_cons] at h
    cases hround : f b a with
    | error e' =>
      rw [hround] at h
      obtain rfl := Except.error.inj h
      exact hstep b a e' hround
    | ok b' =>
      rw [hround] at h
      exact ih h

/-! ## Outcomes -/

/-- A computation ends with a result in `Q` or with an error in `E`. -/
def Ends (Q : α → Prop) (E : ε → Prop) : Except ε α → Prop
  | .ok a => Q a
  | .error e => E e

variable {Q Q' : α → Prop} {R : β → Prop} {E : ε → Prop}

@[simp] theorem ends_ok {a : α} : Ends Q E (.ok a) ↔ Q a := Iff.rfl

@[simp] theorem ends_error {e : ε} : Ends Q E (.error e) ↔ E e := Iff.rfl

@[simp] theorem ends_pure {a : α} : Ends Q E (pure a) ↔ Q a := Iff.rfl

/-- The rule of consequence for the result. -/
theorem Ends.mono {x : Except ε α} (h : Ends Q E x) (himp : ∀ a, Q a → Q' a) : Ends Q' E x := by
  cases x with
  | error e => exact h
  | ok a => exact himp a h

/-- The rule of sequence. -/
theorem Ends.bind {x : Except ε α} {f : α → Except ε β} (hx : Ends Q E x)
    (hf : ∀ a, Q a → Ends R E (f a)) : Ends R E (x >>= f) := by
  cases x with
  | error e => exact hx
  | ok a => exact hf a hx

/-- Every computation ends. -/
theorem ends_trivial (x : Except ε α) : Ends (fun _ => True) (fun _ => True) x := by
  cases x <;> trivial

/-- What the last part alone establishes. -/
theorem ends_of_bind {x : Except ε α} {f : α → Except ε β}
    (hf : ∀ a, Ends R (fun _ => True) (f a)) : Ends R (fun _ => True) (x >>= f) :=
  (ends_trivial x).bind fun a _ => hf a

/-- What is known of every result is known of the one that was found. -/
theorem Ends.of_eq_ok {x : Except ε α} {a : α} (h : Ends Q E x) (heq : x = .ok a) : Q a := by
  rw [heq] at h
  exact h

/-- A loop over a list ends as its rounds do. -/
theorem ends_mapM {l : List α} {f : α → Except ε β} (h : ∀ a ∈ l, Ends R E (f a)) :
    Ends (fun bs => ∀ b ∈ bs, R b) E (l.mapM f) := by
  induction l with
  | nil => simp
  | cons a l ih =>
    rw [List.mapM_cons]
    refine (h a List.mem_cons_self).bind fun b hb => ?_
    refine (ih fun a' ha' => h a' (List.mem_cons_of_mem a ha')).bind fun bs hbs => ?_
    rw [ends_pure]
    exact List.forall_mem_cons.mpr ⟨hb, hbs⟩

/-- The rule of a guard: what follows may use its test. -/
theorem ends_ensure_bind {b : Bool} {r : ε} {f : Unit → Except ε β} (hr : E r)
    (hf : b = true → Ends R E (f ())) : Ends R E (ensure b r >>= f) := by
  cases b with
  | false => exact hr
  | true => exact hf rfl

end Checked
