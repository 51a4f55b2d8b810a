import Mathlib.Tactic

/-! # Parsing a stream as it arrives

A parser works on a buffer: in one step it finds that it must wait, skips something, or takes a
value from the front. What it does with a buffer that has more behind it tells whether it matters
how the stream is cut into pieces. -/

namespace Incremental

variable {A M : Type}

/-- What one step does with a buffer: it waits for more and keeps a part of the buffer, or it goes
on with the rest of it, with a value or without. -/
inductive Step (A M : Type) where
  | wait (rest : List A)
  | skip (rest : List A)
  | emit (m : M) (rest : List A)
  deriving DecidableEq

/-- The values that a buffer gives until the parser waits, and what is kept of it then. -/
inductive Parses (step : List A → Step A M) : List A → List M → List A → Prop
  | wait {buf rest : List A} (h : step buf = .wait rest) : Parses step buf [] rest
  | skip {buf rest rest' : List A} {ms : List M} (h : step buf = .skip rest)
      (hrest : Parses step rest ms rest') : Parses step buf ms rest'
  | emit {buf rest rest' : List A} {m : M} {ms : List M} (h : step buf = .emit m rest)
      (hrest : Parses step rest ms rest') : Parses step buf (m :: ms) rest'

variable {step : List A → Step A M} {buf rest rest' : List A} {ms ms' : List M}

/-- A buffer gives the same values every time. -/
theorem Parses.unique (h : Parses step buf ms rest) (h' : Parses step buf ms' rest') :
    ms = ms' ∧ rest = rest' := by
  induction h generalizing ms' rest' with
  | wait h =>
    cases h' with
    | wait h' => exact ⟨rfl, by simpa [h] using h'⟩
    | skip h' _ => simp [h] at h'
    | emit h' _ => simp [h] at h'
  | skip h _ ih =>
    cases h' with
    | wait h' => simp [h] at h'
    | skip h' hrest' =>
      obtain rfl : _ = _ := by simpa [h] using h'
      exact ih hrest'
    | emit h' _ => simp [h] at h'
  | emit h _ ih =>
    cases h' with
    | wait h' => simp [h] at h'
    | skip h' _ => simp [h] at h'
    | emit h' hrest' =>
      obtain ⟨rfl, rfl⟩ : _ ∧ _ := by simpa [h] using h'
      obtain ⟨rfl, hrest⟩ := ih hrest'
      exact ⟨rfl, hrest⟩

/-- Buffers that the parser treats in the same way give the same values. -/
theorem Parses.of_step_eq {buf' : List A} (h : Parses step buf ms rest) (heq : step buf' = step buf) :
    Parses step buf' ms rest := by
  cases h with
  | wait h => exact .wait (heq.trans h)
  | skip h hrest => exact .skip (heq.trans h) hrest
  | emit h hrest => exact .emit (heq.trans h) hrest

/-- What a parser does with a buffer it does also when there is more behind it, and while it waits
it keeps all that it needs. -/
structure Stable (step : List A → Step A M) : Prop where
  wait : ∀ {buf rest : List A}, step buf = .wait rest → ∀ more, step (buf ++ more) = step (rest ++ more)
  skip : ∀ {buf rest : List A}, step buf = .skip rest → ∀ more, step (buf ++ more) = .skip (rest ++ more)
  emit : ∀ {buf rest : List A} {m : M}, step buf = .emit m rest →
    ∀ more, step (buf ++ more) = .emit m (rest ++ more)

/-- **A stable parser can be stopped anywhere**: parsing a part of the stream first, and then what
is kept of it with the rest, gives the same values. -/
theorem Parses.append (hstable : Stable step) (h : Parses step buf ms rest) {more : List A}
    (h' : Parses step (rest ++ more) ms' rest') : Parses step (buf ++ more) (ms ++ ms') rest' := by
  induction h with
  | wait h => exact h'.of_step_eq (hstable.wait h more)
  | skip h _ ih => exact .skip (hstable.skip h more) (ih h')
  | emit h _ ih => exact .emit (hstable.emit h more) (ih h')

/-- What is kept gives nothing until there is more. -/
theorem Parses.kept (hstable : Stable step) (h : Parses step buf ms rest) :
    Parses step rest [] rest := by
  induction h with
  | wait h =>
    have heq := hstable.wait h []
    rw [List.append_nil, List.append_nil] at heq
    exact .wait (heq.symm.trans h)
  | skip _ _ ih => exact ih
  | emit _ _ ih => exact ih

/-- The values that a stream gives as it arrives in pieces, and what is kept at the end. -/
inductive Receives (step : List A → Step A M) : List A → List (List A) → List M → List A → Prop
  | nil {buf : List A} : Receives step buf [] [] buf
  | cons {buf piece rest rest' : List A} {pieces : List (List A)} {ms ms' : List M}
      (h : Parses step (buf ++ piece) ms rest) (hrest : Receives step rest pieces ms' rest') :
      Receives step buf (piece :: pieces) (ms ++ ms') rest'

/-- **The pieces do not matter**: a stream that arrives in pieces gives the values that it gives at
once. -/
theorem Receives.parses (hstable : Stable step) {pieces : List (List A)}
    (h : Receives step buf pieces ms rest) (hbuf : Parses step buf [] buf) :
    Parses step (buf ++ pieces.flatten) ms rest := by
  induction h with
  | nil => rwa [List.flatten_nil, List.append_nil]
  | cons h _ ih =>
    rw [List.flatten_cons, ← List.append_assoc]
    exact h.append hstable (ih (h.kept hstable))

end Incremental
