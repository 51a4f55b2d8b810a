import Mathlib.Tactic

/-! # Runs of a system

A system takes one event after the other. Its runs may be restricted to events that meet a
condition, and what the start states have and every such event keeps holds in every state that is
reached. -/

namespace Runs

variable {S E : Type}

/-- A system: the states it starts in, the events that may happen in a state, and their effect. -/
structure System (S E : Type) where
  start : S → Prop
  legal : S → E → Prop
  next : S → E → S

/-- The states that are reached by events that all meet a condition. -/
inductive Reaches (sys : System S E) (ok : S → E → Prop) : S → Prop
  | start {s : S} (h : sys.start s) : Reaches sys ok s
  | step {s : S} {e : E} (h : Reaches sys ok s) (hlegal : sys.legal s e) (hok : ok s e) :
      Reaches sys ok (sys.next s e)

/-- Every state a system can reach. -/
abbrev Reachable (sys : System S E) : S → Prop := Reaches sys fun _ _ => True

variable {sys : System S E} {ok ok' : S → E → Prop} {s : S}

/-- **The invariant rule.** -/
theorem Reaches.invariant {I : S → Prop} (hstart : ∀ s, sys.start s → I s)
    (hstep : ∀ s e, I s → sys.legal s e → ok s e → I (sys.next s e)) (h : Reaches sys ok s) :
    I s := by
  induction h with
  | start h => exact hstart _ h
  | step _ hlegal hok ih => exact hstep _ _ ih hlegal hok

/-- The state after a given event is reached. -/
theorem Reaches.next (h : Reaches sys ok s) (e : E) (hlegal : sys.legal s e) (hok : ok s e) :
    Reaches sys ok (sys.next s e) := h.step hlegal hok

/-- A weaker condition reaches more states. -/
theorem Reaches.mono (h : Reaches sys ok s) (himp : ∀ s e, ok s e → ok' s e) :
    Reaches sys ok' s := by
  induction h with
  | start h => exact .start h
  | step _ hlegal hok ih => exact .step ih hlegal (himp _ _ hok)

/-- The state after a list of events. -/
def System.run (sys : System S E) (s : S) (es : List E) : S := es.foldl sys.next s

/-- Every event of a list is legal and meets the condition when its turn comes. -/
def System.Allows (sys : System S E) (ok : S → E → Prop) : S → List E → Prop
  | _, [] => True
  | s, e :: es => (sys.legal s e ∧ ok s e) ∧ sys.Allows ok (sys.next s e) es

/-- The state after a list of allowed events is reached. -/
theorem Reaches.run {es : List E} (h : Reaches sys ok s) (hes : sys.Allows ok s es) :
    Reaches sys ok (sys.run s es) := by
  induction es generalizing s with
  | nil => exact h
  | cons e es ih => exact ih (h.step hes.1.1 hes.1.2) hes.2

/-- **Two conditions that agree where an invariant holds** allow the same events, when the invariant
survives the events they allow. -/
theorem System.allows_congr {I : S → Prop}
    (hstep : ∀ s e, I s → sys.legal s e → ok s e → I (sys.next s e))
    (hiff : ∀ s e, I s → sys.legal s e → (ok s e ↔ ok' s e)) {es : List E} (hs : I s) :
    sys.Allows ok s es ↔ sys.Allows ok' s es := by
  induction es generalizing s with
  | nil => exact Iff.rfl
  | cons e es ih =>
    constructor
    · rintro ⟨⟨hlegal, hok⟩, hes⟩
      exact ⟨⟨hlegal, (hiff s e hs hlegal).mp hok⟩, (ih (hstep s e hs hlegal hok)).mp hes⟩
    · rintro ⟨⟨hlegal, hok'⟩, hes⟩
      have hok := (hiff s e hs hlegal).mpr hok'
      exact ⟨⟨hlegal, hok⟩, (ih (hstep s e hs hlegal hok)).mpr hes⟩

end Runs
