import Mathlib.Tactic

/-! # Ancestors in a levelled tree

A tree is given by the parent of each node. When the level of a node is one more than that of its
parent and there is one root, two nodes have a last common ancestor, the paths to it are determined,
and two searches that climb from the deeper node never run off the root. -/

namespace Ancestry

variable {N : Type} {parent : N → Option N} {level : N → ℕ} {S : N → Prop} {a b f p q r : N}

/-- A node is an ancestor of another when climbing leads to it. A node is its own ancestor. -/
def IsAncestor (parent : N → Option N) (a p : N) : Prop :=
  Relation.ReflTransGen (fun p q => parent p = some q) p a

theorem IsAncestor.refl (p : N) : IsAncestor parent p p := Relation.ReflTransGen.refl

theorem IsAncestor.trans (hab : IsAncestor parent a b) (hbp : IsAncestor parent b p) :
    IsAncestor parent a p := Relation.ReflTransGen.trans hbp hab

theorem IsAncestor.of_parent (hparent : parent p = some q) (h : IsAncestor parent a q) :
    IsAncestor parent a p := Relation.ReflTransGen.head hparent h

/-- Another ancestor of a node is an ancestor of its parent. -/
theorem IsAncestor.exists_parent (h : IsAncestor parent a p) (hne : a ≠ p) :
    ∃ q, parent p = some q ∧ IsAncestor parent a q := by
  rcases Relation.ReflTransGen.cases_head h with heq | hstep
  · exact absurd heq.symm hne
  · exact hstep

/-- Another ancestor is reached over the parent. -/
theorem IsAncestor.of_ne (hparent : parent p = some q) (h : IsAncestor parent a p) (hne : a ≠ p) :
    IsAncestor parent a q := by
  obtain ⟨q', hq', hanc⟩ := h.exists_parent hne
  rw [hparent] at hq'
  cases hq'
  exact hanc

/-- The last common ancestor of two nodes. -/
structure IsLastCommon (parent : N → Option N) (f p q : N) : Prop where
  left : IsAncestor parent f p
  right : IsAncestor parent f q
  last : ∀ a, IsAncestor parent a p → IsAncestor parent a q → IsAncestor parent a f

/-- The nodes that are passed on the way up from a node to another one, without the latter. -/
inductive Path (parent : N → Option N) : N → List N → N → Prop
  | nil (p : N) : Path parent p [] p
  | cons {p q f : N} {l : List N} (hparent : parent p = some q) (hrest : Path parent q l f) :
      Path parent p (p :: l) f

theorem Path.isAncestor {l : List N} (h : Path parent p l f) : IsAncestor parent f p := by
  induction h with
  | nil p => exact .refl p
  | cons hparent _ ih => exact .of_parent hparent ih

theorem IsAncestor.exists_path (h : IsAncestor parent f p) : ∃ l, Path parent p l f := by
  induction h using Relation.ReflTransGen.head_induction_on with
  | refl => exact ⟨[], .nil f⟩
  | head hparent _ ih =>
    obtain ⟨l, hl⟩ := ih
    exact ⟨_ :: l, .cons hparent hl⟩

/-- Levels go up by one from the parent to the child, and there is one root. -/
structure Levelled (parent : N → Option N) (level : N → ℕ) (S : N → Prop) : Prop where
  closed : ∀ p, S p → ∀ q, parent p = some q → S q
  level_eq : ∀ p, S p → ∀ q, parent p = some q → level p = level q + 1
  root : ∀ p, S p → ∀ q, S q → parent p = none → parent q = none → p = q

section Levelled

variable (h : Levelled parent level S)

include h

theorem Levelled.mem (hp : S p) (ha : IsAncestor parent a p) : S a := by
  induction ha with
  | refl => exact hp
  | tail _ hparent ih => exact h.closed _ ih _ hparent

theorem Levelled.level_le (hp : S p) (ha : IsAncestor parent a p) : level a ≤ level p := by
  induction ha with
  | refl => exact le_rfl
  | tail hanc hparent ih =>
    have := h.level_eq _ (h.mem hp hanc) _ hparent
    omega

/-- An ancestor that is not above a node is the node itself. -/
theorem Levelled.eq_of_level_le (hp : S p) (ha : IsAncestor parent a p) (hle : level p ≤ level a) :
    a = p := by
  by_contra hne
  obtain ⟨q, hparent, hanc⟩ := ha.exists_parent hne
  have := h.level_eq p hp q hparent
  have := h.level_le (h.closed p hp q hparent) hanc
  omega

/-- Climbing from a node leads to the root. -/
theorem Levelled.exists_root (hp : S p) : ∃ r, S r ∧ parent r = none ∧ IsAncestor parent r p := by
  induction hn : level p using Nat.strong_induction_on generalizing p with
  | _ n ih =>
    cases hparent : parent p with
    | none => exact ⟨p, hp, hparent, .refl p⟩
    | some q =>
      have hlevel := h.level_eq p hp q hparent
      obtain ⟨r, hr, hroot, hanc⟩ := ih (level q) (by omega) (h.closed p hp q hparent) rfl
      exact ⟨r, hr, hroot, .of_parent hparent hanc⟩

/-- The root is an ancestor of every node. -/
theorem Levelled.root_isAncestor (hr : S r) (hroot : parent r = none) (hp : S p) :
    IsAncestor parent r p := by
  obtain ⟨r', hr', hroot', hanc⟩ := h.exists_root hp
  rwa [h.root r hr r' hr' hroot hroot']

/-- The last common ancestor is determined. -/
theorem Levelled.lastCommon_unique (hp : S p) (hf : IsLastCommon parent f p q)
    (hf' : IsLastCommon parent r p q) : f = r := by
  have hr := h.mem hp hf'.left
  have hle := h.level_le (h.mem hp hf.left) (hf.last r hf'.left hf'.right)
  exact h.eq_of_level_le hr (hf'.last f hf.left hf.right) hle

/-- A path is determined by its ends. -/
theorem Levelled.path_unique {l l' : List N} (hp : S p) (hl : Path parent p l f)
    (hl' : Path parent p l' f) : l = l' := by
  have habove : ∀ {x y : N}, S x → parent x = some y → ¬IsAncestor parent x y := by
    intro x y hx hparent hanc
    have := h.level_eq x hx y hparent
    have := h.level_le (h.closed x hx y hparent) hanc
    omega
  induction hl generalizing l' with
  | nil p =>
    cases hl' with
    | nil => rfl
    | cons hparent hrest => exact absurd hrest.isAncestor (habove hp hparent)
  | cons hparent hrest ih =>
    cases hl' with
    | nil => exact absurd hrest.isAncestor (habove hp hparent)
    | cons hparent' hrest' =>
      rw [hparent] at hparent'
      cases hparent'
      rw [ih (h.closed _ hp _ hparent) hrest']

/-! ## Climbing -/

/-- The deeper of two nodes has a parent. -/
theorem Levelled.exists_parent_of_lt (hp : S p) (hq : S q) (hlt : level p < level q) :
    ∃ r, parent q = some r := by
  cases hparent : parent q with
  | some r => exact ⟨r, rfl⟩
  | none =>
    have := h.level_le hp (h.root_isAncestor hq hparent hp)
    omega

/-- Two nodes of one level have parents unless they are the same. -/
theorem Levelled.exists_parent_of_ne (hp : S p) (hq : S q) (hle : level q ≤ level p)
    (hne : p ≠ q) : ∃ r, parent p = some r := by
  cases hparent : parent p with
  | some r => exact ⟨r, rfl⟩
  | none => exact absurd (h.eq_of_level_le hq (h.root_isAncestor hp hparent hq) hle) hne

/-- Climbing from the deeper node keeps the common ancestors. -/
theorem Levelled.lastCommon_of_lt (hp : S p) (hlt : level p < level q)
    (hparent : parent q = some r) (hf : IsLastCommon parent f p r) : IsLastCommon parent f p q := by
  refine ⟨hf.left, .of_parent hparent hf.right, fun a hap haq => hf.last a hap ?_⟩
  refine haq.of_ne hparent ?_
  rintro rfl
  have := h.level_le hp hap
  omega

/-- Climbing from a node that is not above another one keeps the common ancestors. -/
theorem Levelled.lastCommon_of_ne (hq : S q) (hle : level q ≤ level p) (hne : p ≠ q)
    (hparent : parent p = some r) (hf : IsLastCommon parent f r q) : IsLastCommon parent f p q := by
  refine ⟨.of_parent hparent hf.left, hf.right, fun a hap haq => hf.last a ?_ haq⟩
  refine hap.of_ne hparent ?_
  rintro rfl
  exact hne (h.eq_of_level_le hq haq hle)

end Levelled

/-- A node is the last common ancestor of itself and itself. -/
theorem IsLastCommon.refl (p : N) : IsLastCommon parent p p p :=
  ⟨.refl p, .refl p, fun _ ha _ => ha⟩

end Ancestry
