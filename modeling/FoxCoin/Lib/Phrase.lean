import Mathlib.Tactic

/-! # Phrases with actions

A parser reads a phrase and changes a state as it goes. Its actions run as soon as what they belong to
is read, and they are not undone when the parser misses and an alternative is tried. A reading builds
a value instead, and has no state. A parser realizes a reading when it reads the same, its state says
what was built, and its misses leave the state alone. -/

namespace Phrase

variable {S T V V' A E : Type}

/-- A phrase is read up to a rest, is not there, or is given up with an error. -/
inductive Outcome (S W A E : Type)
  | hit (s : S) (rest : List A)
  | miss (w : W)
  | stop (e : E)

/-! ## Parsers -/

/-- A parser, which keeps what its actions did also when it misses. -/
abbrev Parser (S A E : Type) : Type := S → List A → Outcome S S A E

namespace Parser

/-- `p >> q`. -/
def seq (p q : Parser S A E) : Parser S A E := fun s i =>
  match p s i with
  | .hit s' rest => q s' rest
  | .miss s' => .miss s'
  | .stop e => .stop e

/-- `p | q`. -/
def alt (p q : Parser S A E) : Parser S A E := fun s i =>
  match p s i with
  | .miss s' => q s' i
  | .hit s' rest => .hit s' rest
  | .stop e => .stop e

/-- `!p`. -/
def opt (p : Parser S A E) : Parser S A E := fun s i =>
  match p s i with
  | .miss s' => .hit s' i
  | .hit s' rest => .hit s' rest
  | .stop e => .stop e

/-- `*p` for at most `n` rounds. -/
def upTo (p : Parser S A E) : ℕ → Parser S A E
  | 0, s, i => .hit s i
  | n + 1, s, i =>
    match p s i with
    | .hit s' rest => p.upTo n s' rest
    | .miss s' => .hit s' i
    | .stop e => .stop e

/-- `*p`, for a parser that reads at least one item in a round. -/
def star (p : Parser S A E) : Parser S A E := fun s i => p.upTo i.length s i

/-- `token[action]`. -/
def token {B : Type} (read : List A → Option (B × List A)) (action : B → S → Except E S) :
    Parser S A E := fun s i =>
  match read i with
  | none => .miss s
  | some (b, rest) =>
    match action b s with
    | .ok s' => .hit s' rest
    | .error e => .stop e

/-- `eps_p[throw]`. -/
def give (e : E) : Parser S A E := fun _ _ => .stop e

end Parser

/-! ## Readings -/

/-- A reading, which builds a value. -/
abbrev Reading (V A E : Type) : Type := List A → Outcome V Unit A E

namespace Reading

/-- A value of nothing. -/
def pure (v : V) : Reading V A E := fun i => .hit v i

/-- One reading after the other. -/
def bind (q : Reading V A E) (k : V → Reading V' A E) : Reading V' A E := fun i =>
  match q i with
  | .hit v rest => k v rest
  | .miss _ => .miss ()
  | .stop e => .stop e

/-- A second reading where the first one misses. -/
def orElse (q q' : Reading V A E) : Reading V A E := fun i =>
  match q i with
  | .miss _ => q' i
  | .hit v rest => .hit v rest
  | .stop e => .stop e

/-- A value that may be missing. -/
def opt (q : Reading V A E) : Reading (Option V) A E := fun i =>
  match q i with
  | .miss _ => .hit none i
  | .hit v rest => .hit (some v) rest
  | .stop e => .stop e

/-- At most `n` values. -/
def upTo (q : Reading V A E) : ℕ → Reading (List V) A E
  | 0, i => .hit [] i
  | n + 1, i =>
    match q i with
    | .hit v rest =>
      match q.upTo n rest with
      | .hit vs rest' => .hit (v :: vs) rest'
      | .miss _ => .miss ()
      | .stop e => .stop e
    | .miss _ => .hit [] i
    | .stop e => .stop e

/-- Any number of values. -/
def star (q : Reading V A E) : Reading (List V) A E := fun i => q.upTo i.length i

/-- A token with the value that it stands for. -/
def token {B : Type} (read : List A → Option (B × List A)) (f : B → V) : Reading V A E := fun i =>
  match read i with
  | none => .miss ()
  | some (b, rest) => .hit (f b) rest

/-- An error. -/
def give (e : E) : Reading V A E := fun _ => .stop e

/-- A reading that does not miss. -/
def Closed (q : Reading V A E) : Prop := ∀ i w, q i ≠ .miss w

theorem closed_pure (v : V) : (pure v : Reading V A E).Closed := by
  intro i w h
  cases h

theorem closed_give (e : E) : (give e : Reading V A E).Closed := by
  intro i w h
  cases h

theorem Closed.orElse {q q' : Reading V A E} (h : q'.Closed) : (q.orElse q').Closed := by
  intro i w hmiss
  rw [Reading.orElse] at hmiss
  split at hmiss
  · exact h i w hmiss
  · cases hmiss
  · cases hmiss

theorem closed_opt (q : Reading V A E) : q.opt.Closed := by
  intro i w hmiss
  rw [Reading.opt] at hmiss
  split at hmiss <;> cases hmiss

theorem Closed.bind {q : Reading V A E} {k : V → Reading V' A E} (h : q.Closed)
    (hk : ∀ v, (k v).Closed) : (q.bind k).Closed := by
  intro i w hmiss
  rw [Reading.bind] at hmiss
  split at hmiss
  · exact hk _ _ w hmiss
  · exact h i _ ‹_›
  · cases hmiss

/-- Any number of values are read, or given up. -/
theorem closed_upTo (q : Reading V A E) (n : ℕ) : (q.upTo n).Closed := by
  induction n with
  | zero =>
    intro i w hmiss
    cases hmiss
  | succ n ih =>
    intro i w hmiss
    rw [upTo] at hmiss
    split at hmiss
    · split at hmiss
      · cases hmiss
      · exact ih _ _ ‹_›
      · cases hmiss
    · cases hmiss
    · cases hmiss

end Reading

/-! ## Realizing a reading -/

/-- **A parser realizes a reading**: from a state that stands for `t` it reads the same, and the state
stands for `t` and the value that was built. A miss leaves the state as it was. -/
def Realizes (Pre : T → S → Prop) (Post : T → V → S → Prop) (p : Parser S A E)
    (q : Reading V A E) : Prop :=
  ∀ t s i, Pre t s →
    match q i with
    | .hit v rest => ∃ s', p s i = .hit s' rest ∧ Post t v s'
    | .miss _ => p s i = .miss s
    | .stop e => p s i = .stop e

variable {Pre : T → S → Prop} {Post : T → V → S → Prop} {p p' : Parser S A E} {q q' : Reading V A E}

/-- A token whose action does what the value says. -/
theorem Realizes.token {B : Type} {read : List A → Option (B × List A)} {f : B → V}
    {action : B → S → Except E S}
    (h : ∀ t s b, Pre t s → ∃ s', action b s = .ok s' ∧ Post t (f b) s') :
    Realizes Pre Post (.token read action) (.token read f) := by
  intro t s i hpre
  rw [Reading.token, Parser.token]
  cases hread : read i with
  | none => rfl
  | some r =>
    obtain ⟨s', hs', hpost⟩ := h t s r.1 hpre
    simp only [hs']
    exact ⟨s', rfl, hpost⟩

theorem Realizes.give (e : E) : Realizes Pre Post (.give e) (.give e : Reading V A E) :=
  fun _ _ _ _ => rfl

/-- **Alternatives.** -/
theorem Realizes.alt (hp : Realizes Pre Post p q) (hp' : Realizes Pre Post p' q') :
    Realizes Pre Post (p.alt p') (q.orElse q') := by
  intro t s i hpre
  have h := hp t s i hpre
  rw [Reading.orElse, Parser.alt]
  cases hq : q i with
  | hit v rest =>
    rw [hq] at h
    obtain ⟨s', hs', hpost⟩ := h
    simp only [hs']
    exact ⟨s', rfl, hpost⟩
  | miss w =>
    rw [hq] at h
    simp only [h]
    exact hp' t s i hpre
  | stop e =>
    rw [hq] at h
    simp only [h]

/-- **What may be missing.** -/
theorem Realizes.opt (hp : Realizes Pre Post p q) :
    Realizes Pre (fun t o s => o.elim (Pre t s) fun v => Post t v s) p.opt q.opt := by
  intro t s i hpre
  have h := hp t s i hpre
  rw [Reading.opt, Parser.opt]
  cases hq : q i with
  | hit v rest =>
    rw [hq] at h
    obtain ⟨s', hs', hpost⟩ := h
    simp only [hs']
    exact ⟨s', rfl, hpost⟩
  | miss w =>
    rw [hq] at h
    simp only [h]
    exact ⟨s, rfl, hpre⟩
  | stop e =>
    rw [hq] at h
    simp only [h]

/-- **One after the other**, when what comes second does not miss. -/
theorem Realizes.seq {Post' : T → V' → S → Prop} {k : V → Reading V' A E}
    (hp : Realizes Pre Post p q) (hk : ∀ v, (k v).Closed)
    (hp' : ∀ v, Realizes (fun t s => Post t v s) Post' p' (k v)) :
    Realizes Pre Post' (p.seq p') (q.bind k) := by
  intro t s i hpre
  have h := hp t s i hpre
  rw [Reading.bind, Parser.seq]
  cases hq : q i with
  | hit v rest =>
    rw [hq] at h
    obtain ⟨s', hs', hpost⟩ := h
    simp only [hs']
    have hnext := hp' v t s' rest hpost
    cases hkv : k v rest with
    | hit v' rest' =>
      rw [hkv] at hnext
      exact hnext
    | miss w => exact absurd hkv (hk v rest w)
    | stop e =>
      rw [hkv] at hnext
      exact hnext
  | miss w =>
    rw [hq] at h
    simp only [h]
  | stop e =>
    rw [hq] at h
    simp only [h]

/-- A token without an action comes first. -/
theorem Realizes.after {B : Type} {read : List A → Option (B × List A)}
    (hp : Realizes Pre Post p q) :
    Realizes Pre Post (Parser.seq (.token read fun _ s => .ok s) p)
      (Reading.bind (.token read id) fun _ => q) := by
  intro t s i hpre
  rw [Reading.bind, Parser.seq, Reading.token, Parser.token]
  cases hread : read i with
  | none => rfl
  | some r => exact hp t s r.2 hpre

/-- The value of a reading may be made into another one. -/
theorem Realizes.bind_pure {Post' : T → V' → S → Prop} {f : V → V'} (hp : Realizes Pre Post p q)
    (h : ∀ t v s, Post t v s → Post' t (f v) s) :
    Realizes Pre Post' p (q.bind fun v => .pure (f v)) := by
  intro t s i hpre
  have hq := hp t s i hpre
  rw [Reading.bind]
  cases hqi : q i with
  | hit v rest =>
    rw [hqi] at hq
    obtain ⟨s', hs', hpost⟩ := hq
    exact ⟨s', hs', h t v s' hpost⟩
  | miss w =>
    rw [hqi] at hq
    exact hq
  | stop e =>
    rw [hqi] at hq
    exact hq

/-- **Any number of times**: every round goes on from what the state stands for after the last. -/
theorem Realizes.upTo (hp : Realizes Pre Post p q) (next : T → V → T)
    (hnext : ∀ t v s, Post t v s → Pre (next t v) s) (n : ℕ) :
    Realizes Pre (fun t vs s => Pre (vs.foldl next t) s) (p.upTo n) (q.upTo n) := by
  induction n with
  | zero => exact fun t s i hpre => ⟨s, rfl, hpre⟩
  | succ n ih =>
    intro t s i hpre
    have h := hp t s i hpre
    rw [Reading.upTo, Parser.upTo]
    cases hq : q i with
    | hit v rest =>
      rw [hq] at h
      obtain ⟨s', hs', hpost⟩ := h
      have hrest := ih (next t v) s' rest (hnext t v s' hpost)
      simp only [hs']
      cases hqs : q.upTo n rest with
      | hit vs rest' =>
        rw [hqs] at hrest
        exact hrest
      | miss w => exact absurd hqs (q.closed_upTo n rest w)
      | stop e =>
        rw [hqs] at hrest
        exact hrest
    | miss w =>
      rw [hq] at h
      simp only [h]
      exact ⟨s, rfl, hpre⟩
    | stop e =>
      rw [hq] at h
      simp only [h]

theorem Realizes.star (hp : Realizes Pre Post p q) (next : T → V → T)
    (hnext : ∀ t v s, Post t v s → Pre (next t v) s) :
    Realizes Pre (fun t vs s => Pre (vs.foldl next t) s) p.star q.star :=
  fun t s i hpre => hp.upTo next hnext i.length t s i hpre

/-- A change of what the states are said to stand for. -/
theorem Realizes.reindex {T' : Type} {Pre' : T' → S → Prop} {Post' : T' → V → S → Prop}
    (hp : Realizes Pre' Post' p q)
    (h : ∀ t s, Pre t s → ∃ t', Pre' t' s ∧ ∀ v s', Post' t' v s' → Post t v s') :
    Realizes Pre Post p q := by
  intro t s i hpre
  obtain ⟨t', hpre', hpost⟩ := h t s hpre
  have hq := hp t' s i hpre'
  cases hqi : q i with
  | hit v rest =>
    rw [hqi] at hq
    obtain ⟨s', hs', hpost'⟩ := hq
    exact ⟨s', hs', hpost v s' hpost'⟩
  | miss w =>
    rw [hqi] at hq
    exact hq
  | stop e =>
    rw [hqi] at hq
    exact hq

/-! ## Readings of short texts -/

namespace Reading

/-- A reading that leaves no more than it was given. -/
def Shrinks (q : Reading V A E) : Prop := ∀ i v rest, q i = .hit v rest → rest.length ≤ i.length

/-- Two readings agree on the texts below a length. -/
def AgreeBelow (n : ℕ) (q q' : Reading V A E) : Prop := ∀ i, i.length < n → q i = q' i

variable {n : ℕ}

theorem AgreeBelow.refl (q : Reading V A E) : AgreeBelow n q q := fun _ _ => Eq.refl _

theorem AgreeBelow.orElse {r r' : Reading V A E} (h : AgreeBelow n q q') (h' : AgreeBelow n r r') :
    AgreeBelow n (q.orElse r) (q'.orElse r') := by
  intro i hi
  rw [Reading.orElse, Reading.orElse, h i hi, h' i hi]

theorem AgreeBelow.opt (h : AgreeBelow n q q') : AgreeBelow n q.opt q'.opt := by
  intro i hi
  rw [Reading.opt, Reading.opt, h i hi]

theorem AgreeBelow.bind {k k' : V → Reading V' A E} (h : AgreeBelow n q q') (hq : q.Shrinks)
    (hk : ∀ v, AgreeBelow n (k v) (k' v)) : AgreeBelow n (q.bind k) (q'.bind k') := by
  intro i hi
  rw [Reading.bind, Reading.bind, ← h i hi]
  cases hqi : q i with
  | hit v rest => exact hk v rest ((hq i v rest hqi).trans_lt hi)
  | miss w => rfl
  | stop e => rfl

/-- After a token there is less to read. -/
theorem AgreeBelow.after {B : Type} {read : List A → Option (B × List A)}
    (hread : ∀ i b rest, read i = some (b, rest) → rest.length < i.length) {f : B → V'}
    {k k' : V' → Reading V A E} (hk : ∀ v, AgreeBelow n (k v) (k' v)) :
    AgreeBelow (n + 1) ((token read f).bind k) ((token read f).bind k') := by
  intro i hi
  rw [Reading.bind, Reading.bind, Reading.token]
  cases hri : read i with
  | none => rfl
  | some r => exact hk _ r.2 (by have := hread i r.1 r.2 hri; omega)

theorem AgreeBelow.upTo (h : AgreeBelow n q q') (hq : q.Shrinks) (m : ℕ) :
    AgreeBelow n (q.upTo m) (q'.upTo m) := by
  induction m with
  | zero => exact fun _ _ => rfl
  | succ m ih =>
    intro i hi
    rw [Reading.upTo, Reading.upTo, ← h i hi]
    cases hqi : q i with
    | hit v rest =>
      simp only
      rw [ih rest ((hq i v rest hqi).trans_lt hi)]
    | miss w => rfl
    | stop e => rfl

theorem AgreeBelow.star (h : AgreeBelow n q q') (hq : q.Shrinks) : AgreeBelow n q.star q'.star :=
  fun i hi => h.upTo hq i.length i hi

theorem shrinks_pure (v : V) : (pure v : Reading V A E).Shrinks := by
  intro i w rest h
  cases h
  exact le_rfl

theorem shrinks_give (e : E) : (give e : Reading V A E).Shrinks := by
  intro i w rest h
  cases h

theorem shrinks_token {B : Type} {read : List A → Option (B × List A)} (f : B → V)
    (hread : ∀ i b rest, read i = some (b, rest) → rest.length < i.length) :
    (token read f : Reading V A E).Shrinks := by
  intro i v rest h
  rw [token] at h
  cases hri : read i with
  | none =>
    rw [hri] at h
    cases h
  | some r =>
    rw [hri] at h
    cases h
    exact (hread i r.1 r.2 hri).le

theorem Shrinks.orElse (h : q.Shrinks) (h' : q'.Shrinks) : (q.orElse q').Shrinks := by
  intro i v rest hhit
  rw [Reading.orElse] at hhit
  split at hhit
  · exact h' i v rest hhit
  · cases hhit
    exact h i _ _ ‹_›
  · cases hhit

theorem Shrinks.opt (h : q.Shrinks) : q.opt.Shrinks := by
  intro i v rest hhit
  rw [Reading.opt] at hhit
  split at hhit
  · cases hhit
    exact le_rfl
  · cases hhit
    exact h i _ _ ‹_›
  · cases hhit

theorem Shrinks.bind {k : V → Reading V' A E} (h : q.Shrinks) (hk : ∀ v, (k v).Shrinks) :
    (q.bind k).Shrinks := by
  intro i v rest hhit
  rw [Reading.bind] at hhit
  split at hhit
  · exact (hk _ _ v rest hhit).trans (h i _ _ ‹_›)
  · cases hhit
  · cases hhit

theorem Shrinks.upTo (h : q.Shrinks) (m : ℕ) : (q.upTo m).Shrinks := by
  induction m with
  | zero =>
    intro i v rest hhit
    cases hhit
    exact le_rfl
  | succ m ih =>
    intro i v rest hhit
    rw [Reading.upTo] at hhit
    split at hhit
    · split at hhit
      · cases hhit
        exact (ih _ _ _ ‹_›).trans (h i _ _ ‹_›)
      · cases hhit
      · cases hhit
    · cases hhit
      exact le_rfl
    · cases hhit

theorem Shrinks.star (h : q.Shrinks) : q.star.Shrinks := fun i v rest hhit =>
  h.upTo i.length i v rest hhit

/-! ## Values one after the other -/

/-- The values that are read one after the other, each from less than the one before, until the reading
misses. -/
inductive Hits (q : Reading V A E) : List A → List V → List A → Prop
  | nil {i : List A} (h : q i = .miss ()) : Hits q i [] i
  | cons {i rest rest' : List A} {v : V} {vs : List V} (h : q i = .hit v rest)
      (hlt : rest.length < i.length) (hs : Hits q rest vs rest') : Hits q i (v :: vs) rest'

theorem Hits.upTo {i rest : List A} {vs : List V} (h : Hits q i vs rest) {m : ℕ}
    (hm : i.length ≤ m) : q.upTo m i = .hit vs rest := by
  induction h generalizing m with
  | nil h =>
    cases m with
    | zero => rfl
    | succ m => rw [Reading.upTo, h]
  | cons h hlt hs ih =>
    obtain ⟨m, rfl⟩ := Nat.exists_eq_add_of_lt ((Nat.zero_le _).trans_lt (hlt.trans_le hm))
    rw [Nat.zero_add, Reading.upTo, h]
    simp only
    rw [ih (by omega)]

/-- **All of them are read.** -/
theorem Hits.star {i rest : List A} {vs : List V} (h : Hits q i vs rest) :
    q.star i = .hit vs rest :=
  h.upTo le_rfl

/-! ## Errors of a reading -/

/-- The errors that a reading may give. -/
def Gives (P : E → Prop) (q : Reading V A E) : Prop := ∀ i e, q i = .stop e → P e

variable {P : E → Prop}

theorem gives_pure (v : V) : (pure v : Reading V A E).Gives P := by
  intro i e h
  cases h

theorem gives_give {e : E} (he : P e) : (give e : Reading V A E).Gives P := by
  intro i e' h
  cases h
  exact he

theorem gives_token {B : Type} (read : List A → Option (B × List A)) (f : B → V) :
    (token read f : Reading V A E).Gives P := by
  intro i e h
  rw [token] at h
  split at h <;> cases h

theorem Gives.orElse (h : q.Gives P) (h' : q'.Gives P) : (q.orElse q').Gives P := by
  intro i e hstop
  rw [Reading.orElse] at hstop
  split at hstop
  · exact h' i e hstop
  · cases hstop
  · cases hstop
    exact h i _ ‹_›

theorem Gives.opt (h : q.Gives P) : q.opt.Gives P := by
  intro i e hstop
  rw [Reading.opt] at hstop
  split at hstop
  · cases hstop
  · cases hstop
  · cases hstop
    exact h i _ ‹_›

theorem Gives.bind {k : V → Reading V' A E} (h : q.Gives P) (hk : ∀ v, (k v).Gives P) :
    (q.bind k).Gives P := by
  intro i e hstop
  rw [Reading.bind] at hstop
  split at hstop
  · exact hk _ _ e hstop
  · cases hstop
  · cases hstop
    exact h i _ ‹_›

theorem Gives.upTo (h : q.Gives P) (m : ℕ) : (q.upTo m).Gives P := by
  induction m with
  | zero =>
    intro i e hstop
    cases hstop
  | succ m ih =>
    intro i e hstop
    rw [Reading.upTo] at hstop
    split at hstop
    · split at hstop
      · cases hstop
      · cases hstop
      · cases hstop
        exact ih _ _ ‹_›
    · cases hstop
    · cases hstop
      exact h i _ ‹_›

theorem Gives.star (h : q.Gives P) : q.star.Gives P := fun i e hstop => h.upTo i.length i e hstop

end Reading

end Phrase
