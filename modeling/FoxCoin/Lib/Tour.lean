import Mathlib.Data.List.Shortlex
import Mathlib.Data.Prod.Lex
import Mathlib.Order.WellFounded
import Mathlib.Tactic

/-! # Breadth-first tours

A worklist starts with some nodes. The first node is taken up: it is looked up, unless that has been
done before, and what it refers to is put at the end. What is found may depend on the nodes that
were taken up before. A node is taken up at the first chain of references that leads to it: a
shortest one, and among those the first by position. -/

namespace Tour

variable {κ ν : Type}

/-! ## The order of chains -/

/-- A chain of references, by positions, with its length in front. -/
def rank (p : List ℕ) : ℕ ×ₗ List ℕ := toLex (p.length, p)

/-- A chain comes before another one: it is shorter, or of the same length and smaller. -/
def Before (p q : List ℕ) : Prop := rank p < rank q

theorem before_iff {p q : List ℕ} :
    Before p q ↔ p.length < q.length ∨ p.length = q.length ∧ p < q :=
  Prod.Lex.toLex_lt_toLex

theorem rank_injective : Function.Injective rank := fun _ _ h =>
  congrArg Prod.snd (toLex.injective h)

theorem before_of_length_lt {p q : List ℕ} (h : p.length < q.length) : Before p q :=
  before_iff.mpr (.inl h)

theorem rank_le_of_isPrefix {p q : List ℕ} (h : p <+: q) : rank p ≤ rank q := by
  rcases h.length_le.lt_or_eq with hlt | heq
  · exact (before_of_length_lt hlt).le
  · rw [h.eq_of_length heq]

theorem append_lt_append {p q : List ℕ} (hlen : p.length = q.length) (h : p < q) (s t : List ℕ) :
    p ++ s < q ++ t := by
  induction p generalizing q with
  | nil =>
    rw [List.length_nil, eq_comm, List.length_eq_zero_iff] at hlen
    rw [hlen] at h
    exact absurd h (lt_irrefl _)
  | cons a p ih =>
    cases q with
    | nil => cases hlen
    | cons b q =>
      rw [List.cons_lt_cons_iff] at h
      rw [List.cons_append, List.cons_append, List.cons_lt_cons_iff]
      exact h.imp_right fun h => ⟨h.1, ih (by simpa using hlen) h.2⟩

/-- Chains stay in order when each is longer by one. -/
theorem Before.snoc {p q : List ℕ} (h : Before p q) (i j : ℕ) :
    Before (p ++ [i]) (q ++ [j]) := by
  rw [before_iff] at h ⊢
  rw [List.length_append, List.length_append, List.length_singleton, List.length_singleton]
  rcases h with hlt | ⟨heq, hlt⟩
  · exact .inl (by omega)
  · exact .inr ⟨by omega, append_lt_append heq hlt _ _⟩

theorem before_snoc (p : List ℕ) (i : ℕ) : Before p (p ++ [i]) :=
  before_of_length_lt (by simp)

theorem before_snoc_snoc (p : List ℕ) {i j : ℕ} (h : i < j) : Before (p ++ [i]) (p ++ [j]) := by
  refine before_iff.mpr (.inr ⟨by simp, ?_⟩)
  induction p with
  | nil => exact List.cons_lt_cons_iff.mpr (.inl h)
  | cons a p ih => exact List.cons_lt_cons_iff.mpr (.inr ⟨rfl, ih⟩)

theorem wellFounded_before : WellFounded Before := by
  refine (List.Shortlex.wf (r := ((· < ·) : ℕ → ℕ → Prop)) wellFounded_lt).mono ?_
  intro p q h
  rw [List.shortlex_def]
  exact before_iff.mp h

/-! ## Searches -/

/-- A search: the nodes at the start, what a lookup finds after the nodes taken up so far, and what
a found value refers to. -/
structure Search (κ ν : Type) where
  start : List κ
  look : Set κ → κ → Option ν
  refs : ν → List κ

namespace Search

variable {S : Search κ ν} {find : κ → Option ν} {p q : List ℕ} {h k : κ}

/-- A chain of references leads to a node, if `find` tells what is found. -/
inductive Leads (S : Search κ ν) (find : κ → Option ν) : List ℕ → κ → Prop
  | start {i : ℕ} {h : κ} : S.start[i]? = some h → Leads S find [i] h
  | step {p : List ℕ} {h k : κ} {t : ν} {i : ℕ} : Leads S find p h → find h = some t →
      (S.refs t)[i]? = some k → Leads S find (p ++ [i]) k

/-- The first chain that leads to a node. -/
def First (S : Search κ ν) (find : κ → Option ν) (p : List ℕ) (h : κ) : Prop :=
  S.Leads find p h ∧ ∀ q, S.Leads find q h → ¬ Before q p

/-- `find` tells what the search finds: each node is looked up after those with an earlier first
chain. -/
def Finds (S : Search κ ν) (find : κ → Option ν) : Prop :=
  ∀ p h, S.First find p h → find h = S.look {k | ∃ q, S.First find q k ∧ Before q p} h

theorem Leads.ne_nil (hp : S.Leads find p h) : p ≠ [] := by
  cases hp <;> simp

/-- The last reference of a chain. -/
theorem Leads.snoc {i : ℕ} (hk : S.Leads find (p ++ [i]) k) (hp : p ≠ []) :
    ∃ h t, S.Leads find p h ∧ find h = some t ∧ (S.refs t)[i]? = some k := by
  generalize hq : p ++ [i] = q at hk
  cases hk with
  | start _ =>
    obtain ⟨rfl, -⟩ := List.append_eq_singleton_iff.mp hq |>.resolve_right (by simp)
    exact absurd rfl hp
  | step hleads hfind href =>
    obtain ⟨rfl, hi⟩ := List.append_inj' hq rfl
    obtain rfl := (List.cons.inj hi).1
    exact ⟨_, _, hleads, hfind, href⟩

/-- A chain leads to one node. -/
theorem Leads.unique (hh : S.Leads find p h) (hk : S.Leads find p k) : h = k := by
  induction hh generalizing k with
  | start hstart =>
    generalize hq : [_] = q at hk
    cases hk with
    | start hstart' =>
      obtain rfl := (List.cons.inj hq).1
      exact Option.some.inj (hstart.symm.trans hstart')
    | step hleads _ _ =>
      obtain ⟨hnil, -⟩ := (List.append_eq_singleton_iff.mp hq.symm).resolve_right (by simp)
      exact absurd hnil hleads.ne_nil
  | step hleads hfind href ih =>
    obtain ⟨h', t', hleads', hfind', href'⟩ := hk.snoc hleads.ne_nil
    obtain rfl := ih hleads'
    obtain rfl := Option.some.inj (hfind.symm.trans hfind')
    exact Option.some.inj (href.symm.trans href')

/-- A node that a chain leads to has a first chain. -/
theorem Leads.exists_first (hp : S.Leads find p h) : ∃ q, S.First find q h := by
  obtain ⟨q, hq, hmin⟩ := wellFounded_before.has_min {q | S.Leads find q h} ⟨p, hp⟩
  exact ⟨q, hq, hmin⟩

/-- **A first chain runs through first chains.** -/
theorem First.of_isPrefix {s : List ℕ} (hfirst : S.First find (p ++ s) k) (hp : p ≠ []) :
    ∃ h, S.First find p h := by
  induction s using List.reverseRecOn generalizing k with
  | nil => exact ⟨k, by rwa [List.append_nil] at hfirst⟩
  | append_singleton s i ih =>
    rw [← List.append_assoc] at hfirst
    obtain ⟨h, t, hleads, hfind, href⟩ := hfirst.1.snoc (by simp [hp])
    refine ih ⟨hleads, fun q hq hbefore => ?_⟩
    exact hfirst.2 _ (hq.step hfind href) (hbefore.snoc i i)

theorem First.rank_le (hp : S.First find p h) (hq : S.Leads find q h) : rank p ≤ rank q :=
  not_lt.mp (hp.2 q hq)

/-! ## Tours -/

end Search

/-- A node that has been taken up, the chain it was taken up at, and what was found. -/
structure Stop (κ ν : Type) where
  chain : List ℕ
  node : κ
  found : Option ν

namespace Search

variable {S : Search κ ν} {find : κ → Option ν} {p q : List ℕ} {h k : κ}
  {queue : List (List ℕ × κ)} {stops F : List (Stop κ ν)}

/-- Nodes with their chains, which go on from a chain. -/
def numbered (p : List ℕ) (nodes : List κ) : List (List ℕ × κ) :=
  nodes.mapIdx fun i h => (p ++ [i], h)

/-- What is put at the end of the worklist. -/
def refsOf (S : Search κ ν) (found : Option ν) : List κ := found.elim [] S.refs

/-- The nodes of some stops. -/
def nodesOf (stops : List (Stop κ ν)) : Set κ := {h | ∃ stop ∈ stops, stop.node = h}

theorem mem_nodesOf_snoc {stop : Stop κ ν} :
    h ∈ nodesOf (stops ++ [stop]) ↔ h ∈ nodesOf stops ∨ stop.node = h := by
  unfold nodesOf
  simp [or_and_right, exists_or]

theorem nodesOf_subset_snoc {stop : Stop κ ν} : nodesOf stops ⊆ nodesOf (stops ++ [stop]) :=
  fun _ hk => mem_nodesOf_snoc.mpr (.inl hk)

/-- The worklist is worked off: nodes are skipped that have been taken up before. -/
inductive Run (S : Search κ ν) :
    List (List ℕ × κ) → List (Stop κ ν) → List (Stop κ ν) → Prop
  | done (stops : List (Stop κ ν)) : Run S [] stops stops
  | skip {p : List ℕ} {h : κ} {queue : List (List ℕ × κ)} {stops F : List (Stop κ ν)} :
      h ∈ nodesOf stops → Run S queue stops F → Run S ((p, h) :: queue) stops F
  | visit {p : List ℕ} {h : κ} {queue : List (List ℕ × κ)} {stops F : List (Stop κ ν)} :
      h ∉ nodesOf stops →
      Run S (queue ++ numbered p (S.refsOf (S.look (nodesOf stops) h)))
        (stops ++ [⟨p, h, S.look (nodesOf stops) h⟩]) F →
      Run S ((p, h) :: queue) stops F

theorem Run.visit_eq {found : Option ν} (hnew : h ∉ nodesOf stops)
    (hlook : S.look (nodesOf stops) h = found)
    (R : S.Run (queue ++ numbered p (S.refsOf found)) (stops ++ [⟨p, h, found⟩]) F) :
    S.Run ((p, h) :: queue) stops F := by
  subst hlook
  exact .visit hnew R

theorem map_snd_numbered (p : List ℕ) (nodes : List κ) :
    (numbered p nodes).map Prod.snd = nodes := by
  unfold numbered
  apply List.ext_getElem?
  intro i
  rw [List.getElem?_map, List.getElem?_mapIdx, Option.map_map]
  exact congrFun Option.map_id _

/-- A tour of all that the start leads to. -/
def IsTour (S : Search κ ν) (stops : List (Stop κ ν)) : Prop :=
  S.Run (numbered [] S.start) [] stops

theorem mem_numbered {e : List ℕ × κ} {nodes : List κ} :
    e ∈ numbered p nodes ↔ ∃ i, e.1 = p ++ [i] ∧ nodes[i]? = some e.2 := by
  unfold numbered
  rw [List.mem_mapIdx]
  constructor
  · rintro ⟨i, hi, rfl⟩
    exact ⟨i, rfl, List.getElem?_eq_getElem hi⟩
  · rintro ⟨i, hchain, hnode⟩
    obtain ⟨hi, hget⟩ := List.getElem?_eq_some_iff.mp hnode
    exact ⟨i, hi, by rw [hget, ← hchain]⟩

theorem pairwise_numbered (p : List ℕ) (nodes : List κ) :
    ((numbered p nodes).map Prod.fst).Pairwise Before := by
  unfold numbered
  rw [List.pairwise_map, List.pairwise_iff_getElem]
  intro i j hi hj hij
  rw [List.getElem_mapIdx, List.getElem_mapIdx]
  exact before_snoc_snoc p hij

/-- The worklist during a tour: chains are in order, and what has not been taken up yet comes after
something in the worklist. -/
structure Explored (S : Search κ ν) (find : κ → Option ν) (queue : List (List ℕ × κ))
    (stops : List (Stop κ ν)) : Prop where
  sorted : (stops.map Stop.chain ++ queue.map Prod.fst).Pairwise Before
  leads : ∀ e ∈ queue, S.Leads find e.1 e.2
  first : ∀ stop ∈ stops, S.First find stop.chain stop.node
  found : ∀ stop ∈ stops, stop.found = find stop.node
  made : ∀ e ∈ queue, e.1.length = 1 ∨ ∃ stop ∈ stops, ∃ i, e.1 = stop.chain ++ [i]
  complete : ∀ p h, S.First find p h →
    (∃ stop ∈ stops, stop.chain = p ∧ stop.node = h) ∨ ∃ e ∈ queue, e.1 <+: p

theorem Explored.start (S : Search κ ν) (find : κ → Option ν) :
    S.Explored find (numbered [] S.start) [] := by
  refine ⟨by simpa using pairwise_numbered [] S.start, fun e he => ?_, by simp, by simp,
    fun e he => ?_, fun p h hfirst => .inr ?_⟩
  · obtain ⟨i, hchain, hnode⟩ := mem_numbered.mp he
    rw [hchain]
    exact .start hnode
  · obtain ⟨i, hchain, -⟩ := mem_numbered.mp he
    exact .inl (by rw [hchain]; rfl)
  · cases p with
    | nil => exact absurd rfl hfirst.1.ne_nil
    | cons i s =>
      obtain ⟨k, hk⟩ := First.of_isPrefix (p := [i]) hfirst (by simp)
      have hstart : S.start[i]? = some k := by
        have hleads := hk.1
        generalize hq : [i] = q at hleads
        cases hleads with
        | start hstart =>
          obtain rfl := (List.cons.inj hq).1
          exact hstart
        | step hleads _ _ =>
          obtain ⟨hnil, -⟩ := (List.append_eq_singleton_iff.mp hq.symm).resolve_right (by simp)
          exact absurd hnil hleads.ne_nil
      exact ⟨([i], k), mem_numbered.mpr ⟨i, rfl, hstart⟩, by simp⟩

section Step

variable (E : S.Explored find ((p, h) :: queue) stops)

include E

theorem Explored.before_of_stop {stop : Stop κ ν} (hstop : stop ∈ stops) :
    Before stop.chain p :=
  (List.pairwise_append.mp E.sorted).2.2 _ (List.mem_map_of_mem hstop) _ (by simp)

theorem Explored.rank_le {e : List ℕ × κ} (he : e ∈ (p, h) :: queue) : rank p ≤ rank e.1 := by
  have hsorted := (List.pairwise_append.mp E.sorted).2.1
  rw [List.map_cons, List.pairwise_cons] at hsorted
  rcases List.mem_cons.mp he with rfl | he
  · exact le_rfl
  · exact (hsorted.1 _ (List.mem_map_of_mem he)).le

/-- What has an earlier first chain has been taken up. -/
theorem Explored.mem_of_before (hfirst : S.First find q k) (hbefore : Before q p) :
    ∃ stop ∈ stops, stop.chain = q ∧ stop.node = k := by
  refine (E.complete q k hfirst).resolve_right ?_
  rintro ⟨e, he, hprefix⟩
  exact absurd ((E.rank_le he).trans (rank_le_of_isPrefix hprefix)) (not_le.mpr hbefore)

/-- A node is taken up at its first chain. -/
theorem Explored.first_of_new (hnew : h ∉ nodesOf stops) : S.First find p h := by
  have hleads := E.leads _ (List.mem_cons_self ..)
  obtain ⟨q, hq⟩ := hleads.exists_first
  have hqp : ¬ Before q p := by
    intro hbefore
    obtain ⟨stop, hstop, -, hnode⟩ := E.mem_of_before hq hbefore
    exact hnew ⟨stop, hstop, hnode⟩
  have heq : q = p := rank_injective (le_antisymm (hq.rank_le hleads) (not_lt.mp hqp))
  rwa [heq] at hq

theorem Explored.nodesOf_eq :
    nodesOf stops = {k | ∃ q, S.First find q k ∧ Before q p} := by
  ext k
  constructor
  · rintro ⟨stop, hstop, rfl⟩
    exact ⟨stop.chain, E.first stop hstop, E.before_of_stop hstop⟩
  · rintro ⟨q, hq, hbefore⟩
    obtain ⟨stop, hstop, -, hnode⟩ := E.mem_of_before hq hbefore
    exact ⟨stop, hstop, hnode⟩

/-- Skipping a node that has been taken up. -/
theorem Explored.skip (hold : h ∈ nodesOf stops) : S.Explored find queue stops := by
  refine ⟨E.sorted.sublist ((List.Sublist.refl _).append (by simp)),
    fun e he => E.leads e (List.mem_cons_of_mem _ he), E.first, E.found,
    fun e he => E.made e (List.mem_cons_of_mem _ he), fun q k hfirst => ?_⟩
  refine (E.complete q k hfirst).imp_right ?_
  rintro ⟨e, he, hprefix⟩
  rcases List.mem_cons.mp he with rfl | he
  · -- a chain over the skipped entry is not the first one
    obtain ⟨stop, hstop, hnode⟩ := hold
    have hleads := E.leads _ (List.mem_cons_self ..)
    obtain ⟨s, rfl⟩ := hprefix
    obtain ⟨k', hk'⟩ := hfirst.of_isPrefix hleads.ne_nil
    obtain rfl := hk'.1.unique hleads
    have hstopLeads := (E.first stop hstop).1
    rw [hnode] at hstopLeads
    exact absurd (E.before_of_stop hstop) (hk'.2 _ hstopLeads)
  · exact ⟨e, he, hprefix⟩

/-- Taking up a node. -/
theorem Explored.visit (hnew : h ∉ nodesOf stops) :
    S.Explored find (queue ++ numbered p (S.refsOf (find h))) (stops ++ [⟨p, h, find h⟩]) := by
  have hfirst := E.first_of_new hnew
  have hsorted := List.pairwise_append.mp E.sorted
  have hqueue := hsorted.2.1
  rw [List.map_cons, List.pairwise_cons] at hqueue
  have hsuccessor : ∀ e ∈ numbered p (S.refsOf (find h)), ∃ i t, e.1 = p ++ [i] ∧
      find h = some t ∧ (S.refs t)[i]? = some e.2 := by
    intro e he
    obtain ⟨i, hchain, hnode⟩ := mem_numbered.mp he
    cases hfind : find h with
    | none =>
      rw [hfind] at hnode
      cases hnode
    | some t =>
      rw [hfind] at hnode
      exact ⟨i, t, hchain, rfl, hnode⟩
  constructor
  · -- the new entries come after all others
    have hlast : ∀ q ∈ stops.map Stop.chain ++ p :: queue.map Prod.fst,
        ∀ q' ∈ (numbered p (S.refsOf (find h))).map Prod.fst, Before q q' := by
      intro q hq q' hq'
      obtain ⟨e', he', rfl⟩ := List.mem_map.mp hq'
      obtain ⟨i, t, hchain, -, -⟩ := hsuccessor e' he'
      rw [hchain]
      rcases List.mem_append.mp hq with hq | hq
      · obtain ⟨stop, hstop, rfl⟩ := List.mem_map.mp hq
        exact (E.before_of_stop hstop).trans (before_snoc p i)
      · rcases List.mem_cons.mp hq with rfl | hq
        · exact before_snoc _ i
        · obtain ⟨e, he, rfl⟩ := List.mem_map.mp hq
          rcases E.made e (List.mem_cons_of_mem _ he) with hone | ⟨stop, hstop, j, hj⟩
          · refine before_of_length_lt ?_
            have := List.length_pos_of_ne_nil hfirst.1.ne_nil
            rw [List.length_append, List.length_singleton]
            omega
          · rw [hj]
            exact (E.before_of_stop hstop).snoc j i
    have hall := List.pairwise_append.mpr ⟨E.sorted, pairwise_numbered p _, hlast⟩
    simpa using hall
  · intro e he
    rcases List.mem_append.mp he with he | he
    · exact E.leads e (List.mem_cons_of_mem _ he)
    · obtain ⟨i, t, hchain, hfind, href⟩ := hsuccessor e he
      rw [hchain]
      exact hfirst.1.step hfind href
  · intro stop hstop
    rcases List.mem_append.mp hstop with hstop | hstop
    · exact E.first stop hstop
    · rw [List.mem_singleton.mp hstop]
      exact hfirst
  · intro stop hstop
    rcases List.mem_append.mp hstop with hstop | hstop
    · exact E.found stop hstop
    · rw [List.mem_singleton.mp hstop]
  · intro e he
    rcases List.mem_append.mp he with he | he
    · refine (E.made e (List.mem_cons_of_mem _ he)).imp_right ?_
      rintro ⟨stop, hstop, i, hi⟩
      exact ⟨stop, List.mem_append_left _ hstop, i, hi⟩
    · obtain ⟨i, t, hchain, -, -⟩ := hsuccessor e he
      exact .inr ⟨_, List.mem_append_right _ (List.mem_singleton_self _), i, hchain⟩
  · intro q k hq
    rcases E.complete q k hq with ⟨stop, hstop, hat⟩ | ⟨e, he, hprefix⟩
    · exact .inl ⟨stop, List.mem_append_left _ hstop, hat⟩
    · rcases List.mem_cons.mp he with rfl | he
      · -- the chain is the one that is taken up, or goes on from it
        obtain ⟨s, rfl⟩ := hprefix
        cases s with
        | nil =>
          rw [List.append_nil] at hq ⊢
          exact .inl ⟨_, List.mem_append_right _ (List.mem_singleton_self _), rfl,
            hfirst.1.unique hq.1⟩
        | cons i s =>
          right
          have hq' : S.First find ((p ++ [i]) ++ s) k := by simpa using hq
          obtain ⟨k', hk'⟩ := hq'.of_isPrefix (by simp)
          obtain ⟨h', t, hh', hfind, href⟩ := hk'.1.snoc hfirst.1.ne_nil
          obtain rfl := hh'.unique hfirst.1
          refine ⟨(p ++ [i], k'), List.mem_append_right _ (mem_numbered.mpr ⟨i, rfl, ?_⟩), s,
            by simp⟩
          rw [hfind]
          exact href
      · exact .inr ⟨e, List.mem_append_left _ he, hprefix⟩

end Step

/-! ## What a tour takes up -/

theorem Run.explored (R : S.Run queue stops F) (hfind : S.Finds find)
    (E : S.Explored find queue stops) : S.Explored find [] F := by
  induction R with
  | done stops => exact E
  | skip hold _ ih => exact ih (E.skip hold)
  | @visit p h queue stops F hnew _ ih =>
    have hfirst := E.first_of_new hnew
    have hlook : S.look (nodesOf stops) h = find h := by
      rw [E.nodesOf_eq, ← hfind p h hfirst]
    rw [hlook] at ih
    exact ih (E.visit hnew)

/-- **A tour takes up the nodes that a chain leads to**, each at its first chain and in the order of
these, and finds what there is to be found. -/
theorem IsTour.explored (T : S.IsTour F) (hfind : S.Finds find) : S.Explored find [] F :=
  Run.explored T hfind (.start S find)

theorem Explored.mem_iff (E : S.Explored find [] F) {p : List ℕ} {h : κ} :
    (⟨p, h, find h⟩ : Stop κ ν) ∈ F ↔ S.First find p h := by
  constructor
  · exact fun hmem => E.first _ hmem
  · intro hfirst
    obtain ⟨stop, hstop, rfl, rfl⟩ := (E.complete p h hfirst).resolve_right (by simp)
    rw [← E.found stop hstop]
    exact hstop

/-- What holds of the stops in the order of a tour holds in the order of their chains. -/
theorem Explored.rel_of_before (E : S.Explored find [] F) {R : Stop κ ν → Stop κ ν → Prop}
    (hR : F.Pairwise R) {stop stop' : Stop κ ν} (hstop : stop ∈ F) (hstop' : stop' ∈ F)
    (hbefore : Before stop.chain stop'.chain) : R stop stop' := by
  have hsorted := E.sorted
  rw [List.map_nil, List.append_nil, List.pairwise_map, List.pairwise_iff_getElem] at hsorted
  rw [List.pairwise_iff_getElem] at hR
  obtain ⟨i, hi, rfl⟩ := List.mem_iff_getElem.mp hstop
  obtain ⟨j, hj, rfl⟩ := List.mem_iff_getElem.mp hstop'
  rcases lt_trichotomy i j with hlt | rfl | hlt
  · exact hR i j hi hj hlt
  · exact absurd hbefore (lt_irrefl _)
  · exact absurd hbefore (hsorted j i hj hi hlt).not_gt

theorem Run.isPrefix (R : S.Run queue stops F) : stops <+: F := by
  induction R with
  | done stops => exact List.prefix_rfl
  | skip _ _ ih => exact ih
  | visit _ _ ih => exact (List.prefix_append _ _).trans ih

theorem Run.nodup (R : S.Run queue stops F) (hnodup : (stops.map Stop.node).Nodup) :
    (F.map Stop.node).Nodup := by
  induction R with
  | done stops => exact hnodup
  | skip _ _ ih => exact ih hnodup
  | @visit p h queue stops F hnew _ ih =>
    refine ih ?_
    rw [List.map_append, List.map_singleton, List.nodup_append]
    refine ⟨hnodup, List.nodup_singleton h, fun k hk k' hk' heq => ?_⟩
    obtain ⟨stop, hstop, rfl⟩ := List.mem_map.mp hk
    rw [List.mem_singleton.mp hk'] at heq
    exact hnew ⟨stop, hstop, heq⟩

/-- A stop found what its lookup gives after the earlier ones. -/
def LooksUp (S : Search κ ν) (find : κ → Option ν) (stop : Stop κ ν) : Prop :=
  find stop.node = S.look {k | ∃ q, S.First find q k ∧ Before q stop.chain} stop.node

theorem Run.looksUp (R : S.Run queue stops F) (hF : ∀ stop ∈ F, stop.found = find stop.node)
    (E : S.Explored find queue stops) (hlook : ∀ stop ∈ stops, S.LooksUp find stop) :
    S.Explored find [] F ∧ ∀ stop ∈ F, S.LooksUp find stop := by
  induction R with
  | done stops => exact ⟨E, hlook⟩
  | skip hold _ ih => exact ih hF (E.skip hold) hlook
  | @visit p h queue stops F hnew R ih =>
    have hfound : S.look (nodesOf stops) h = find h :=
      hF _ (R.isPrefix.subset (List.mem_append_right _ (List.mem_singleton_self _)))
    have hnodes := E.nodesOf_eq
    rw [hfound] at ih
    refine ih hF (E.visit hnew) fun stop hstop => ?_
    rcases List.mem_append.mp hstop with hstop | hstop
    · exact hlook stop hstop
    · rw [List.mem_singleton.mp hstop, LooksUp, ← hnodes, hfound]

/-- What some stops have found for a node. -/
def foundIn [DecidableEq κ] (stops : List (Stop κ ν)) (h : κ) : Option ν :=
  (stops.find? fun stop => decide (stop.node = h)).bind Stop.found

theorem foundIn_eq [DecidableEq κ] (hnodup : (stops.map Stop.node).Nodup) {stop : Stop κ ν}
    (hstop : stop ∈ stops) : stop.found = foundIn stops stop.node := by
  unfold foundIn
  cases hfind : stops.find? fun other => decide (other.node = stop.node) with
  | none =>
    rw [List.find?_eq_none] at hfind
    exact absurd (decide_eq_true rfl) (hfind stop hstop)
  | some other =>
    have hnode : other.node = stop.node := by simpa using List.find?_some hfind
    have heq := List.inj_on_of_nodup_map hnodup (List.mem_of_find?_eq_some hfind) hstop hnode
    rw [heq, Option.bind_some]

/-- **What a search finds is determined**: a tour gives it. -/
theorem IsTour.exists_finds [DecidableEq κ] (T : S.IsTour F) : ∃ find, S.Finds find := by
  have hnodup := Run.nodup T List.nodup_nil
  obtain ⟨E, hlook⟩ : S.Explored (foundIn F) [] F ∧ ∀ stop ∈ F, S.LooksUp (foundIn F) stop :=
    Run.looksUp T (fun stop hstop => foundIn_eq hnodup hstop) (.start S _) (by simp)
  refine ⟨foundIn F, fun p h hfirst => ?_⟩
  obtain ⟨stop, hstop, rfl, rfl⟩ := (E.complete p h hfirst).resolve_right (by simp)
  exact hlook stop hstop

end Search

end Tour
