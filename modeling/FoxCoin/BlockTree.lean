import FoxCoin.NodeState
import FoxCoin.Lib.Overlay
import Mathlib.Data.List.TakeWhile

/-! # The block tree

`mapBlockIndex` holds a tree: every index but the root is linked to its previous one, with the
height and the work that follow from it. On such a tree the walks are the paths to the root, the
search for a fork succeeds, and the links `pnext` of a path are moved to another path by what
`Reorganize` does above the fork. -/

namespace FoxCoin

open Checked Overlay

/-! ## Linked indexes -/

/-- An index is linked to the index of its previous block, or it is the root. -/
structure CBlockIndex.Linked (m : StdMap Uint256 CBlockIndex) (pindex : CBlockIndex) : Prop where
  root : pindex.pprev = none →
    pindex.nHeight = 0 ∧ pindex.bnChainWork = getBlockWork pindex.nBits
  prev : ∀ hash, pindex.pprev = some hash → ∃ pprev, m.lookup hash = some pprev ∧
    pindex.nHeight = pprev.nHeight + 1 ∧
    pindex.bnChainWork = pprev.bnChainWork + getBlockWork pindex.nBits

/-- The map is a tree: indexes are filed under their hashes, linked, and there is one root. -/
structure IsTree (m : StdMap Uint256 CBlockIndex) (root : CBlockIndex) : Prop where
  hash_eq : ∀ hash pindex, m.lookup hash = some pindex → pindex.phashBlock = hash
  linked : ∀ hash pindex, m.lookup hash = some pindex → pindex.Linked m
  root_mem : m.lookup root.phashBlock = some root
  root_pprev : root.pprev = none
  root_unique : ∀ hash pindex, m.lookup hash = some pindex → pindex.pprev = none → pindex = root

/-- An index of the map. -/
def CBlockIndex.In (pindex : CBlockIndex) (m : StdMap Uint256 CBlockIndex) : Prop :=
  m.lookup pindex.phashBlock = some pindex

instance (pindex : CBlockIndex) (m : StdMap Uint256 CBlockIndex) : Decidable (pindex.In m) :=
  inferInstanceAs (Decidable (_ = _))

variable {m : StdMap Uint256 CBlockIndex} {root p q : CBlockIndex}

/-- Two indexes of the map with one hash are the same. -/
theorem CBlockIndex.In.eq (hp : p.In m) (hq : q.In m) (h : p.phashBlock = q.phashBlock) : p = q := by
  rw [CBlockIndex.In, h] at hp
  exact Option.some.inj (hp.symm.trans hq)

/-- The walk below an index of the map. -/
def walkOf (m : StdMap Uint256 CBlockIndex) (pindex : CBlockIndex) : List CBlockIndex :=
  pindex :: walkBelow m pindex.nHeight pindex

theorem NodeState.walkFrom_eq (s : NodeState) (pindex : CBlockIndex) :
    s.walkFrom pindex = walkOf s.mapBlockIndex pindex := rfl

section Tree

variable (ht : IsTree m root)

include ht

/-- The previous index is in the tree. -/
theorem IsTree.prev (hp : p.In m) {hash : Uint256} (hprev : p.pprev = some hash) :
    ∃ q : CBlockIndex, q.In m ∧ hash = q.phashBlock ∧ p.nHeight = q.nHeight + 1 ∧
      p.bnChainWork = q.bnChainWork + getBlockWork p.nBits := by
  obtain ⟨q, hq, hheight, hwork⟩ := (ht.linked _ _ hp).prev hash hprev
  have hhash := ht.hash_eq _ _ hq
  exact ⟨q, by rw [CBlockIndex.In, hhash, hq], hhash.symm, hheight, hwork⟩

/-- The walk of the root is the root. -/
theorem IsTree.walkOf_root (hp : p.In m) (hprev : p.pprev = none) : walkOf m p = [root] := by
  obtain rfl := ht.root_unique _ _ hp hprev
  rw [walkOf, ((ht.linked _ _ hp).root hprev).1]
  rfl

/-- The walk of another index goes on with the walk of its previous one. -/
theorem IsTree.walkOf_prev (hp : p.In m) (hq : q.In m) (hprev : p.pprev = some q.phashBlock) :
    walkOf m p = p :: walkOf m q := by
  obtain ⟨q', hq', hhash, hheight, -⟩ := ht.prev hp hprev
  obtain rfl : q = q' := hq.eq hq' hhash
  rw [walkOf, hheight, walkBelow, hprev, Option.bind_some, hq]
  rfl

/-- A property of walks follows by induction along the walk: it holds for the root, and for an index
when it holds for the previous one. -/
theorem IsTree.induction {motive : CBlockIndex → List CBlockIndex → Prop}
    (hroot : motive root [root])
    (hstep : ∀ p q, p.In m → q.In m → p.pprev = some q.phashBlock → p.nHeight = q.nHeight + 1 →
      p.bnChainWork = q.bnChainWork + getBlockWork p.nBits → walkOf m p = p :: walkOf m q →
      motive q (walkOf m q) → motive p (p :: walkOf m q))
    (hp : p.In m) : motive p (walkOf m p) := by
  induction hn : p.nHeight using Nat.strong_induction_on generalizing p with
  | _ n ih =>
    cases hprev : p.pprev with
    | none =>
      rw [ht.walkOf_root hp hprev, ht.root_unique _ _ hp hprev]
      exact hroot
    | some hash =>
      obtain ⟨q, hq, rfl, hheight, hwork⟩ := ht.prev hp hprev
      rw [ht.walkOf_prev hp hq hprev]
      exact hstep p q hp hq hprev hheight hwork (ht.walkOf_prev hp hq hprev)
        (ih q.nHeight (by omega) hq rfl)

/-- The indexes of a walk are in the tree. -/
theorem IsTree.in_of_mem_walkOf (hp : p.In m) : ∀ q ∈ walkOf m p, q.In m := by
  refine ht.induction (motive := fun _ l => ∀ q ∈ l, q.In m) ?_ ?_ hp
  · simpa [CBlockIndex.In] using ht.root_mem
  · intro p q hp _ _ _ _ _ ih
    exact List.forall_mem_cons.mpr ⟨hp, ih⟩

/-- Heights go down by one along a walk. -/
theorem IsTree.heights (hp : p.In m) :
    (walkOf m p).Pairwise (fun p q => q.nHeight < p.nHeight) ∧
      ∀ q ∈ walkOf m p, q.nHeight ≤ p.nHeight := by
  refine ht.induction (motive := fun p l =>
    l.Pairwise (fun p q => q.nHeight < p.nHeight) ∧ ∀ q ∈ l, q.nHeight ≤ p.nHeight) ?_ ?_ hp
  · simp
  · intro p q _ _ _ hheight _ _ ih
    obtain ⟨hdesc, hle⟩ := ih
    refine ⟨List.pairwise_cons.mpr ⟨fun r hr => ?_, hdesc⟩, List.forall_mem_cons.mpr ⟨le_rfl, ?_⟩⟩
    · have := hle r hr
      omega
    · intro r hr
      have := hle r hr
      omega

/-- The hashes of a walk are distinct. -/
theorem IsTree.hashes (hp : p.In m) :
    (walkOf m p).Pairwise fun p q => p.phashBlock ≠ q.phashBlock := by
  refine (ht.heights hp).1.imp_of_mem fun ha hb hlt heq => ?_
  have := (ht.in_of_mem_walkOf hp _ ha).eq (ht.in_of_mem_walkOf hp _ hb) heq
  subst this
  omega

/-- The walk from an index of a walk is the rest of the walk. -/
theorem IsTree.walkOf_of_split (hp : p.In m) {a c : List CBlockIndex}
    (h : walkOf m p = a ++ q :: c) : walkOf m q = q :: c := by
  induction a generalizing p with
  | nil =>
    obtain ⟨rfl, -⟩ := List.cons.inj h
    exact h
  | cons r a ih =>
    cases hprev : p.pprev with
    | none =>
      rw [ht.walkOf_root hp hprev] at h
      simp at h
    | some hash =>
      obtain ⟨p', hp', rfl, -, -⟩ := ht.prev hp hprev
      rw [ht.walkOf_prev hp hp' hprev] at h
      exact ih hp' (List.cons.inj h).2

/-- What is on the walk of an index of a walk is on the walk. -/
theorem IsTree.mem_walkOf_trans (hp : p.In m) {r : CBlockIndex} (hq : q ∈ walkOf m p)
    (hr : r ∈ walkOf m q) : r ∈ walkOf m p := by
  obtain ⟨a, c, hsplit⟩ := List.append_of_mem hq
  rw [ht.walkOf_of_split hp hsplit] at hr
  rw [hsplit]
  exact List.mem_append_right a hr

/-- Work goes down along a walk. -/
theorem IsTree.bnChainWork_le_of_mem (hp : p.In m) {r : CBlockIndex} (hr : r ∈ walkOf m p) :
    r.bnChainWork ≤ p.bnChainWork := by
  refine ht.induction (motive := fun p l => r ∈ l → r.bnChainWork ≤ p.bnChainWork) ?_ ?_ hp hr
  · intro hr
    rw [List.mem_singleton.mp hr]
  · intro p q _ _ _ _ hwork _ ih hr
    rcases List.mem_cons.mp hr with rfl | hbelow
    · exact le_rfl
    · have := ih hbelow
      omega

/-- Every walk ends at the root. -/
theorem IsTree.getLast?_walkOf (hp : p.In m) : (walkOf m p).getLast? = some root := by
  refine ht.induction (motive := fun _ l => l.getLast? = some root) rfl ?_ hp
  intro p q _ _ _ _ _ _ ih
  rw [List.getLast?_cons, ih]
  rfl

/-- A walk has one block for each height. -/
theorem IsTree.length_walkOf (hp : p.In m) : (walkOf m p).length = p.nHeight + 1 := by
  refine ht.induction (motive := fun p l => l.length = p.nHeight + 1) ?_ ?_ hp
  · rw [((ht.linked _ _ ht.root_mem).root ht.root_pprev).1]
    rfl
  · intro p q _ _ _ hheight _ _ ih
    rw [List.length_cons, ih, hheight]

/-- Only the root has height zero. -/
theorem IsTree.eq_root_of_nHeight (hp : p.In m) (hzero : p.nHeight = 0) : p = root := by
  cases hprev : p.pprev with
  | none => exact ht.root_unique _ _ hp hprev
  | some hash =>
    obtain ⟨q, -, -, hheight, -⟩ := ht.prev hp hprev
    omega

/-- The part of a walk that is not above a height is the walk of one of its indexes. -/
theorem IsTree.dropWhile_walkOf (hq : q.In m) (nHeight : ℕ) :
    ∃ r a, r.In m ∧ (walkOf m q).dropWhile (fun p => decide (nHeight < p.nHeight)) = walkOf m r ∧
      walkOf m q = a ++ walkOf m r ∧ r.nHeight ≤ nHeight := by
  refine ht.induction (motive := fun _ l => ∃ r a, r.In m ∧
    l.dropWhile (fun p => decide (nHeight < p.nHeight)) = walkOf m r ∧ l = a ++ walkOf m r ∧
      r.nHeight ≤ nHeight) ?_ ?_ hq
  · have hzero := ((ht.linked _ _ ht.root_mem).root ht.root_pprev).1
    have hwalk := ht.walkOf_root ht.root_mem ht.root_pprev
    exact ⟨root, [], ht.root_mem, by simp [hzero, hwalk], by simp [hwalk], by omega⟩
  · intro p q hp _ _ _ _ hwalk ⟨r, a, hr, hdrop, hsplit, hle⟩
    by_cases hlt : nHeight < p.nHeight
    · refine ⟨r, p :: a, hr, ?_, by rw [hsplit, List.cons_append], hle⟩
      rw [List.dropWhile_cons_of_pos (by simpa using hlt), hdrop]
    · refine ⟨p, [], hp, ?_, hwalk.symm, not_lt.mp hlt⟩
      rw [List.dropWhile_cons_of_neg (by simpa using hlt), hwalk]

/-- What is cut off a walk is above the height. -/
theorem IsTree.notMem_of_dropWhile {b : List CBlockIndex} {r : CBlockIndex}
    (hr : r.In m)
    (hdrop : (walkOf m q).dropWhile (fun p' => decide (p.nHeight < p'.nHeight)) = walkOf m r)
    (hsplit : walkOf m q = b ++ walkOf m r) (hne : r ≠ p) (hle : r.nHeight ≤ p.nHeight) :
    (∀ p' ∈ b, p.nHeight < p'.nHeight) ∧ p ∉ walkOf m q := by
  have hb : ∀ p' ∈ b, p.nHeight < p'.nHeight := by
    have htake := List.takeWhile_append_dropWhile (l := walkOf m q)
      (p := fun p' => decide (p.nHeight < p'.nHeight))
    rw [hdrop, hsplit, List.append_cancel_right_eq] at htake
    intro p' hp'
    rw [← htake] at hp'
    simpa using List.mem_takeWhile_imp hp'
  refine ⟨hb, fun hmem => ?_⟩
  rw [hsplit, List.mem_append] at hmem
  rcases hmem with habove | hbelow
  · exact lt_irrefl _ (hb p habove)
  · rcases List.mem_cons.mp hbelow with rfl | hbelow
    · exact hne rfl
    · have hheight : p.nHeight < r.nHeight :=
        (List.pairwise_cons.mp (ht.heights hr).1).1 p hbelow
      omega

/-- **The fork of two branches of a tree is found**: both walks go on with the walk of the fork, and
nothing of the first one above it is on the second one. -/
theorem IsTree.findFork (hp : p.In m) (hq : q.In m) :
    ∃ pfork a b c, findFork (walkOf m p) (walkOf m q) = .ok pfork ∧
      walkOf m p = a ++ pfork :: c ∧ walkOf m q = b ++ pfork :: c ∧
      ∀ r ∈ a, r ∉ walkOf m q := by
  induction hn : p.nHeight using Nat.strong_induction_on generalizing p q with
  | _ n ih =>
    obtain ⟨r, b, hr, hdrop, hsplit, hle⟩ := ht.dropWhile_walkOf hq p.nHeight
    by_cases heq : r = p
    · subst heq
      refine ⟨r, [], b, walkBelow m r.nHeight r, ?_, rfl, hsplit,
        fun r' hr' => absurd hr' List.not_mem_nil⟩
      rw [walkOf, FoxCoin.findFork, hdrop, walkOf]
      exact if_pos rfl
    · obtain ⟨habove, hnot⟩ := ht.notMem_of_dropWhile hr hdrop hsplit heq hle
      cases hprev : p.pprev with
      | none =>
        -- the walk of the other branch has come down to the root as well
        have hroot := ht.root_unique _ _ hp hprev
        have hzero := ((ht.linked _ _ hp).root hprev).1
        exact absurd ((ht.eq_root_of_nHeight hr (by omega)).trans hroot.symm) heq
      | some hash =>
        obtain ⟨p', hp', rfl, hheight, -⟩ := ht.prev hp hprev
        obtain ⟨f, a, b', c, hfind, ha, hb, hoff⟩ := ih p'.nHeight (by omega) hp' hr rfl
        refine ⟨f, p :: a, b ++ b', c, ?_, ?_, ?_, ?_⟩
        · rw [ht.walkOf_prev hp hp' hprev, FoxCoin.findFork, hdrop, walkOf]
          exact (if_neg heq).trans hfind
        · rw [ht.walkOf_prev hp hp' hprev, ha, List.cons_append]
        · rw [hsplit, hb, List.append_assoc]
        · refine List.forall_mem_cons.mpr ⟨hnot, fun r' hr' hmem => ?_⟩
          rw [hsplit, List.mem_append] at hmem
          rcases hmem with hcut | hrest
          · have hlt := habove r' hcut
            have hwalk : r' ∈ walkOf m p' := by rw [ha]; exact List.mem_append_left _ hr'
            have hle' := (ht.heights hp').2 r' hwalk
            omega
          · exact hoff r' hr' hrest

end Tree

/-! ## A new index -/

/-- A root alone is a tree. -/
theorem isTree_singleton (hprev : root.pprev = none) (hheight : root.nHeight = 0)
    (hwork : root.bnChainWork = getBlockWork root.nBits) :
    IsTree ((∅ : StdMap Uint256 CBlockIndex).insert root.phashBlock root) root := by
  have hcases : ∀ k r, ((∅ : StdMap Uint256 CBlockIndex).insert root.phashBlock root).lookup k =
      some r → k = root.phashBlock ∧ r = root := by
    intro k r hr
    rw [lookup_insert_eq_ite, Finmap.lookup_empty, Option.ite_none_right_eq_some,
      Option.some.injEq] at hr
    exact ⟨hr.1, hr.2.symm⟩
  constructor
  · intro k r hr
    obtain ⟨rfl, rfl⟩ := hcases k r hr
    rfl
  · intro k r hr
    obtain ⟨rfl, rfl⟩ := hcases k r hr
    refine ⟨fun _ => ⟨hheight, hwork⟩, fun hash hhash => ?_⟩
    rw [hprev] at hhash
    cases hhash
  · rw [lookup_insert_eq_ite, if_pos rfl]
  · exact hprev
  · exact fun k r hr _ => (hcases k r hr).2

/-- The walk of an index of the tree does not see an index that is added under a new hash. -/
theorem IsTree.walkOf_insert (ht : IsTree m root) (hp : p.In m) {hash : Uint256}
    (hnew : hash ∉ m) (pindex : CBlockIndex) : walkOf (m.insert hash pindex) p = walkOf m p := by
  have hkeep : ∀ k r, m.lookup k = some r → (m.insert hash pindex).lookup k = some r := by
    intro k r hr
    rw [lookup_insert_eq_ite, if_neg, hr]
    rintro rfl
    exact hnew (Finmap.mem_of_lookup_eq_some hr)
  refine congrArg (p :: ·) ?_
  generalize p.nHeight = n
  induction n generalizing p with
  | zero => rfl
  | succ n ih =>
    rw [walkBelow, walkBelow]
    cases hprev : p.pprev with
    | none => rfl
    | some k =>
      obtain ⟨q, hq, rfl, -, -⟩ := ht.prev hp hprev
      rw [Option.bind_some, Option.bind_some, hkeep _ _ hq, hq]
      exact congrArg (q :: ·) (ih hq)

/-- A tree with a new index that is linked to one of its indexes is a tree. -/
theorem IsTree.insert (ht : IsTree m root) (hnew : p.phashBlock ∉ m) (hq : q.In m)
    (hprev : p.pprev = some q.phashBlock) (hheight : p.nHeight = q.nHeight + 1)
    (hwork : p.bnChainWork = q.bnChainWork + getBlockWork p.nBits) :
    IsTree (m.insert p.phashBlock p) root := by
  have hkeep : ∀ k r, m.lookup k = some r → (m.insert p.phashBlock p).lookup k = some r := by
    intro k r hr
    rw [lookup_insert_eq_ite, if_neg, hr]
    rintro rfl
    exact hnew (Finmap.mem_of_lookup_eq_some hr)
  have hcases : ∀ k r, (m.insert p.phashBlock p).lookup k = some r →
      (k = p.phashBlock ∧ r = p) ∨ m.lookup k = some r := by
    intro k r hr
    rw [lookup_insert_eq_ite] at hr
    by_cases hk : k = p.phashBlock
    · rw [if_pos hk, Option.some.injEq] at hr
      exact .inl ⟨hk, hr.symm⟩
    · rw [if_neg hk] at hr
      exact .inr hr
  -- the link of an old index is still there
  have hlift : ∀ r : CBlockIndex, r.Linked m → r.Linked (m.insert p.phashBlock p) := by
    intro r hr
    refine ⟨hr.root, fun k hk => ?_⟩
    obtain ⟨r', hr', hrest⟩ := hr.prev k hk
    exact ⟨r', hkeep _ _ hr', hrest⟩
  constructor
  · intro k r hr
    rcases hcases k r hr with ⟨rfl, rfl⟩ | hold
    · rfl
    · exact ht.hash_eq _ _ hold
  · intro k r hr
    rcases hcases k r hr with ⟨rfl, rfl⟩ | hold
    · refine ⟨fun h => ?_, fun k hk => ?_⟩
      · rw [hprev] at h
        cases h
      · rw [hprev, Option.some.injEq] at hk
        subst hk
        exact ⟨q, hkeep _ _ hq, hheight, hwork⟩
    · exact hlift r (ht.linked _ _ hold)
  · exact hkeep _ _ ht.root_mem
  · exact ht.root_pprev
  · intro k r hr hnone
    rcases hcases k r hr with ⟨rfl, rfl⟩ | hold
    · rw [hprev] at hnone
      cases hnone
    · exact ht.root_unique _ _ hold hnone

/-! ## Above a fork -/

/-- The indexes of `a`, each with the walk below it, where the walk goes on with `c`. -/
def indexWalks : List CBlockIndex → List CBlockIndex → List IndexWalk
  | [], _ => []
  | pindex :: a, c => (pindex, a ++ c) :: indexWalks a c

/-- What is above the fork of a walk. -/
theorem aboveFork_append {a c : List CBlockIndex} {pfork : CBlockIndex} (hnot : pfork ∉ a) :
    aboveFork pfork (a ++ pfork :: c) = indexWalks a (pfork :: c) := by
  induction a with
  | nil => exact if_pos rfl
  | cons p a ih =>
    obtain ⟨hne, hrest⟩ := not_or.mp (mt List.mem_cons.mpr hnot)
    rw [List.cons_append, aboveFork, if_neg (Ne.symm hne), ih hrest, indexWalks]

/-- The links `pnext` of the path that a walk goes along. -/
def links : List CBlockIndex → StdMap Uint256 Uint256
  | [] => ∅
  | [_] => ∅
  | pindex :: pprev :: vPrev => (links (pprev :: vPrev)).insert pprev.phashBlock pindex.phashBlock

/-- The links of a path go from the blocks below its tip. -/
theorem mem_links {p : CBlockIndex} {l : List CBlockIndex} {hash : Uint256} :
    hash ∈ links (p :: l) ↔ ∃ q ∈ l, q.phashBlock = hash := by
  induction l generalizing p with
  | nil => simpa [links] using Finmap.notMem_empty
  | cons q l ih => simp [links, ih, eq_comm]

/-- Disconnecting takes the links of the blocks above the fork away. -/
theorem foldl_erase_links {a c : List CBlockIndex} {pfork : CBlockIndex}
    (hdist : (a ++ pfork :: c).Pairwise fun p q => p.phashBlock ≠ q.phashBlock) :
    (indexWalks a (pfork :: c)).foldl
        (fun m w => w.2.head?.elim m fun pprev => m.erase pprev.phashBlock)
        (links (a ++ pfork :: c)) = links (pfork :: c) := by
  induction a with
  | nil => rfl
  | cons p a ih =>
    rw [List.cons_append] at hdist
    have hrest := (List.pairwise_cons.mp hdist).2
    refine Eq.trans ?_ (ih hrest)
    rw [indexWalks, List.foldl_cons, List.cons_append]
    congr 1
    cases hl : a ++ pfork :: c with
    | nil => simp at hl
    | cons q l =>
      rw [hl] at hrest
      have hnew : q.phashBlock ∉ links (q :: l) := by
        rw [mem_links]
        rintro ⟨r, hr, heq⟩
        exact (List.pairwise_cons.mp hrest).1 r hr heq.symm
      show (links (p :: q :: l)).erase q.phashBlock = links (q :: l)
      rw [links, erase_insert, erase_of_notMem hnew]

/-- Connecting adds the links of the blocks above the fork. -/
theorem foldl_insert_links {b c : List CBlockIndex} {pfork : CBlockIndex} :
    (indexWalks b (pfork :: c)).reverse.foldl
        (fun m w => w.2.head?.elim m fun pprev => m.insert pprev.phashBlock w.1.phashBlock)
        (links (pfork :: c)) = links (b ++ pfork :: c) := by
  induction b with
  | nil => rfl
  | cons p b ih =>
    rw [indexWalks, List.reverse_cons, List.foldl_append, ih, List.foldl_cons, List.foldl_nil,
      List.cons_append]
    cases hl : b ++ pfork :: c with
    | nil => simp at hl
    | cons q l => rfl

end FoxCoin
