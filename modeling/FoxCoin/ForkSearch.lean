import FoxCoin.TipInvariant
import FoxCoin.Lib.Ancestry

/-! # The search for the fork

`Reorganize` climbs from the tip and from the new block until both pointers meet, and collects the
blocks on the way from each of them. Both null checks of the search are there for a tree that is
broken: with correct heights neither pointer runs off the genesis block. -/

namespace FoxCoin

open Ancestry Overlay

variable {m : StdMap Uint256 CBlockIndex} {root p q pfork : CBlockIndex} {nFuel : ℕ}

/-! ## The code -/

/-- `pindex->pprev`, the null pointer as `none`. -/
def prevOf (m : StdMap Uint256 CBlockIndex) (pindex : CBlockIndex) : Option CBlockIndex :=
  pindex.pprev.bind m.lookup

/-- The inner loop of the search: `while (plonger->nHeight > pfork->nHeight)`; `none` when it has
not come to an end. -/
def lowerLonger (m : StdMap Uint256 CBlockIndex) (pfork : CBlockIndex) :
    ℕ → CBlockIndex → Option (Result CBlockIndex)
  | 0, _ => none
  | nFuel + 1, plonger =>
    if pfork.nHeight < plonger.nHeight then
      match prevOf m plonger with
      | none => some (.error ⟨0, "Reorganize() : plonger->pprev is null"⟩)
      | some plonger => lowerLonger m pfork nFuel plonger
    else some (.ok plonger)

/-- The outer loop of the search: `while (pfork != plonger)`. -/
def searchFork (m : StdMap Uint256 CBlockIndex) :
    ℕ → CBlockIndex → CBlockIndex → Option (Result CBlockIndex)
  | 0, _, _ => none
  | nFuel + 1, pfork, plonger =>
    if pfork = plonger then some (.ok pfork)
    else
      match lowerLonger m pfork (nFuel + 1) plonger with
      | none => none
      | some (.error r) => some (.error r)
      | some (.ok plonger) =>
        if pfork = plonger then some (.ok pfork)
        else
          match prevOf m pfork with
          | none => some (.error ⟨0, "Reorganize() : pfork->pprev is null"⟩)
          | some pfork => searchFork m nFuel pfork plonger

/-- The loop `for (; pindex != pfork; pindex = pindex->pprev)`, which pushes what it passes; `none`
when it has not come to an end, or dereferences the null pointer. -/
def collectBranch (m : StdMap Uint256 CBlockIndex) (pfork : CBlockIndex) :
    ℕ → CBlockIndex → Option (List CBlockIndex)
  | 0, _ => none
  | nFuel + 1, pindex =>
    if pindex = pfork then some []
    else (prevOf m pindex).bind fun pprev => (collectBranch m pfork nFuel pprev).map (pindex :: ·)

/-- What the search leaves: the fork, and the blocks to disconnect and to connect. -/
structure Fork where
  pfork : CBlockIndex
  vDisconnect : List CBlockIndex
  vConnect : List CBlockIndex

/-- The first part of `Reorganize`, up to the message about the two branches. -/
def reorganizeFork (m : StdMap Uint256 CBlockIndex) (nFuel : ℕ) (pindexBest pindexNew : CBlockIndex) :
    Option (Result Fork) :=
  match searchFork m nFuel pindexBest pindexNew with
  | none => none
  | some (.error r) => some (.error r)
  | some (.ok pfork) => do
    let vDisconnect ← collectBranch m pfork nFuel pindexBest
    let vConnect ← collectBranch m pfork nFuel pindexNew
    some (.ok ⟨pfork, vDisconnect, vConnect.reverse⟩)

/-! ## Trees with correct heights -/

/-- The indexes of the map are a tree, and each one is one higher than its previous one. -/
def HasHeights (m : StdMap Uint256 CBlockIndex) : Prop :=
  Levelled (prevOf m) CBlockIndex.nHeight fun pindex => pindex.In m

/-- What the search is to find: the last common ancestor, and the paths to it. -/
structure Fork.IsFork (fork : Fork) (m : StdMap Uint256 CBlockIndex) (p q : CBlockIndex) : Prop where
  lastCommon : IsLastCommon (prevOf m) fork.pfork p q
  disconnect : Path (prevOf m) p fork.vDisconnect fork.pfork
  connect : Path (prevOf m) q fork.vConnect.reverse fork.pfork

section Search

variable (h : HasHeights m)

include h

/-- The inner loop ends at the height of the other pointer, and the last common ancestor is still
the same. -/
theorem lowerLonger_spec (hp : p.In m) (hq : q.In m) (hfuel : q.nHeight < nFuel) :
    ∃ r : CBlockIndex, lowerLonger m p nFuel q = some (.ok r) ∧ r.In m ∧ r.nHeight ≤ p.nHeight ∧
      r.nHeight ≤ q.nHeight ∧
      ∀ f, IsLastCommon (prevOf m) f p r → IsLastCommon (prevOf m) f p q := by
  induction nFuel generalizing q with
  | zero => omega
  | succ nFuel ih =>
    rw [lowerLonger]
    by_cases hlt : p.nHeight < q.nHeight
    · -- the genesis block is not higher than another one
      obtain ⟨q', hprev⟩ := h.exists_parent_of_lt hp hq hlt
      have hheight := h.level_eq q hq q' hprev
      obtain ⟨r, hloop, hr, hle, hle', hcommon⟩ := ih (h.closed q hq q' hprev) (by omega)
      rw [if_pos hlt]
      simp only [hprev]
      exact ⟨r, hloop, hr, hle, by omega,
        fun f hf => h.lastCommon_of_lt hp hlt hprev (hcommon f hf)⟩
    · rw [if_neg hlt]
      exact ⟨q, rfl, hq, not_lt.mp hlt, le_rfl, fun _ => id⟩

/-- **The search ends at the last common ancestor**, and not at a null pointer. -/
theorem searchFork_spec (hp : p.In m) (hq : q.In m) (hfuel : p.nHeight + q.nHeight < nFuel) :
    ∃ f, searchFork m nFuel p q = some (.ok f) ∧ IsLastCommon (prevOf m) f p q := by
  induction nFuel generalizing p q with
  | zero => omega
  | succ nFuel ih =>
    rw [searchFork]
    by_cases heq : p = q
    · rw [if_pos heq]
      exact ⟨p, rfl, heq ▸ .refl p⟩
    have hlonger : q.nHeight < nFuel + 1 := by omega
    obtain ⟨r, hloop, hr, hle, hle', hcommon⟩ := lowerLonger_spec h hp hq hlonger
    simp only [if_neg heq, hloop]
    by_cases heq' : p = r
    · rw [if_pos heq']
      exact ⟨p, rfl, hcommon p (heq' ▸ .refl p)⟩
    · -- two blocks of one height that are not the same have previous blocks
      obtain ⟨p', hprev⟩ := h.exists_parent_of_ne hp hr hle heq'
      have hheight := h.level_eq p hp p' hprev
      obtain ⟨f, hsearch, hf⟩ := ih (h.closed p hp p' hprev) hr (by omega)
      simp only [if_neg heq', hprev]
      exact ⟨f, hsearch, hcommon f (h.lastCommon_of_ne hr hle heq' hprev hf)⟩

/-- The loop over a branch pushes the path. -/
theorem collectBranch_eq {l : List CBlockIndex} (hp : p.In m) (hl : Path (prevOf m) p l pfork)
    (hfuel : p.nHeight < nFuel) : collectBranch m pfork nFuel p = some l := by
  induction hl generalizing nFuel with
  | nil p =>
    obtain ⟨nFuel, rfl⟩ := Nat.exists_eq_succ_of_ne_zero (Nat.ne_zero_of_lt hfuel)
    exact if_pos rfl
  | @cons p q f l hprev hrest ih =>
    obtain ⟨nFuel, rfl⟩ := Nat.exists_eq_succ_of_ne_zero (Nat.ne_zero_of_lt hfuel)
    have hq := h.closed p hp q hprev
    have hheight := h.level_eq p hp q hprev
    have hne : p ≠ f := by
      rintro rfl
      have := h.level_le hq hrest.isAncestor
      omega
    rw [collectBranch, if_neg hne, hprev, Option.bind_some, ih hq (by omega)]
    rfl

/-- **The fork is found**, with the two branches from it. -/
theorem exists_reorganizeFork (hp : p.In m) (hq : q.In m) :
    ∃ fork : Fork, fork.IsFork m p q ∧
      ∀ nFuel, p.nHeight + q.nHeight < nFuel → reorganizeFork m nFuel p q = some (.ok fork) := by
  obtain ⟨f, -, hf⟩ := searchFork_spec h hp hq (Nat.lt_succ_self _)
  obtain ⟨vDisconnect, hdisconnect⟩ := hf.left.exists_path
  obtain ⟨vConnect, hconnect⟩ := hf.right.exists_path
  refine ⟨⟨f, vDisconnect, vConnect.reverse⟩, ⟨hf, hdisconnect, ?_⟩, fun nFuel hfuel => ?_⟩
  · rw [List.reverse_reverse]
    exact hconnect
  · obtain ⟨f', hsearch, hf'⟩ := searchFork_spec h hp hq hfuel
    obtain rfl := h.lastCommon_unique hp hf hf'
    have hbest : p.nHeight < nFuel := by omega
    have hnew : q.nHeight < nFuel := by omega
    simp only [reorganizeFork, hsearch, collectBranch_eq h hp hdisconnect hbest,
      collectBranch_eq h hq hconnect hnew]
    rfl

/-- There is one fork. -/
theorem Fork.IsFork.unique {fork fork' : Fork} (hp : p.In m) (hq : q.In m)
    (hfork : fork.IsFork m p q) (hfork' : fork'.IsFork m p q) : fork = fork' := by
  obtain ⟨f, vDisconnect, vConnect⟩ := fork
  obtain ⟨f', vDisconnect', vConnect'⟩ := fork'
  obtain rfl : f = f' := h.lastCommon_unique hp hfork.lastCommon hfork'.lastCommon
  obtain rfl : vDisconnect = vDisconnect' := h.path_unique hp hfork.disconnect hfork'.disconnect
  have hconnect : vConnect.reverse = vConnect'.reverse :=
    h.path_unique hq hfork.connect hfork'.connect
  rw [List.reverse_inj.mp hconnect]

end Search

/-! ## More rounds -/

theorem lowerLonger_succ {x : Result CBlockIndex} (hx : lowerLonger m p nFuel q = some x) :
    lowerLonger m p (nFuel + 1) q = some x := by
  induction nFuel generalizing q with
  | zero => cases hx
  | succ nFuel ih =>
    rw [lowerLonger] at hx ⊢
    split_ifs at hx ⊢
    · cases hprev : prevOf m q with
      | none =>
        simp only [hprev] at hx ⊢
        exact hx
      | some q' =>
        simp only [hprev] at hx ⊢
        exact ih hx
    · exact hx

theorem searchFork_succ {x : Result CBlockIndex} (hx : searchFork m nFuel p q = some x) :
    searchFork m (nFuel + 1) p q = some x := by
  induction nFuel generalizing p q with
  | zero => cases hx
  | succ nFuel ih =>
    rw [searchFork] at hx ⊢
    split_ifs at hx ⊢
    · exact hx
    -- the inner loop ends as before when it has one round more
    cases hloop : lowerLonger m p (nFuel + 1) q with
    | none =>
      rw [hloop] at hx
      cases hx
    | some y =>
      rw [lowerLonger_succ hloop]
      rw [hloop] at hx
      cases y with
      | error r => exact hx
      | ok r =>
        simp only at hx ⊢
        split_ifs at hx ⊢
        · exact hx
        · cases hprev : prevOf m p with
          | none =>
            simp only [hprev] at hx ⊢
            exact hx
          | some p' =>
            simp only [hprev] at hx ⊢
            exact ih hx

/-- A search that ends does so in any more rounds. -/
theorem searchFork_mono {x : Result CBlockIndex} {n : ℕ} (hx : searchFork m nFuel p q = some x)
    (hle : nFuel ≤ n) : searchFork m n p q = some x := by
  induction n, hle using Nat.le_induction with
  | base => exact hx
  | succ n _ ih => exact searchFork_succ ih

/-- Neither null check fires, however long the search has run. -/
theorem reorganizeFork_ne_error (h : HasHeights m) (hp : p.In m) (hq : q.In m) (r : Reject) :
    reorganizeFork m nFuel p q ≠ some (.error r) := by
  intro herror
  have hsearch : searchFork m nFuel p q = some (.error r) := by
    rw [reorganizeFork] at herror
    cases hsearch : searchFork m nFuel p q with
    | none =>
      rw [hsearch] at herror
      cases herror
    | some x =>
      rw [hsearch] at herror
      cases x with
      | error r' => exact congrArg some (by cases herror; rfl)
      | ok f =>
        obtain ⟨vDisconnect, -, herror⟩ := Option.bind_eq_some_iff.mp herror
        obtain ⟨vConnect, -, herror⟩ := Option.bind_eq_some_iff.mp herror
        cases herror
  obtain ⟨f, hends, -⟩ :=
    searchFork_spec h hp hq (Nat.lt_succ_of_le (le_max_left (p.nHeight + q.nHeight) nFuel))
  rw [searchFork_mono hsearch ((le_max_right _ _).trans (Nat.le_succ _))] at hends
  cases hends

/-! ## The tree of the node -/

theorem IsTree.hasHeights (ht : IsTree m root) : HasHeights m where
  closed p hp q hprev := by
    obtain ⟨hash, -, hlookup⟩ := Option.bind_eq_some_iff.mp hprev
    rw [CBlockIndex.In, ht.hash_eq _ _ hlookup]
    exact hlookup
  level_eq p hp q hprev := by
    obtain ⟨hash, hhash, hlookup⟩ := Option.bind_eq_some_iff.mp hprev
    obtain ⟨q', hq', hheight, -⟩ := (ht.linked _ _ hp).prev hash hhash
    rw [hlookup] at hq'
    cases hq'
    exact hheight
  root p hp q hq hproot hqroot := by
    have hnone : ∀ {r : CBlockIndex}, r.In m → prevOf m r = none → r = root := by
      intro r hr hroot
      cases hprev : r.pprev with
      | none => exact ht.root_unique _ _ hr hprev
      | some hash =>
        obtain ⟨r', hr', -⟩ := (ht.linked _ _ hr).prev hash hprev
        rw [prevOf, hprev, Option.bind_some, hr'] at hroot
        cases hroot
    rw [hnone hp hproot, hnone hq hqroot]

/-- What stands on a walk before an index is the path to it. -/
theorem IsTree.path_of_split (ht : IsTree m root) (hp : p.In m) {a c : List CBlockIndex}
    (hsplit : walkOf m p = a ++ q :: c) : Path (prevOf m) p a q := by
  induction a generalizing p with
  | nil =>
    obtain ⟨rfl, -⟩ := List.cons.inj hsplit
    exact .nil p
  | cons r a ih =>
    obtain ⟨rfl, -⟩ := List.cons.inj hsplit
    cases hprev : p.pprev with
    | none =>
      rw [ht.walkOf_root hp hprev] at hsplit
      simp at hsplit
    | some hash =>
      obtain ⟨p', hp', rfl, -, -⟩ := ht.prev hp hprev
      rw [ht.walkOf_prev hp hp' hprev] at hsplit
      have hparent : prevOf m p = some p' := by rw [prevOf, hprev, Option.bind_some, hp']
      exact .cons hparent (ih hp' (List.cons.inj hsplit).2)

/-- The walk of an index has its ancestors. -/
theorem IsTree.mem_walkOf_iff (ht : IsTree m root) (hp : p.In m) :
    q ∈ walkOf m p ↔ IsAncestor (prevOf m) q p := by
  constructor
  · intro hq
    obtain ⟨a, c, hsplit⟩ := List.append_of_mem hq
    exact (ht.path_of_split hp hsplit).isAncestor
  · intro hanc
    induction hanc using Relation.ReflTransGen.head_induction_on with
    | refl => exact List.mem_cons_self
    | @head p p' hparent _ ih =>
      have hp' := ht.hasHeights.closed p hp p' hparent
      obtain ⟨hash, hprev, hlookup⟩ := Option.bind_eq_some_iff.mp hparent
      obtain rfl := ht.hash_eq _ _ hlookup
      rw [ht.walkOf_prev hp hp' hprev]
      exact List.mem_cons_of_mem p (ih hp')

theorem map_fst_indexWalks (a c : List CBlockIndex) : (indexWalks a c).map Prod.fst = a := by
  induction a with
  | nil => rfl
  | cons p a ih => exact congrArg (p :: ·) ih

/-- **The branches of a reorganisation are those that the search finds.** -/
theorem IsTree.branches_eq_fork {s : NodeState} (ht : IsTree s.mapBlockIndex root)
    (hp : p.In s.mapBlockIndex) (hbest : s.pindexBest = some p) (hq : q.In s.mapBlockIndex) :
    ∃ (fork : Fork) (vDisconnect vConnect : List IndexWalk),
      s.branches q = .ok (vDisconnect, vConnect) ∧
      (∀ nFuel, p.nHeight + q.nHeight < nFuel →
        reorganizeFork s.mapBlockIndex nFuel p q = some (.ok fork)) ∧
      vDisconnect.map Prod.fst = fork.vDisconnect ∧ vConnect.map Prod.fst = fork.vConnect := by
  obtain ⟨f, a, b, c, hbranches, ha, hb, hoff⟩ := ht.branches hp hbest hq
  rw [NodeState.walkFrom_eq] at ha hb
  obtain ⟨fork, hfork, hends⟩ := exists_reorganizeFork ht.hasHeights hp hq
  have hwalk : walkOf s.mapBlockIndex f = f :: c := ht.walkOf_of_split hp ha
  have hf := ht.path_of_split hp ha
  -- there is only one fork, so it is enough that the branches make one
  have hlists : (⟨f, a, b.reverse⟩ : Fork).IsFork s.mapBlockIndex p q := by
    refine ⟨⟨hf.isAncestor, (ht.path_of_split hq hb).isAncestor, fun r hrp hrq => ?_⟩, hf, ?_⟩
    · rw [← ht.mem_walkOf_iff hp, ha, List.mem_append] at hrp
      rcases hrp with habove | hbelow
      · exact absurd ((ht.mem_walkOf_iff hq).mpr hrq) (hoff r habove)
      · rw [← hwalk] at hbelow
        exact (ht.mem_walkOf_iff (ht.hasHeights.mem hp hf.isAncestor)).mp hbelow
    · rw [List.reverse_reverse]
      exact ht.path_of_split hq hb
  obtain rfl := Fork.IsFork.unique ht.hasHeights hp hq hfork hlists
  exact ⟨_, _, _, hbranches, hends, map_fst_indexWalks _ _,
    by rw [List.map_reverse, map_fst_indexWalks]⟩

/-! ## Every reorganisation -/

/-- **The search of `Reorganize`.** It ends with the one fork of the tip and the new block, and never
at a null pointer. -/
theorem reorganize_findsFork (h : HasHeights m) {pindexBest pindexNew : CBlockIndex}
    (hbest : pindexBest.In m) (hnew : pindexNew.In m) :
    ∃ fork : Fork, fork.IsFork m pindexBest pindexNew ∧
      (∀ fork' : Fork, fork'.IsFork m pindexBest pindexNew → fork' = fork) ∧
      (∀ nFuel, pindexBest.nHeight + pindexNew.nHeight < nFuel →
        reorganizeFork m nFuel pindexBest pindexNew = some (.ok fork)) ∧
      ∀ nFuel r, reorganizeFork m nFuel pindexBest pindexNew ≠ some (.error r) := by
  obtain ⟨fork, hfork, hends⟩ := exists_reorganizeFork h hbest hnew
  exact ⟨fork, hfork, fun fork' hfork' => hfork'.unique h hbest hnew hfork, hends,
    fun nFuel r => reorganizeFork_ne_error h hbest hnew r⟩

/-- An index with this hash, previous hash and height, all of the same small work. -/
def forkIndex (hash : Uint256) (hashPrev : Option Uint256) (nHeight : ℕ) : CBlockIndex where
  phashBlock := hash
  pprev := hashPrev
  nFile := 1
  nBlockPos := 1
  nHeight := nHeight
  bnChainWork := (nHeight + 1) * getBlockWork 0x207fffff
  nVersion := 1
  hashMerkleRoot := 0
  nTime := 0
  nBits := 0x207fffff
  nNonce := 0

/-- A genesis block with a branch of one block and a branch of two. -/
def forkMap : StdMap Uint256 CBlockIndex :=
  (((∅ : StdMap Uint256 CBlockIndex).insert 1 (forkIndex 1 none 0)).insert 2
    (forkIndex 2 (some 1) 1)).insert 3 (forkIndex 3 (some 1) 1) |>.insert 4 (forkIndex 4 (some 3) 2)

theorem forkMap_isTree : IsTree forkMap (forkIndex 1 none 0) := by
  have hwork : ∀ k : ℕ, (k + 1 + 1) * getBlockWork 0x207fffff =
      (k + 1) * getBlockWork 0x207fffff + getBlockWork 0x207fffff := fun k => Nat.succ_mul _ _
  have hroot := @isTree_singleton (forkIndex 1 none 0) rfl rfl (Nat.one_mul _)
  have hshort := hroot.insert (p := forkIndex 2 (some 1) 1) (q := forkIndex 1 none 0)
    (by decide) (by decide) rfl rfl (hwork 0)
  have hlong := hshort.insert (p := forkIndex 3 (some 1) 1) (q := forkIndex 1 none 0)
    (by decide) (by decide) rfl rfl (hwork 0)
  exact hlong.insert (p := forkIndex 4 (some 3) 2) (q := forkIndex 3 (some 1) 1)
    (by decide) (by decide) rfl rfl (hwork 1)

/-- A reorganisation from the short branch to the long one. -/
theorem reorganize_findsFork_forkMap :
    ∃ fork : Fork, fork.IsFork forkMap (forkIndex 2 (some 1) 1) (forkIndex 4 (some 3) 2) ∧
      (∀ fork' : Fork, fork'.IsFork forkMap (forkIndex 2 (some 1) 1) (forkIndex 4 (some 3) 2) →
        fork' = fork) ∧
      (∀ nFuel, 1 + 2 < nFuel →
        reorganizeFork forkMap nFuel (forkIndex 2 (some 1) 1) (forkIndex 4 (some 3) 2) =
          some (.ok fork)) ∧
      ∀ nFuel r,
        reorganizeFork forkMap nFuel (forkIndex 2 (some 1) 1) (forkIndex 4 (some 3) 2) ≠
          some (.error r) :=
  reorganize_findsFork forkMap_isTree.hasHeights (by decide) (by decide)

end FoxCoin
