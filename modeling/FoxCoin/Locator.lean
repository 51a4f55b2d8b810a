import FoxCoin.NodeRuns
import Mathlib.Data.Nat.Log

/-! # Block locators

A node tells a peer which blocks it has by a list of hashes of one branch, dense near its tip and
then with steps that double. The peer answers from the first of them that is in its main chain. -/

namespace FoxCoin

open Checked Overlay

variable {P : Params} {s : NodeState} {m : StdMap Uint256 CBlockIndex} {root tip p q : CBlockIndex}

/-! ## Definitions -/

/-- The loop of `CBlockLocator::Set` on the walk from an index: `nSkip` blocks are still to be
stepped over before the next hash is pushed. Steps double after the tenth hash. -/
def CBlockLocator.setLoop : List CBlockIndex → ℕ → ℕ → List Uint256 → List Uint256
  | [], _, _, vHave => vHave
  | _ :: vPrev, nSkip + 1, nStep, vHave => setLoop vPrev nSkip nStep vHave
  | pindex :: vPrev, 0, nStep, vHave =>
    let vHave' := vHave ++ [pindex.phashBlock]
    setLoop vPrev (nStep - 1) (if vHave'.length > 10 then nStep * 2 else nStep) vHave'

/-- `CBlockLocator::Set`: what it leaves in `vHave`. -/
def CBlockLocator.set (P : Params) (walk : List CBlockIndex) : List Uint256 :=
  setLoop walk 0 1 [] ++ [P.hashGenesisBlock]

/-- `CBlockLocator::GetBlockIndex`: the first block of the locator in the main chain. -/
def NodeState.getBlockIndex (s : NodeState) (vHave : List Uint256) : Option CBlockIndex :=
  (vHave.findSome? fun hash => (s.mapBlockIndex.lookup hash).filter s.isInMainChain).or
    s.pindexGenesisBlock

/-- The memory of a node holds a tree whose main chain goes from the genesis block to a tip. -/
structure NodeState.OnChain (P : Params) (s : NodeState) (root tip : CBlockIndex) : Prop where
  tree : IsTree s.mapBlockIndex root
  genesis : s.pindexGenesisBlock = some root
  root_hash : root.phashBlock = P.hashGenesisBlock
  indexed : tip.In s.mapBlockIndex
  pindexBest : s.pindexBest = some tip
  pnext : s.pnext = links (s.walkFrom tip)

/-- A node has the branch of a block of another tree: it has every block of the branch, linked as
there. -/
def NodeState.HasBranch (s : NodeState) (m : StdMap Uint256 CBlockIndex) (p : CBlockIndex) : Prop :=
  ∀ q ∈ walkOf m p, ∃ q', s.mapBlockIndex.lookup q.phashBlock = some q' ∧ q'.pprev = q.pprev

/-! ## The schedule -/

/-- How far below the first block the entry after `n` others lies. -/
def locatorDepth (n : ℕ) : ℕ := if n ≤ 10 then n else 9 + 2 ^ (n - 10)

/-- The step from that entry to the next one. -/
def locatorStep (n : ℕ) : ℕ := 2 ^ (n - 10)

theorem locatorDepth_succ (n : ℕ) : locatorDepth (n + 1) = locatorDepth n + locatorStep n := by
  rcases Nat.lt_trichotomy n 10 with hlt | rfl | hgt
  · rw [locatorDepth, locatorDepth, locatorStep, if_pos (by omega), if_pos (by omega),
      Nat.sub_eq_zero_of_le (by omega), pow_zero]
  · rfl
  · rw [locatorDepth, locatorDepth, locatorStep, if_neg (by omega), if_neg (by omega),
      show n + 1 - 10 = n - 10 + 1 by omega, pow_succ]
    omega

theorem locatorStep_pos (n : ℕ) : 0 < locatorStep n := Nat.two_pow_pos _

/-- The step doubles after the tenth entry. -/
theorem locatorStep_succ (n : ℕ) :
    locatorStep (n + 1) = if n + 1 > 10 then locatorStep n * 2 else locatorStep n := by
  unfold locatorStep
  by_cases hlt : n + 1 > 10
  · rw [if_pos hlt, show n + 1 - 10 = n - 10 + 1 by omega, pow_succ]
  · rw [if_neg hlt, Nat.sub_eq_zero_of_le (by omega), Nat.sub_eq_zero_of_le (by omega)]

theorem strictMono_locatorDepth : StrictMono locatorDepth :=
  strictMono_nat_of_lt_succ fun n => by
    rw [locatorDepth_succ]
    exact Nat.lt_add_of_pos_right (locatorStep_pos n)

/-- **An entry is at most twice as deep as what lies above it**: it is where the previous entry is
above a depth that it is at most the double of that depth. -/
theorem locatorDepth_le {n d : ℕ} (hd : locatorDepth n ≤ d) : locatorDepth (n + 1) ≤ 2 * (d + 1) := by
  rw [locatorDepth_succ]
  unfold locatorDepth at hd ⊢
  unfold locatorStep
  split at hd
  · rw [if_pos ‹_›, Nat.sub_eq_zero_of_le ‹_›, pow_zero]
    omega
  · rw [if_neg ‹_›]
    omega

theorem CBlockLocator.setLoop_skip (walk : List CBlockIndex) (nSkip nStep : ℕ)
    (vHave : List Uint256) :
    setLoop walk nSkip nStep vHave = setLoop (walk.drop nSkip) 0 nStep vHave := by
  induction walk generalizing nSkip with
  | nil => simp [setLoop]
  | cons pindex vPrev ih =>
    cases nSkip with
    | zero => rfl
    | succ nSkip => rw [setLoop, ih, List.drop_succ_cons]

/-- The entries of a locator after the first `n`: the blocks of the walk at their depths, as far as
the walk goes. -/
def locatorEntries (walk : List CBlockIndex) (n k : ℕ) : List CBlockIndex :=
  (List.range' n k).filterMap fun i => walk[locatorDepth i]?

/-- The loop of `Set` pushes the entries of the schedule. The induction is on a number of entries
that is enough to go past the end of the walk. -/
theorem CBlockLocator.setLoop_eq (walk : List CBlockIndex) {n k : ℕ} {vHave : List Uint256}
    (hlen : vHave.length = n) (hk : walk.length ≤ locatorDepth (n + k)) :
    setLoop (walk.drop (locatorDepth n)) 0 (locatorStep n) vHave =
      vHave ++ (locatorEntries walk n k).map CBlockIndex.phashBlock := by
  induction k generalizing n vHave with
  | zero =>
    rw [Nat.add_zero] at hk
    rw [List.drop_of_length_le hk, setLoop]
    simp [locatorEntries]
  | succ k ih =>
    have hrange : List.range' n (k + 1) = n :: List.range' (n + 1) k := rfl
    cases hwalk : walk.drop (locatorDepth n) with
    | nil =>
      have hshort : ∀ i ∈ List.range' n (k + 1), walk[locatorDepth i]? = none := by
        intro i hi
        have hle : locatorDepth n ≤ locatorDepth i :=
          strictMono_locatorDepth.monotone (List.mem_range'_1.mp hi).1
        exact List.getElem?_eq_none ((List.drop_eq_nil_iff.mp hwalk).trans hle)
      rw [setLoop, locatorEntries, List.filterMap_eq_nil_iff.mpr hshort]
      simp
    | cons pindex vPrev =>
      have hget : walk[locatorDepth n]? = some pindex := by
        rw [← List.head?_drop, hwalk]
        rfl
      have hdrop : vPrev.drop (locatorStep n - 1) = walk.drop (locatorDepth (n + 1)) := by
        rw [locatorDepth_succ, ← List.drop_drop, hwalk]
        obtain ⟨step, hstep⟩ := Nat.exists_eq_succ_of_ne_zero (locatorStep_pos n).ne'
        rw [hstep]
        rfl
      have hsize : (vHave ++ [pindex.phashBlock]).length = n + 1 := by simp [hlen]
      simp only [setLoop]
      rw [setLoop_skip, hdrop, hsize, ← locatorStep_succ, ih hsize (by rwa [Nat.add_right_comm n 1 k]),
        locatorEntries, locatorEntries, hrange, List.filterMap_cons, hget]
      simp

/-- **A locator lists the entries of the schedule**, and the genesis block at the end. -/
theorem CBlockLocator.set_eq (P : Params) (walk : List CBlockIndex) {k : ℕ}
    (hk : walk.length ≤ locatorDepth k) : set P walk =
      (locatorEntries walk 0 k).map CBlockIndex.phashBlock ++ [P.hashGenesisBlock] := by
  have hk₀ : walk.length ≤ locatorDepth (0 + k) := by rwa [Nat.zero_add]
  have h := setLoop_eq walk (rfl : ([] : List Uint256).length = 0) hk₀
  rw [set]
  exact congrArg (· ++ [P.hashGenesisBlock]) h

/-- A locator depends on the hashes of the walk only. -/
theorem CBlockLocator.set_congr (P : Params) {walk walk' : List CBlockIndex}
    (h : walk.map CBlockIndex.phashBlock = walk'.map CBlockIndex.phashBlock) :
    set P walk = set P walk' := by
  have hlen : walk.length = walk'.length := by simpa using congrArg List.length h
  have hentries : (locatorEntries walk 0 walk.length).map CBlockIndex.phashBlock =
      (locatorEntries walk' 0 walk.length).map CBlockIndex.phashBlock := by
    rw [locatorEntries, locatorEntries, List.map_filterMap, List.map_filterMap]
    refine congrArg (List.filterMap · _) (funext fun i => ?_)
    rw [← List.getElem?_map, ← List.getElem?_map, h]
  rw [set_eq P walk strictMono_locatorDepth.le_apply, hentries, hlen,
    ← set_eq P walk' strictMono_locatorDepth.le_apply]

/-- A locator has at most twelve entries more than the logarithm of the height. -/
theorem CBlockLocator.length_set (P : Params) {walk : List CBlockIndex} {nHeight : ℕ}
    (hlen : walk.length = nHeight + 1) :
    (set P walk).length ≤ 12 + Nat.log 2 (nHeight + 1) := by
  have hk : walk.length ≤ locatorDepth (11 + Nat.log 2 (nHeight + 1)) := by
    have hlt := Nat.lt_pow_succ_log_self one_lt_two (nHeight + 1)
    rw [locatorDepth, if_neg (by omega), hlen,
      show 11 + Nat.log 2 (nHeight + 1) - 10 = (Nat.log 2 (nHeight + 1)).succ by omega]
    omega
  have hentries := List.length_filterMap_le (fun i => walk[locatorDepth i]?)
    (List.range' 0 (11 + Nat.log 2 (nHeight + 1)))
  rw [List.length_range'] at hentries
  rw [set_eq P walk hk, List.length_append, List.length_map, List.length_singleton, locatorEntries]
  omega

/-! ## The answer of a node -/

/-- A node that has the branch of a block has a walk with the same hashes. -/
theorem NodeState.HasBranch.exists_walk {root₀ : CBlockIndex} (ht : IsTree s.mapBlockIndex root)
    (hm : IsTree m root₀) (hp : p.In m) (h : s.HasBranch m p) :
    ∃ p', p'.In s.mapBlockIndex ∧ p'.phashBlock = p.phashBlock ∧
      (s.walkFrom p').map CBlockIndex.phashBlock = (walkOf m p).map CBlockIndex.phashBlock := by
  refine hm.induction (motive := fun p l =>
    (∀ q ∈ l, ∃ q', s.mapBlockIndex.lookup q.phashBlock = some q' ∧ q'.pprev = q.pprev) →
      ∃ p', p'.In s.mapBlockIndex ∧ p'.phashBlock = p.phashBlock ∧
        (s.walkFrom p').map CBlockIndex.phashBlock = l.map CBlockIndex.phashBlock) ?_ ?_ hp h
  · intro hbranch
    obtain ⟨r, hr, hprev⟩ := hbranch root₀ List.mem_cons_self
    have hhash := ht.hash_eq _ _ hr
    have hrIn : r.In s.mapBlockIndex := by rw [CBlockIndex.In, hhash, hr]
    rw [hm.root_pprev] at hprev
    obtain rfl := ht.root_unique _ _ hr hprev
    refine ⟨r, hrIn, hhash, ?_⟩
    rw [walkFrom_eq, ht.walkOf_root hrIn hprev, List.map_singleton, List.map_singleton, hhash]
  · intro p q _ _ hprev _ _ _ ih hbranch
    obtain ⟨hpHere, hqHere⟩ := List.forall_mem_cons.mp hbranch
    obtain ⟨q', hq', hqhash, hqwalk⟩ := ih hqHere
    obtain ⟨p', hp', hpprev⟩ := hpHere
    have hphash := ht.hash_eq _ _ hp'
    have hpIn : p'.In s.mapBlockIndex := by rw [CBlockIndex.In, hphash, hp']
    refine ⟨p', hpIn, hphash, ?_⟩
    rw [walkFrom_eq, ht.walkOf_prev hpIn hq' (by rw [hpprev, hprev, hqhash]), List.map_cons,
      List.map_cons, hphash, ← hqwalk, walkFrom_eq]

/-- A node has the branches of its own tree. -/
theorem NodeState.hasBranch_self (ht : IsTree s.mapBlockIndex root) (hp : p.In s.mapBlockIndex) :
    s.HasBranch s.mapBlockIndex p :=
  fun q hq => ⟨q, ht.in_of_mem_walkOf hp q hq, rfl⟩

/-- The tip of a node in order ends a main chain. -/
theorem NodeState.TipConsistent.onChain (h : s.Sound P root) (htip : s.TipConsistent tip) :
    s.OnChain P root tip :=
  ⟨h.tree, h.genesis, h.root_hash, htip.indexed, htip.pindexBest, htip.pnext⟩

/-- The main chain of a node is the walk from its tip. -/
theorem NodeState.OnChain.isInMainChain_iff (h : s.OnChain P root tip) (hq : q.In s.mapBlockIndex) :
    s.isInMainChain q = true ↔ q ∈ s.bestWalk :=
  h.tree.isInMainChain_iff h.indexed h.pindexBest h.pnext hq

/-- The genesis block is in the main chain. -/
theorem NodeState.OnChain.root_mem (h : s.OnChain P root tip) : root ∈ s.bestWalk := by
  rw [bestWalk, h.pindexBest]
  exact List.mem_of_getLast? (h.tree.getLast?_walkOf h.indexed)

/-- What lies below a block of the main chain is in the main chain. -/
theorem NodeState.OnChain.mem_of_walkFrom (h : s.OnChain P root tip) (hp : p ∈ s.bestWalk)
    (hq : q ∈ s.walkFrom p) : q ∈ s.bestWalk := by
  rw [bestWalk, h.pindexBest] at hp ⊢
  exact h.tree.mem_walkOf_trans h.indexed hp hq

/-- What the lookup of `GetBlockIndex` finds for the hash of a block of the tree. -/
theorem NodeState.OnChain.find_eq (h : s.OnChain P root tip) (hq : q.In s.mapBlockIndex) :
    (s.mapBlockIndex.lookup q.phashBlock).filter s.isInMainChain =
      if q ∈ s.bestWalk then some q else none := by
  rw [show s.mapBlockIndex.lookup q.phashBlock = some q from hq, Option.filter_some]
  by_cases hmem : q ∈ s.bestWalk
  · rw [if_pos hmem, if_pos ((h.isInMainChain_iff hq).mpr hmem)]
  · rw [if_neg hmem, if_neg (mt (h.isInMainChain_iff hq).mp hmem)]

/-- `GetBlockIndex` on blocks of the tree followed by the genesis block. -/
theorem NodeState.OnChain.getBlockIndex_eq (h : s.OnChain P root tip) {l : List CBlockIndex}
    (hl : ∀ q ∈ l, q.In s.mapBlockIndex) :
    s.getBlockIndex (l.map CBlockIndex.phashBlock ++ [P.hashGenesisBlock]) =
      some ((l.find? fun q => decide (q ∈ s.bestWalk)).getD root) := by
  rw [getBlockIndex]
  induction l with
  | nil =>
    rw [List.map_nil, List.nil_append, List.findSome?_singleton, ← h.root_hash,
      h.find_eq h.tree.root_mem, if_pos h.root_mem]
    rfl
  | cons q l ih =>
    obtain ⟨hq, hrest⟩ := List.forall_mem_cons.mp hl
    rw [List.map_cons, List.cons_append, List.findSome?_cons, h.find_eq hq]
    by_cases hmem : q ∈ s.bestWalk
    · rw [if_pos hmem, List.find?_cons_of_pos (by simpa using hmem)]
      rfl
    · rw [if_neg hmem, List.find?_cons_of_neg (by simpa using hmem)]
      exact ih hrest

/-- What lies on a walk below one of its blocks is on the walk of that block. -/
theorem IsTree.mem_walkOf_of_getElem? (ht : IsTree m root) (hp : p.In m) {r : CBlockIndex} {d e : ℕ}
    (hq : (walkOf m p)[d]? = some q) (hle : d ≤ e) (hr : (walkOf m p)[e]? = some r) :
    r ∈ walkOf m q := by
  obtain ⟨hlt, rfl⟩ := List.getElem?_eq_some_iff.mp hq
  have hsplit : walkOf m p = (walkOf m p).take d ++ (walkOf m p)[d] :: (walkOf m p).drop (d + 1) := by
    rw [← List.drop_eq_getElem_cons hlt, List.take_append_drop]
  rw [ht.walkOf_of_split hp hsplit, ← List.drop_eq_getElem_cons hlt]
  refine List.mem_of_getElem? (i := e - d) ?_
  rw [List.getElem?_drop, Nat.add_sub_cancel' hle, hr]

/-- The first entry of a walk in a main chain, found by its place in the schedule. -/
theorem find?_locatorEntries (walk : List CBlockIndex) (k : ℕ) (p : CBlockIndex → Bool) :
    (locatorEntries walk 0 k).find? p =
      ((List.range k).find? fun i => (walk[locatorDepth i]?).any p).bind fun i =>
        walk[locatorDepth i]? := by
  rw [locatorEntries, ← List.range_eq_range', List.find?_filterMap]

/-- **The answer to a locator** made from a walk of the tree: a block of the walk in the main chain,
at most twice as far down as the highest one, or the genesis block. -/
theorem NodeState.OnChain.getBlockIndex_set (h : s.OnChain P root tip) (hp : p.In s.mapBlockIndex) :
    ∃ r e, s.getBlockIndex (CBlockLocator.set P (s.walkFrom p)) = some r ∧
      (s.walkFrom p)[e]? = some r ∧ r ∈ s.bestWalk ∧
      ∀ (d : ℕ) (pfork : CBlockIndex), (s.walkFrom p)[d]? = some pfork → pfork ∈ s.bestWalk →
        e ≤ 2 * d ∨ r = root := by
  have hlen : (s.walkFrom p).length ≤ locatorDepth (s.walkFrom p).length :=
    strictMono_locatorDepth.le_apply
  have hentries : ∀ q ∈ locatorEntries (s.walkFrom p) 0 (s.walkFrom p).length,
      q.In s.mapBlockIndex := by
    intro q hq
    obtain ⟨i, -, hi⟩ := List.mem_filterMap.mp hq
    exact h.tree.in_of_mem_walkOf hp q (List.mem_of_getElem? hi)
  rw [CBlockLocator.set_eq P _ hlen, h.getBlockIndex_eq hentries, find?_locatorEntries]
  cases hfind : (List.range (s.walkFrom p).length).find? fun i =>
      ((s.walkFrom p)[locatorDepth i]?).any fun q => decide (q ∈ s.bestWalk) with
  | none =>
    -- no entry is in the main chain, and the answer is the genesis block
    have hlast := h.tree.getLast?_walkOf hp
    rw [← walkFrom_eq, List.getLast?_eq_getElem?] at hlast
    exact ⟨root, _, rfl, hlast, h.root_mem, fun _ _ _ _ => .inr rfl⟩
  | some i =>
    obtain ⟨hany, -, hfirst⟩ := List.find?_range_eq_some.mp hfind
    obtain ⟨r, hr, hmem⟩ := (Option.any_eq_true _ _).mp hany
    refine ⟨r, locatorDepth i, by rw [Option.bind_some, hr]; rfl, hr, of_decide_eq_true hmem, ?_⟩
    intro d pfork hfork hbest
    refine .inl ?_
    cases i with
    | zero => exact Nat.zero_le _
    | succ n =>
      have hlt : locatorDepth n < d := by
        -- an earlier entry at or below the fork would have been the answer
        by_contra hge
        have hshort : locatorDepth n < (s.walkFrom p).length :=
          (strictMono_locatorDepth n.lt_succ_self).trans (List.getElem?_eq_some_iff.mp hr).1
        have hbelow : (s.walkFrom p)[locatorDepth n] ∈ s.walkFrom pfork :=
          h.tree.mem_walkOf_of_getElem? hp hfork (not_lt.mp hge) (List.getElem?_eq_getElem hshort)
        have hskip := hfirst n n.lt_succ_self
        rw [List.getElem?_eq_getElem hshort, Option.any_some] at hskip
        simp [h.mem_of_walkFrom hbest hbelow] at hskip
      have hdouble := locatorDepth_le (Nat.le_sub_one_of_lt hlt)
      omega

/-- **A locator leads to a common block.** On a node that has the branch of `p`, the locator of `p`
leads to a block of that branch in the main chain. It lies at most twice as far below `p` as any
common block, or it is the genesis block; and the locator is short. -/
theorem getBlockIndex_locator {root₀ : CBlockIndex} (hm : IsTree m root₀) (hp : p.In m)
    (h : s.OnChain P root tip) (hbranch : s.HasBranch m p) :
    ∃ (p' r : CBlockIndex) (e : ℕ), p'.In s.mapBlockIndex ∧ p'.phashBlock = p.phashBlock ∧
      s.getBlockIndex (CBlockLocator.set P (walkOf m p)) = some r ∧
      (s.walkFrom p')[e]? = some r ∧ r ∈ s.bestWalk ∧ s.isInMainChain r = true ∧
      (∀ (d : ℕ) (pfork : CBlockIndex), (s.walkFrom p')[d]? = some pfork → pfork ∈ s.bestWalk →
        e ≤ 2 * d ∨ r = root) ∧
      (CBlockLocator.set P (walkOf m p)).length ≤ 14 + Nat.log 2 (p.nHeight + 1) := by
  obtain ⟨p', hp', hhash, hwalk⟩ := hbranch.exists_walk h.tree hm hp
  obtain ⟨r, e, hr, he, hbest, hdeep⟩ := h.getBlockIndex_set hp'
  have hrIn := h.tree.in_of_mem_walkOf hp' r (List.mem_of_getElem? he)
  refine ⟨p', r, e, hp', hhash, ?_, he, hbest, (h.isInMainChain_iff hrIn).mpr hbest, hdeep, ?_⟩
  · rwa [← CBlockLocator.set_congr P hwalk]
  · have hlen := CBlockLocator.length_set P (hm.length_walkOf hp)
    omega

/-- A node on another branch finds the genesis block for the locator of a side branch. -/
theorem getBlockIndex_locator_storedNode : ∃ root tip, storedNode.OnChain exampleParams root tip ∧
    ∃ r, storedNode.getBlockIndex (CBlockLocator.set exampleParams
        (walkOf storedNode.mapBlockIndex (storedNode.indexOf 23))) = some r ∧
      r ∈ storedNode.bestWalk := by
  obtain ⟨root, tip, hsound, htip⟩ := inOrder_of_reaches reaches_storedNode
  have hchain := htip.onChain hsound
  have hp : (storedNode.indexOf 23).In storedNode.mapBlockIndex := by decide +kernel
  obtain ⟨p', r, e, -, -, hr, -, hbest, -⟩ := getBlockIndex_locator hchain.tree hp hchain
    (NodeState.hasBranch_self hchain.tree hp)
  exact ⟨root, tip, hchain, r, hr, hbest⟩

end FoxCoin
