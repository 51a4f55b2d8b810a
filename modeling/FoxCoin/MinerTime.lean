import FoxCoin.GetWork
import FoxCoin.ListSinceBlock

/-! # The time of a mined block

A miner gives its block the adjusted time, or the first time after the median of the past. The node
that mined the block checks two more windows when it accepts it: the time may be at most thirty
minutes ahead of the adjusted time, and must be less than thirty minutes before that of the parent.
The adjusted time of a run never goes back. -/

namespace FoxCoin

open Checked Runs

variable {P : Params} {s : NodeState} {t nAdjustedTime : ℤ} {root p q pindexPrev : CBlockIndex}

/-! ## Runs with a clock -/

/-- The clock after an event: that of the environment in which a block was stored or the best chain
was switched. -/
def NodeEvent.clock (t : ℤ) : NodeEvent → ℤ
  | store env _ => env.nAdjustedTime
  | switch env _ _ => env.nAdjustedTime
  | relay .. => t

/-- The node with the adjusted time it last read. -/
def clockedSystem (P : Params) : System (NodeState × ℤ) NodeEvent where
  start st := st.1.Loaded P
  legal st e := st.1.Legal P e
  next st e := (st.1.next P e, e.clock st.2)

/-- The adjusted time does not go back. -/
def NotBack (st : NodeState × ℤ) (e : NodeEvent) : Prop := st.2 ≤ e.clock st.2

/-- A run with a clock is a run. -/
theorem reachable_of_clocked (h : Reaches (clockedSystem P) NotBack (s, t)) :
    Reachable (nodeSystem P) s :=
  h.invariant (I := fun st => Reachable (nodeSystem P) st.1) (fun _ hs => .start hs)
    fun _ e hs hlegal _ => reachable_next hs e hlegal

/-! ## Times of the tree -/

/-- Every block of the tree is at most thirty minutes ahead of a time. Where only the genesis block
is there, whose time is not checked, nothing is known. -/
def NodeState.Timely (s : NodeState) (root : CBlockIndex) (t : ℤ) : Prop :=
  (∀ p : CBlockIndex, p.In s.mapBlockIndex → p = root) ∨
    ∀ p : CBlockIndex, p.In s.mapBlockIndex → p.getBlockTime ≤ t + 30 * 60

theorem NodeState.Timely.mono {t' : ℤ} (h : s.Timely root t) (hle : t ≤ t') : s.Timely root t' :=
  h.imp_right fun hall p hp => (hall p hp).trans (by omega)

theorem NodeState.Timely.of_eq {s' : NodeState} (h : s.Timely root t)
    (hmap : s'.mapBlockIndex = s.mapBlockIndex) : s'.Timely root t := by
  unfold Timely
  rw [hmap]
  exact h

/-- The median of the past of an index is the time of a block on its branch. -/
theorem IsTree.getMedianTimePast_mem {m : StdMap Uint256 CBlockIndex} (ht : IsTree m root)
    (hp : p.In m) : ∃ q : CBlockIndex, q.In m ∧ getMedianTimePast (walkOf m p) = q.getBlockTime := by
  have hwalk : walkOf m p ≠ [] := List.cons_ne_nil _ _
  obtain ⟨q, hq, heq⟩ := FoxCoin.getMedianTimePast_mem hwalk
  exact ⟨q, ht.in_of_mem_walkOf hp q hq, heq⟩

/-- **Storing a block keeps the tree timely.** The first block after the genesis block bounds the
time of the genesis block, since it is later. -/
theorem Storing.timely {env : Env} {block : CBlock} (S : Storing P env s block)
    (htree : IsTree s.mapBlockIndex root) (h : s.Timely root t) (hle : t ≤ env.nAdjustedTime) :
    S.result.Timely root env.nAdjustedTime := by
  have hprev := (S.pindexPrev_in htree).1
  have hnew : S.pindex.getBlockTime ≤ env.nAdjustedTime + 30 * 60 := S.rules.not_future
  refine .inr fun p hp => ?_
  rcases S.of_in_result hp with rfl | hold
  · exact hnew
  rcases h with honly | hall
  · obtain ⟨r, hr, hmedian⟩ := htree.getMedianTimePast_mem hprev
    have hlt := S.rules.median_lt
    rw [NodeState.walkFrom_eq, hmedian, honly r hr] at hlt
    rw [honly p hold]
    exact hlt.le.trans hnew
  · exact (hall p hold).trans (by omega)

/-- Every event keeps the tree timely, if the clock does not go back. -/
theorem NodeState.Timely.next {e : NodeEvent} (hsound : s.Sound P root) (h : s.Timely root t)
    (hlegal : s.Legal P e) (hle : t ≤ e.clock t) : (s.next P e).Timely root (e.clock t) := by
  cases e with
  | store env block =>
    rcases s.acceptBlock_cases P env block with ⟨hstore, -⟩ | ⟨S, hstore, -⟩
    · rw [NodeState.next, hstore]
      exact h.mono hle
    · rw [NodeState.next, hstore]
      exact S.timely hsound.tree h hle
  | switch env block p =>
    refine (h.mono hle).of_eq ?_
    rw [NodeState.next]
    rcases s.setBestChain_cases P env block p with ⟨s', hok, hswitch⟩ | ⟨r, s', herr, hsame⟩
    · rw [hok]
      exact (hswitch.frame hsound.genesis).mapBlockIndex
    · rw [herr]
      exact hsame.mapBlockIndex
  | relay mempool wallets mapOrphanBlocks mapOrphanBlocksByPrev => exact h

/-- The genesis block is alone in the tree that is loaded. -/
theorem Loading.in_result (L : Loading P) (hp : p.In L.result.mapBlockIndex) :
    p = L.pindexGenesis := by
  have hlookup : ((∅ : StdMap Uint256 CBlockIndex).insert L.pindexGenesis.phashBlock
      L.pindexGenesis).lookup p.phashBlock = some p := hp
  rw [Overlay.lookup_insert_eq_ite] at hlookup
  split at hlookup
  · exact (Option.some.inj hlookup).symm
  · rw [Finmap.lookup_empty] at hlookup
    cases hlookup

/-- In a run with a clock the tree is timely. -/
theorem timely_of_clocked (h : Reaches (clockedSystem P) NotBack (s, t)) :
    ∃ root tip, s.Anchored P root tip ∧ s.Timely root t := by
  refine h.invariant (I := fun st => ∃ root tip, st.1.Anchored P root tip ∧ st.1.Timely root st.2)
    (fun st hst => ?_) fun st e hst hlegal hnotBack => ?_
  · obtain ⟨L, hL⟩ := NodeState.Loaded.exists_loading hst
    rw [hL]
    exact ⟨L.pindexGenesis, L.pindexGenesis, L.tipConsistent.anchored L.sound,
      .inl fun p hp => L.in_result hp⟩
  · obtain ⟨root, tip, hanchored, htimely⟩ := hst
    obtain ⟨tip', hnext⟩ := hanchored.next hlegal
    exact ⟨root, tip', hnext, htimely.next hanchored.toSound hlegal hnotBack⟩

/-! ## The mined block -/

/-- The rules of `AcceptBlock` for the time of a block on top of an index. -/
structure NodeState.TimeRules (s : NodeState) (nAdjustedTime : ℤ) (pindexPrev : CBlockIndex)
    (nTime : ℤ) : Prop where
  median_lt : getMedianTimePast (s.walkFrom pindexPrev) < nTime
  not_future : nTime ≤ nAdjustedTime + 30 * 60
  not_past : pindexPrev.getBlockTime - 30 * 60 < nTime

theorem NodeState.BranchRules.timeRules {env : Env} {block : CBlock}
    (h : s.BranchRules P env pindexPrev block) :
    s.TimeRules env.nAdjustedTime pindexPrev block.getBlockTime :=
  ⟨h.median_lt, h.not_future, h.not_past⟩

/-- The node as the miner reads it. -/
def NodeState.mining (P : Params) (sha256Transform : List UInt8 → List UInt8)
    (coinbaseFlags : CScript) (s : NodeState) : MiningParams where
  P := P
  walk hash := (s.mapBlockIndex.lookup hash).elim [] s.walkFrom
  sha256Transform := sha256Transform
  coinbaseFlags := coinbaseFlags

/-- The time that `UpdateTime` works out, before it is stored in an `unsigned int`. -/
def NodeState.minedTime (s : NodeState) (nAdjustedTime : ℤ) (pindexPrev : CBlockIndex) : ℤ :=
  max (getMedianTimePast (s.walkFrom pindexPrev) + 1) nAdjustedTime

/-- The median of the past is not thirty minutes ahead of the adjusted time, and where the parent is
exactly thirty minutes ahead, the median is not behind the adjusted time. A time that does not fit an
`unsigned int` has to meet the rules with its low 32 bits. -/
def NodeState.MinesInTime (s : NodeState) (nAdjustedTime : ℤ) (pindexPrev : CBlockIndex) : Prop :=
  if s.minedTime nAdjustedTime pindexPrev < 2 ^ 32 then
    getMedianTimePast (s.walkFrom pindexPrev) < nAdjustedTime + 30 * 60 ∧
      (pindexPrev.getBlockTime = nAdjustedTime + 30 * 60 →
        nAdjustedTime ≤ getMedianTimePast (s.walkFrom pindexPrev))
  else s.TimeRules nAdjustedTime pindexPrev (s.minedTime nAdjustedTime pindexPrev % 2 ^ 32)

theorem getBlockTime_updateTime {sha256Transform : List UInt8 → List UInt8} {coinbaseFlags : CScript}
    (hp : pindexPrev.In s.mapBlockIndex) (block : CBlock) :
    (block.updateTime (s.mining P sha256Transform coinbaseFlags) pindexPrev.phashBlock
        nAdjustedTime).getBlockTime = s.minedTime nAdjustedTime pindexPrev % 2 ^ 32 := by
  have hwalk : (s.mining P sha256Transform coinbaseFlags).walk pindexPrev.phashBlock =
      s.walkFrom pindexPrev := by
    show (s.mapBlockIndex.lookup pindexPrev.phashBlock).elim [] s.walkFrom = _
    rw [show s.mapBlockIndex.lookup pindexPrev.phashBlock = some pindexPrev from hp]
    rfl
  have htime : ((s.minedTime nAdjustedTime pindexPrev % 2 ^ 32).toNat : ℤ) =
      s.minedTime nAdjustedTime pindexPrev % 2 ^ 32 :=
    Int.toNat_of_nonneg (Int.emod_nonneg _ (by norm_num))
  rw [CBlock.updateTime, hwalk, ← htime]
  split <;> rfl

/-- **The time of a mined block is accepted exactly** where the median and the parent are not at the
end of the window that the miner does not look at. -/
theorem updateTime_timeRules_iff (h : Reaches (clockedSystem P) NotBack (s, t))
    (hp : pindexPrev.In s.mapBlockIndex) (hclock : t ≤ nAdjustedTime)
    (sha256Transform : List UInt8 → List UInt8) (coinbaseFlags : CScript) (block : CBlock) :
    s.TimeRules nAdjustedTime pindexPrev
        (block.updateTime (s.mining P sha256Transform coinbaseFlags) pindexPrev.phashBlock
          nAdjustedTime).getBlockTime ↔
      s.MinesInTime nAdjustedTime pindexPrev := by
  obtain ⟨root, tip, hanchored, htimely⟩ := timely_of_clocked h
  obtain ⟨q, hq, hmedian⟩ := hanchored.tree.getMedianTimePast_mem hp
  rw [← NodeState.walkFrom_eq] at hmedian
  have hqtime : 0 ≤ q.getBlockTime := Int.natCast_nonneg _
  rw [getBlockTime_updateTime hp]
  unfold NodeState.MinesInTime
  split_ifs with hfits
  · have hlow : 0 ≤ s.minedTime nAdjustedTime pindexPrev := by
      unfold NodeState.minedTime
      omega
    rw [Int.emod_eq_of_lt hlow hfits]
    unfold NodeState.minedTime
    -- either the parent is the genesis block and the only block, or its time is bounded
    have hparent : pindexPrev.getBlockTime ≤ nAdjustedTime + 30 * 60 ∨
        pindexPrev.getBlockTime = getMedianTimePast (s.walkFrom pindexPrev) := by
      rcases htimely.mono hclock with honly | hall
      · rw [hmedian, honly q hq, honly pindexPrev hp]
        exact .inr rfl
      · exact .inl (hall pindexPrev hp)
    constructor
    · rintro ⟨-, hfuture, hpast⟩
      exact ⟨by omega, fun hedge => by omega⟩
    · rintro ⟨hbound, hedge⟩
      exact ⟨by omega, by omega, by omega⟩
  · rfl

/-! ## A worked example -/

/-- A block whose time is thirty minutes ahead of the clock of the example. -/
def blockAhead : CBlock :=
  exampleBlock 11 exampleParams.hashGenesisBlock 1400010800 [exampleCoinbase 2 [50]]

/-- The node that has accepted it. -/
def aheadNode : NodeState := (genesisNode []).storeBlock exampleParams exampleEnv blockAhead

theorem reaches_aheadNode :
    Reaches (clockedSystem exampleParams) NotBack (aheadNode, 1400009000) := by
  have hgenesis : (genesisNode []).Loaded exampleParams := loaded_genesisNode (by decide +kernel)
  obtain ⟨u, hu⟩ := exists_of_isOk
    (show (blockAhead.checkBlock exampleParams 1400009000).isOk = true by decide +kernel)
  have hstart : Reaches (clockedSystem exampleParams) NotBack (genesisNode [], 1400009000) :=
    .start hgenesis
  exact hstart.next (.store exampleEnv blockAhead) ⟨_, u, hu⟩ (le_refl (1400009000 : ℤ))

/-- A minute later a block can be mined on top of it. -/
theorem timeRules_aheadNode :
    aheadNode.TimeRules 1400009060 (aheadNode.indexOf 11)
      (blockAhead.updateTime (aheadNode.mining exampleParams id []) (aheadNode.indexOf 11).phashBlock
        1400009060).getBlockTime :=
  (updateTime_timeRules_iff reaches_aheadNode (by decide +kernel) (by norm_num) id [] blockAhead).mpr
    (by
      rw [NodeState.MinesInTime, if_pos (by decide +kernel)]
      exact ⟨by decide +kernel, by decide +kernel⟩)

/-- **A mined block can be too far in the future**: on top of a block that has just been accepted
thirty minutes ahead of the clock, the time after the median is a second beyond the window. -/
theorem not_forall_timeRules : ¬∀ s t, Reaches (clockedSystem exampleParams) NotBack (s, t) →
    ∀ pindexPrev : CBlockIndex, pindexPrev.In s.mapBlockIndex → ∀ nAdjustedTime, t ≤ nAdjustedTime →
      ∀ block : CBlock, s.TimeRules nAdjustedTime pindexPrev
        (block.updateTime (s.mining exampleParams id []) pindexPrev.phashBlock
          nAdjustedTime).getBlockTime := by
  intro hall
  have hrules := hall _ _ reaches_aheadNode (aheadNode.indexOf 11) (by decide +kernel) 1400009000 le_rfl
    blockAhead
  exact absurd hrules.not_future (by decide +kernel)

end FoxCoin
