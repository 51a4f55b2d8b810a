import FoxCoin.GetWork

/-! # The cached blocks

A call that creates a new block records the best block first. As long as no creation fails, the
cached block of each call is there and was built on the recorded one; after a failure the next call
takes the record for true, and follows a pointer that is null or whose block has been deleted. -/

namespace FoxCoin

open Overlay Runs

variable {M : MiningParams}

/-! ## What is claimed of a cache -/

/-- The cached block is there, and was built on the recorded best block. -/
def BlockCache.Built (c : BlockCache) : Prop :=
  ∃ pblock block, c.current = some (pblock, block) ∧ c.pindexPrev = some block.hashPrevBlock

/-- Every block that a call uses is there and was built on the recorded best block: the one that is
handed out, the ones that are deleted, and the ones that miners' data lead back to. -/
structure WorkCache.Sound (M : MiningParams) (c : WorkCache) : Prop where
  defined : ∀ ctx, c.refresh M ctx ≠ .undefined
  built : ∀ ctx c', c.refresh M ctx = .ok c' → c'.toBlockCache.Built
  saved : ∀ hashMerkleRoot pblock scriptSig,
    c.mapNewBlock.lookup hashMerkleRoot = some (pblock, scriptSig) →
      ∃ block, c.heap.lookup pblock = some block ∧ c.pindexPrev = some block.hashPrevBlock

/-- The same for `getblocktemplate`. -/
structure BlockCache.Sound (M : MiningParams) (c : BlockCache) : Prop where
  defined : ∀ ctx, c.refreshTemplate M ctx ≠ .undefined
  built : ∀ ctx c', c.refreshTemplate M ctx = .ok c' → c'.Built

/-- The three caches. -/
structure MiningNode.Sound (M : MiningParams) (s : MiningNode) : Prop where
  getwork : s.getwork.Sound M
  getworkex : s.getworkex.Sound M
  getblocktemplate : s.getblocktemplate.Sound M

/-! ## The condition -/

/-- A block comes of the call of `CreateNewBlock`. -/
def RpcContext.Creates (ctx : RpcContext) : Prop := ∃ txout vtx, ctx.newBlock = .created txout vtx

/-- A call without data either does not call `CreateNewBlock`, or gets a block, or throws when the
best block is the recorded one, so that nothing was deleted. -/
def WorkCache.Succeeds (ctx : RpcContext) (c : WorkCache) : Prop :=
  c.isStale 60 ctx = true →
    ctx.Creates ∨ ctx.newBlock = .throws ∧ c.pindexPrev = some ctx.pindexBest

/-- `getblocktemplate` either does not call `CreateNewBlock` or gets a block. -/
def BlockCache.Succeeds (ctx : RpcContext) (c : BlockCache) : Prop :=
  c.isStale 5 ctx = true → ctx.Creates

/-- The condition on the calls. -/
def MiningCall.Succeeds (s : MiningNode) : MiningCall → Prop
  | .getwork ctx => s.getwork.Succeeds ctx
  | .getworkex ctx => s.getworkex.Succeeds ctx
  | .getblocktemplate ctx => s.getblocktemplate.Succeeds ctx
  | .getworkSubmit _ => True
  | .getworkexSubmit _ _ _ => True

/-! ## Invariants -/

/-- The blocks of the cache of `getwork` or `getworkex` are listed once each and are all there,
built on a best block, and the saved ones are among them. -/
structure WorkCache.Lists (c : WorkCache) (pindexPrev : Option Uint256) : Prop where
  nodup : c.vNewBlock.Nodup
  fresh : ∀ pblock ∈ c.heap, pblock < c.nNext
  owned : ∀ pblock ∈ c.heap, pblock ∈ c.vNewBlock
  listed : ∀ pblock ∈ c.vNewBlock, ∃ block, c.heap.lookup pblock = some block ∧
    pindexPrev = some block.hashPrevBlock
  saved : ∀ hashMerkleRoot pblock scriptSig,
    c.mapNewBlock.lookup hashMerkleRoot = some (pblock, scriptSig) → pblock ∈ c.vNewBlock

/-- What every call keeps of the cache: its blocks are built on the recorded best block, and the
cached one is among them. -/
structure WorkCache.Kept (c : WorkCache) : Prop where
  lists : c.Lists c.pindexPrev
  current : c.pindexPrev ≠ none → ∃ pblock ∈ c.vNewBlock, c.pblock = some pblock

/-- What every call keeps of the cache of `getblocktemplate`. -/
def BlockCache.Kept (c : BlockCache) : Prop :=
  c.pindexPrev = none ∧ c.pblock = none ∨ c.Built

theorem WorkCache.Kept.built {c : WorkCache} (h : c.Kept) (hprev : c.pindexPrev ≠ none) :
    c.toBlockCache.Built := by
  obtain ⟨pblock, hmem, hpblock⟩ := h.current hprev
  obtain ⟨block, hlookup, hbest⟩ := h.lists.listed pblock hmem
  refine ⟨pblock, block, ?_, hbest⟩
  rw [BlockCache.current, hpblock, Option.bind_some, hlookup, Option.map_some]

/-- A cache with another best block needs a new block. -/
theorem BlockCache.isStale_of_ne {nDelay : ℤ} {ctx : RpcContext} {c : BlockCache}
    (h : c.pindexPrev ≠ some ctx.pindexBest) : c.isStale nDelay ctx = true := by
  rw [isStale, decide_eq_true h, Bool.true_or]

/-- A cache that needs no new block has the best block. -/
theorem BlockCache.pindexPrev_of_not_isStale {nDelay : ℤ} {ctx : RpcContext} {c : BlockCache}
    (h : c.isStale nDelay ctx = false) : c.pindexPrev = some ctx.pindexBest := by
  by_contra hne
  rw [isStale_of_ne hne] at h
  cases h

/-! ## Creating blocks -/

/-- Blocks that are listed once each and are there can all be deleted. -/
theorem exists_foldlM_deleteBlock {vNewBlock : List ℕ} {heap : StdMap ℕ CBlock}
    (hnodup : vNewBlock.Nodup) (hmem : ∀ pblock ∈ vNewBlock, pblock ∈ heap) :
    ∃ heap', vNewBlock.foldlM deleteBlock heap = some heap' ∧
      ∀ pblock ∈ heap', pblock ∈ heap ∧ pblock ∉ vNewBlock := by
  induction vNewBlock generalizing heap with
  | nil => exact ⟨heap, rfl, fun _ h => ⟨h, List.not_mem_nil⟩⟩
  | cons pblock vNewBlock ih =>
    obtain ⟨hnot, hnodup'⟩ := List.nodup_cons.mp hnodup
    have hrest : ∀ p ∈ vNewBlock, p ∈ heap.erase pblock := fun p hp =>
      Finmap.mem_erase.mpr ⟨fun heq => hnot (heq ▸ hp), hmem p (List.mem_cons_of_mem pblock hp)⟩
    obtain ⟨heap', hfold, hold⟩ := ih hnodup' hrest
    refine ⟨heap', ?_, fun p hp => ?_⟩
    · rw [List.foldlM_cons, deleteBlock, if_pos (hmem pblock List.mem_cons_self)]
      exact hfold
    · obtain ⟨hleft, hnotRest⟩ := hold p hp
      obtain ⟨hne, hin⟩ := Finmap.mem_erase.mp hleft
      exact ⟨hin, fun hlist => (List.mem_cons.mp hlist).elim hne hnotRest⟩

/-- The deallocation leaves the cache alone when the best block is the recorded one, and leaves
nothing otherwise. -/
theorem WorkCache.Lists.deallocate {c : WorkCache} (h : c.Lists c.pindexPrev) (ctx : RpcContext) :
    ∃ c', c.deallocate ctx = some c' ∧ c'.Lists (some ctx.pindexBest) ∧
      (c.pindexPrev = some ctx.pindexBest ∧ c' = c ∨
        c.pindexPrev ≠ some ctx.pindexBest ∧ c'.vNewBlock = [] ∧ c'.mapNewBlock = ∅) := by
  rw [WorkCache.deallocate]
  split_ifs with hsame
  · have hmem : ∀ pblock ∈ c.vNewBlock, pblock ∈ c.heap := fun pblock hp => by
      obtain ⟨block, hlookup, -⟩ := h.listed pblock hp
      exact Finmap.mem_of_lookup_eq_some hlookup
    obtain ⟨heap', hfold, hold⟩ := exists_foldlM_deleteBlock h.nodup hmem
    have hgone : ∀ pblock, pblock ∉ heap' := fun pblock hp =>
      (hold pblock hp).2 (h.owned pblock (hold pblock hp).1)
    refine ⟨{ c with mapNewBlock := ∅, heap := heap', vNewBlock := [] }, by rw [hfold]; rfl, ?_,
      .inr ⟨hsame, rfl, rfl⟩⟩
    refine ⟨List.nodup_nil, fun pblock hp => absurd hp (hgone pblock),
      fun pblock hp => absurd hp (hgone pblock), fun pblock hp => (by cases hp),
      fun root pblock scriptSig hlookup => ?_⟩
    rw [show (∅ : StdMap Uint256 (ℕ × CScript)).lookup root = none from Finmap.lookup_empty root]
      at hlookup
    cases hlookup
  · have hbest := not_not.mp hsame
    exact ⟨c, rfl, hbest ▸ h, .inl ⟨hbest, rfl⟩⟩

/-- What comes of the call of `CreateNewBlock`. -/
theorem WorkCache.renew_cases (M : MiningParams) (ctx : RpcContext) (c : WorkCache) :
    (∃ pblock, (ctx.newBlock = .null ∨ pblock = c.pblock) ∧ ¬ctx.Creates ∧
        c.renew M ctx = .throws { c with toBlockCache := { c.record ctx with pblock := pblock } }) ∨
      ∃ txout vtx, c.renew M ctx = .ok { c with
        toBlockCache :=
          (c.record ctx).push (createNewBlock M ctx.pindexBest ctx.nTimeCreated txout vtx)
        vNewBlock := c.vNewBlock ++ [c.nNext] } := by
  rw [WorkCache.renew, BlockCache.renew, RpcContext.Creates]
  cases ctx.newBlock with
  | null => exact .inl ⟨none, .inl rfl, by simp, rfl⟩
  | throws => exact .inl ⟨c.pblock, .inr rfl, by simp, rfl⟩
  | created txout vtx => exact .inr ⟨txout, vtx, rfl⟩

/-- The cache with another cached pointer. -/
theorem WorkCache.Lists.record {c : WorkCache} {pindexPrev : Option Uint256} (h : c.Lists pindexPrev)
    (ctx : RpcContext) (pblock : Option ℕ) :
    ({ c with toBlockCache := { c.record ctx with pblock := pblock } } : WorkCache).Lists pindexPrev :=
  ⟨h.nodup, h.fresh, h.owned, h.listed, h.saved⟩

/-- The cache with a new block. -/
theorem WorkCache.Lists.push {c : WorkCache} {ctx : RpcContext} (h : c.Lists (some ctx.pindexBest))
    {block : CBlock} (hprev : block.hashPrevBlock = ctx.pindexBest) :
    ({ c with
        toBlockCache := (c.record ctx).push block
        vNewBlock := c.vNewBlock ++ [c.nNext] } : WorkCache).Lists (some ctx.pindexBest) := by
  have hnot : c.nNext ∉ c.vNewBlock := fun hmem => by
    obtain ⟨block, hlookup, -⟩ := h.listed _ hmem
    exact absurd (h.fresh _ (Finmap.mem_of_lookup_eq_some hlookup)) (lt_irrefl _)
  constructor
  · exact List.nodup_append.mpr ⟨h.nodup, List.nodup_singleton _, fun a ha b hb heq =>
      hnot (List.mem_singleton.mp hb ▸ heq ▸ ha)⟩
  · intro pblock hp
    rcases Finmap.mem_insert.mp hp with rfl | hp
    · exact Nat.lt_succ_self _
    · exact Nat.lt_succ_of_lt (h.fresh pblock hp)
  · intro pblock hp
    rcases Finmap.mem_insert.mp hp with rfl | hp
    · exact List.mem_append_right _ (List.mem_singleton_self _)
    · exact List.mem_append_left _ (h.owned pblock hp)
  · intro pblock hp
    show ∃ block', (c.heap.insert c.nNext block).lookup pblock = some block' ∧ _
    rw [lookup_insert_eq_ite]
    by_cases heq : pblock = c.nNext
    · rw [if_pos heq]
      exact ⟨block, rfl, congrArg some hprev.symm⟩
    · rw [if_neg heq]
      exact h.listed pblock (by simpa [heq] using hp)
  · intro root pblock scriptSig hlookup
    exact List.mem_append_left _ (h.saved root pblock scriptSig hlookup)

/-- "Update block" follows no bad pointer, and what it leaves is kept. -/
theorem WorkCache.Kept.refresh {c : WorkCache} (h : c.Kept) (ctx : RpcContext) :
    c.refresh M ctx ≠ .undefined ∧
      (∀ c', c.refresh M ctx = .ok c' → c'.Kept ∧ c'.pindexPrev ≠ none) ∧
      (c.Succeeds ctx → ∀ c', c.refresh M ctx = .throws c' → c'.Kept) := by
  rw [WorkCache.refresh]
  split_ifs with hstale
  · obtain ⟨c₁, hdeallocate, hlists, hsame⟩ := h.lists.deallocate ctx
    rw [hdeallocate]
    simp only
    rcases renew_cases M ctx c₁ with ⟨pblock, hpblock, hnot, hrenew⟩ | ⟨txout, vtx, hrenew⟩
    · rw [hrenew]
      refine ⟨fun heq => (by cases heq), fun c' hok => (by cases hok), fun hsucceeds c' hthrows => ?_⟩
      obtain rfl := CallOutcome.throws.inj hthrows
      obtain ⟨hnew, hbest⟩ := (hsucceeds hstale).resolve_left hnot
      rcases hsame with ⟨-, rfl⟩ | ⟨hne, -⟩
      · refine ⟨hlists.record ctx pblock, fun _ => ?_⟩
        rcases hpblock with hnull | rfl
        · rw [hnull] at hnew
          cases hnew
        · exact h.current (by rw [hbest]; exact Option.some_ne_none _)
      · exact absurd hbest hne
    · rw [hrenew]
      refine ⟨fun heq => (by cases heq), fun c' hok => ?_, fun _ c' hthrows => (by cases hthrows)⟩
      obtain rfl := CallOutcome.ok.inj hok
      exact ⟨⟨hlists.push (createNewBlock_spec M _ _ _ _).1, fun _ =>
        ⟨c₁.nNext, List.mem_append_right _ (List.mem_singleton_self _), rfl⟩⟩, Option.some_ne_none _⟩
  · refine ⟨fun heq => (by cases heq), fun c' hok => ?_, fun _ c' hthrows => (by cases hthrows)⟩
    obtain rfl := CallOutcome.ok.inj hok
    refine ⟨h, ?_⟩
    rw [BlockCache.pindexPrev_of_not_isStale (Bool.eq_false_of_not_eq_true hstale)]
    exact Option.some_ne_none _

/-- A kept cache is sound. -/
theorem WorkCache.Kept.sound {c : WorkCache} (h : c.Kept) : c.Sound M where
  defined ctx := (h.refresh ctx).1
  built ctx c' hok := ((h.refresh ctx).2.1 c' hok).1.built ((h.refresh ctx).2.1 c' hok).2
  saved root pblock scriptSig hlookup :=
    h.lists.listed pblock (h.lists.saved root pblock scriptSig hlookup)

/-! ## Changing blocks -/

/-- Replacing a block by one that is built on the same best block. -/
theorem WorkCache.Lists.store {c : WorkCache} {pindexPrev : Option Uint256} (h : c.Lists pindexPrev)
    {pblock : ℕ} {block : CBlock} (hlookup : c.heap.lookup pblock = some block) (block' : CBlock)
    (hprev : block'.hashPrevBlock = block.hashPrevBlock) :
    ({ c with toBlockCache := c.store pblock block' } : WorkCache).Lists pindexPrev := by
  have hmem : ∀ p ∈ c.heap.insert pblock block', p ∈ c.heap := fun p hp =>
    (Finmap.mem_insert.mp hp).elim (fun heq => heq ▸ Finmap.mem_of_lookup_eq_some hlookup) id
  refine ⟨h.nodup, fun p hp => h.fresh p (hmem p hp), fun p hp => h.owned p (hmem p hp),
    fun p hp => ?_, h.saved⟩
  obtain ⟨block₀, hlookup₀, hbest⟩ := h.listed p hp
  show ∃ block, (c.heap.insert pblock block').lookup p = some block ∧ _
  rw [lookup_insert_eq_ite]
  by_cases heq : p = pblock
  · subst heq
    obtain rfl := Option.some.inj (hlookup.symm.trans hlookup₀)
    rw [if_pos rfl]
    exact ⟨block', rfl, hprev ▸ hbest⟩
  · rw [if_neg heq]
    exact ⟨block₀, hlookup₀, hbest⟩

/-- Saving a block. -/
theorem WorkCache.Lists.save {c : WorkCache} {pindexPrev : Option Uint256} (h : c.Lists pindexPrev)
    {pblock : ℕ} (hmem : pblock ∈ c.vNewBlock) (hashMerkleRoot : Uint256) (scriptSig : CScript)
    (nExtraNonce : ℕ) : ({ c with
      mapNewBlock := c.mapNewBlock.insert hashMerkleRoot (pblock, scriptSig)
      nExtraNonce := nExtraNonce } : WorkCache).Lists pindexPrev := by
  refine ⟨h.nodup, h.fresh, h.owned, h.listed, fun root p scriptSig' hsaved => ?_⟩
  simp only [lookup_insert_eq_ite] at hsaved
  split_ifs at hsaved with hroot
  · obtain ⟨rfl, -⟩ := Prod.mk.inj (Option.some.inj hsaved)
    exact hmem
  · exact h.saved root p scriptSig' hsaved

theorem BlockCache.lookup_of_current {c : BlockCache} {pblock : ℕ} {block : CBlock}
    (h : c.current = some (pblock, block)) : c.pblock = some pblock ∧ c.heap.lookup pblock = some block := by
  rw [current, Option.bind_eq_some_iff] at h
  obtain ⟨p, hp, hlookup⟩ := h
  obtain ⟨b, hb, heq⟩ := Option.map_eq_some_iff.mp hlookup
  obtain ⟨rfl, rfl⟩ := Prod.mk.inj heq
  exact ⟨hp, hb⟩

/-- What is handed out: the cached block with another time, nonce and coinbase, which is saved. -/
theorem WorkCache.handOut_eq_some {update : Uint256 → ℤ → CBlock → CBlock} (hupdate : Updates M update)
    {ctx : RpcContext} {hashPrevBlock : Uint256} {c c' : WorkCache} {block' : CBlock}
    (h : c.handOut M update ctx hashPrevBlock = some (c', block')) :
    ∃ pblock block nTime nBits nExtraNonce scriptSig, nTime < 2 ^ 32 ∧
      (nBits = block.nBits ∨ M.P.fTestNet = true ∧ nBits < 2 ^ 32) ∧
      c.pblock = some pblock ∧ c.heap.lookup pblock = some block ∧
      block' = (CBlock.setScriptSig { block with nTime := nTime, nBits := nBits, nNonce := 0 }
        scriptSig).rebuild M ∧
      c' = { c with
        toBlockCache := c.store pblock block'
        mapNewBlock := c.mapNewBlock.insert block'.hashMerkleRoot (pblock, scriptSig)
        nExtraNonce := nExtraNonce } := by
  rw [WorkCache.handOut] at h
  cases hcurrent : c.current with
  | none => simp [hcurrent] at h
  | some r =>
    obtain ⟨pblock, block⟩ := r
    cases hprev : c.pindexPrev with
    | none => simp [hcurrent, hprev] at h
    | some pindexPrev =>
      obtain ⟨nTime, nBits, hlt, hbits, heq⟩ := hupdate pindexPrev ctx.nAdjustedTime block
      simp only [hcurrent, hprev, heq, Option.some.injEq, Prod.mk.injEq] at h
      obtain ⟨rfl, rfl⟩ := h
      obtain ⟨hpblock, hlookup⟩ := BlockCache.lookup_of_current hcurrent
      exact ⟨pblock, block, nTime, nBits, _, _, hlt, hbits, hpblock, hlookup, rfl, rfl⟩

/-- A call without data that succeeds keeps its cache. -/
theorem WorkCache.Kept.request {c : WorkCache} (h : c.Kept) {update : Uint256 → ℤ → CBlock → CBlock}
    (hupdate : Updates M update) (ctx : RpcContext) (hashPrevBlock : Uint256) (hsucceeds : c.Succeeds ctx) :
    ((c.request M update ctx hashPrevBlock).get (c, none)).1.Kept := by
  obtain ⟨-, hok, hthrows⟩ := h.refresh (M := M) ctx
  rw [WorkCache.request]
  cases hrefresh : c.refresh M ctx with
  | undefined => exact h
  | throws c₁ => exact hthrows hsucceeds c₁ hrefresh
  | ok c₁ =>
    have hkept := (hok c₁ hrefresh).1
    simp only
    cases hout : c₁.handOut M update ctx hashPrevBlock with
    | none => exact h
    | some r =>
      obtain ⟨c₂, block'⟩ := r
      obtain ⟨pblock, block, nTime, nBits, nExtraNonce, scriptSig, -, -, hpblock, hlookup, hblock, rfl⟩ :=
        handOut_eq_some hupdate hout
      have hmem := hkept.lists.owned pblock (Finmap.mem_of_lookup_eq_some hlookup)
      have hstore := hkept.lists.store hlookup block' (by rw [hblock]; rfl)
      exact ⟨hstore.save hmem _ _ _, hkept.current⟩

/-- What the data of a miner do to a cache: nothing, or a saved block is changed and stays on its
best block. -/
theorem WorkCache.submit_cases (sizes : ElementSizes) (coinbase : List UInt8) (left : CTransaction)
    (vchData : List UInt8) (c : WorkCache) :
    ((c.submit M sizes coinbase left vchData).get (c, none)).1 = c ∨
      ∃ pblock block block', c.heap.lookup pblock = some block ∧
        block'.hashPrevBlock = block.hashPrevBlock ∧
        ((c.submit M sizes coinbase left vchData).get (c, none)).1 =
          { c with toBlockCache := c.store pblock block' } := by
  rw [WorkCache.submit]
  by_cases hsize : vchData.length ≠ 128
  · rw [if_pos hsize]
    exact .inl rfl
  · rw [if_neg hsize]
    cases encodedHeader vchData with
    | none => exact .inl rfl
    | some header =>
      simp only
      cases c.mapNewBlock.lookup header.hashMerkleRoot with
      | none => exact .inl rfl
      | some r =>
        obtain ⟨pblock, scriptSig⟩ := r
        simp only
        cases hlookup : c.heap.lookup pblock with
        | none => exact .inl rfl
        | some block =>
          right
          simp only
          split_ifs
          · refine ⟨pblock, block, _, hlookup, ?_, rfl⟩
            rfl
          · cases CTransaction.read sizes coinbase with
            | none =>
              refine ⟨pblock, block, _, hlookup, ?_, rfl⟩
              rfl
            | some r =>
              refine ⟨pblock, block, _, hlookup, ?_, rfl⟩
              rfl

theorem WorkCache.Kept.submit {c : WorkCache} (h : c.Kept) (sizes : ElementSizes)
    (coinbase : List UInt8) (left : CTransaction) (vchData : List UInt8) :
    ((c.submit M sizes coinbase left vchData).get (c, none)).1.Kept := by
  rcases submit_cases (M := M) sizes coinbase left vchData c with heq | ⟨_, _, _, hlookup, hprev, heq⟩
  · rw [heq]
    exact h
  · rw [heq]
    exact ⟨h.lists.store hlookup _ hprev, h.current⟩

/-! ## The cache of `getblocktemplate` -/

/-- The new block is the cached one. -/
theorem BlockCache.current_push (block : CBlock) (c : BlockCache) :
    (c.push block).current = some (c.nNext, block) := by
  show (some c.nNext).bind _ = _
  rw [Option.bind_some]
  show ((c.heap.insert c.nNext block).lookup c.nNext).map _ = _
  rw [Finmap.lookup_insert, Option.map_some]

/-- A block is there after it was created. -/
theorem BlockCache.renew_ok {c c' : BlockCache} {ctx : RpcContext} (h : c.renew M ctx = .ok c') :
    c'.Built := by
  rw [BlockCache.renew] at h
  cases hnew : ctx.newBlock with
  | null => simp [hnew] at h
  | throws => simp [hnew] at h
  | created txout vtx =>
    simp only [hnew, CallOutcome.ok.injEq] at h
    subst h
    exact ⟨_, _, current_push _ _, congrArg some (createNewBlock_spec M _ _ _ _).1.symm⟩

theorem BlockCache.renew_ne_undefined (c : BlockCache) (ctx : RpcContext) :
    c.renew M ctx ≠ .undefined := by
  rw [BlockCache.renew]
  cases ctx.newBlock <;> exact fun h => (by cases h)

/-- Nothing is thrown when a block is created. -/
theorem BlockCache.renew_ne_throws (c c' : BlockCache) {ctx : RpcContext} (h : ctx.Creates) :
    c.renew M ctx ≠ .throws c' := by
  obtain ⟨txout, vtx, hnew⟩ := h
  rw [BlockCache.renew]
  simp only [hnew]
  exact fun h => (by cases h)

/-- "Update block" follows no bad pointer, and leaves a block that is there. -/
theorem BlockCache.Kept.refreshTemplate {c : BlockCache} (h : c.Kept) (ctx : RpcContext) :
    c.refreshTemplate M ctx ≠ .undefined ∧
      (∀ c', c.refreshTemplate M ctx = .ok c' → c'.Built) ∧
      (c.Succeeds ctx → ∀ c', c.refreshTemplate M ctx ≠ .throws c') := by
  rw [BlockCache.refreshTemplate]
  split_ifs with hstale
  · rcases h with ⟨-, hpblock⟩ | ⟨pblock, block, hcurrent, -⟩
    · simp only [hpblock]
      exact ⟨renew_ne_undefined _ ctx, fun c' hok => renew_ok hok,
        fun hsucceeds c' => renew_ne_throws _ c' (hsucceeds hstale)⟩
    · obtain ⟨hpblock, hlookup⟩ := lookup_of_current hcurrent
      simp only [hpblock, deleteBlock, if_pos (Finmap.mem_of_lookup_eq_some hlookup)]
      exact ⟨renew_ne_undefined _ ctx, fun c' hok => renew_ok hok,
        fun hsucceeds c' => renew_ne_throws _ c' (hsucceeds hstale)⟩
  · refine ⟨fun heq => (by cases heq), fun c' hok => ?_, fun _ c' hthrows => (by cases hthrows)⟩
    obtain rfl := CallOutcome.ok.inj hok
    have hprev := pindexPrev_of_not_isStale (Bool.eq_false_of_not_eq_true hstale)
    rcases h with ⟨hnone, -⟩ | hbuilt
    · rw [hnone] at hprev
      cases hprev
    · exact hbuilt

theorem BlockCache.Kept.sound {c : BlockCache} (h : c.Kept) : c.Sound M where
  defined ctx := (h.refreshTemplate ctx).1
  built ctx := (h.refreshTemplate ctx).2.1

theorem BlockCache.Kept.template {c : BlockCache} (h : c.Kept) (ctx : RpcContext)
    (hsucceeds : c.Succeeds ctx) : ((c.template M ctx).get c).Kept := by
  obtain ⟨-, hok, hthrows⟩ := h.refreshTemplate (M := M) ctx
  rw [BlockCache.template]
  cases hrefresh : c.refreshTemplate M ctx with
  | undefined => exact h
  | throws c₁ => exact absurd hrefresh (hthrows hsucceeds c₁)
  | ok c₁ =>
    obtain ⟨pblock, block, hcurrent, hprev⟩ := hok c₁ hrefresh
    simp only [hcurrent, hprev]
    obtain ⟨nTime, nBits, -, -, heq⟩ :=
      updates_updateTime M block.hashPrevBlock ctx.nAdjustedTime block
    refine .inr ⟨pblock, { block with nTime := nTime, nBits := nBits, nNonce := 0 }, ?_, hprev⟩
    show BlockCache.current (c₁.store pblock _) = _
    rw [heq, BlockCache.current, BlockCache.store, (lookup_of_current hcurrent).1, Option.bind_some,
      Finmap.lookup_insert, Option.map_some]

/-! ## Runs -/

/-- What every call keeps of the three caches. -/
structure MiningNode.Kept (s : MiningNode) : Prop where
  getwork : s.getwork.Kept
  getworkex : s.getworkex.Kept
  getblocktemplate : s.getblocktemplate.Kept

theorem MiningNode.Kept.next {s : MiningNode} (h : s.Kept) (sizes : ElementSizes) {call : MiningCall}
    (hsucceeds : call.Succeeds s) : (s.next M sizes call).Kept := by
  cases call with
  | getwork ctx =>
    exact ⟨h.getwork.request (updates_updateTime M) ctx _ hsucceeds, h.getworkex, h.getblocktemplate⟩
  | getworkSubmit vchData =>
    exact ⟨h.getwork.submit sizes _ _ vchData, h.getworkex, h.getblocktemplate⟩
  | getworkex ctx =>
    exact ⟨h.getwork, h.getworkex.request (updates_updateTimeOnly M) ctx _ hsucceeds, h.getblocktemplate⟩
  | getworkexSubmit vchData coinbase left =>
    exact ⟨h.getwork, h.getworkex.submit sizes coinbase left vchData, h.getblocktemplate⟩
  | getblocktemplate ctx =>
    exact ⟨h.getwork, h.getworkex, h.getblocktemplate.template ctx hsucceeds⟩

/-- A cache that was not used yet is kept. -/
theorem WorkCache.kept_of_unused {c : WorkCache} (hunused : c.toBlockCache.Unused)
    (hmap : c.mapNewBlock = ∅) (hlist : c.vNewBlock = []) : c.Kept := by
  obtain ⟨hprev, -, hheap⟩ := hunused
  have hnone : ∀ pblock, pblock ∉ c.heap := fun pblock hp => by
    rw [hheap] at hp
    exact absurd hp Finmap.notMem_empty
  refine ⟨⟨by rw [hlist]; exact List.nodup_nil, fun pblock hp => absurd hp (hnone pblock),
    fun pblock hp => absurd hp (hnone pblock), fun pblock hp => ?_,
    fun root pblock scriptSig hlookup => ?_⟩, fun hne => absurd hprev hne⟩
  · rw [hlist] at hp
    cases hp
  · rw [hmap, show (∅ : StdMap Uint256 (ℕ × CScript)).lookup root = none from Finmap.lookup_empty root]
      at hlookup
    cases hlookup

/-- **The cached blocks are there**, and were built on the recorded best blocks, in every run in
which no call of `CreateNewBlock` fails in a way that leaves the record without its block. -/
theorem sound_of_reaches {sizes : ElementSizes} {s : MiningNode}
    (h : Reaches (miningSystem M sizes) (fun s call => call.Succeeds s) s) : s.Sound M := by
  have hkept : s.Kept := by
    refine h.invariant (fun s hs => ?_) fun s call hs _ hsucceeds => hs.next sizes hsucceeds
    obtain ⟨⟨hprev, hpblock, -⟩, hunused⟩ := hs
    obtain ⟨hgetwork, hmap, hlist⟩ := hunused s.getwork List.mem_cons_self
    obtain ⟨hgetworkex, hmapex, hlistex⟩ := hunused s.getworkex (by simp)
    exact ⟨WorkCache.kept_of_unused hgetwork hmap hlist,
      WorkCache.kept_of_unused hgetworkex hmapex hlistex, .inl ⟨hprev, hpblock⟩⟩
  exact ⟨hkept.getwork.sound, hkept.getworkex.sound, hkept.getblocktemplate.sound⟩

/-! ## Worked examples -/

/-- A test network for the examples with hashes of 256 bits, where every block is the first of its
chain. -/
def exampleMining : MiningParams where
  P := { exampleParams with
    getTxHash := fun tx => exampleParams.getTxHash tx % 256 ^ 32
    hash := fun a b => (a + b) % 256 ^ 32 }
  walk hash := [⟨hash, none, 0, 0, 0, 0, 1, 0, 1000, 453248203, 0⟩]
  sha256Transform := id
  coinbaseFlags := []

/-- A node that has not been asked for work. -/
def idleMiningNode : MiningNode :=
  ⟨⟨⟨0, none, 0, none, ∅, 0⟩, ∅, [], 0⟩, ⟨⟨0, none, 0, none, ∅, 0⟩, ∅, [], 0⟩, ⟨0, none, 0, none, ∅, 0⟩, 0⟩

/-- The sizes of the examples. -/
def exampleElementSizes : ElementSizes := ⟨⟨1, by decide⟩, ⟨1, by decide⟩, ⟨1, by decide⟩⟩

/-- A call on a best block at a time. -/
def exampleRpc (pindexBest : Uint256) (nTime : ℤ) (newBlock : NewBlock) : RpcContext :=
  ⟨pindexBest, 0, newBlock, nTime, nTime, nTime, nTime⟩

/-- A creation that succeeds. -/
def exampleNewBlock : NewBlock := .created ⟨50, []⟩ []

theorem reachable_idleMiningNode :
    Reachable (miningSystem exampleMining exampleElementSizes) idleMiningNode := by
  refine .start ⟨⟨rfl, rfl, rfl⟩, fun c hc => ?_⟩
  rcases List.mem_pair.mp hc with rfl | rfl <;> exact ⟨⟨rfl, rfl, rfl⟩, rfl, rfl⟩

/-- Work for one best block and then for another one. -/
theorem sound_workTwice :
    ((miningSystem exampleMining exampleElementSizes).run idleMiningNode
      [.getwork (exampleRpc 1 1000 exampleNewBlock),
        .getwork (exampleRpc 2 1010 exampleNewBlock)]).Sound exampleMining := by
  have hstart : Reaches (miningSystem exampleMining exampleElementSizes)
      (fun s call => call.Succeeds s) idleMiningNode := by
    refine .start ⟨⟨rfl, rfl, rfl⟩, fun c hc => ?_⟩
    rcases List.mem_pair.mp hc with rfl | rfl <;> exact ⟨⟨rfl, rfl, rfl⟩, rfl, rfl⟩
  have hcreates : ∀ hash nTime, (exampleRpc hash nTime exampleNewBlock).Creates :=
    fun _ _ => ⟨⟨50, []⟩, [], rfl⟩
  have hfirst := hstart.next (.getwork (exampleRpc 1 1000 exampleNewBlock)) trivial
    fun _ => .inl (hcreates 1 1000)
  exact sound_of_reaches (hfirst.next (.getwork (exampleRpc 2 1010 exampleNewBlock)) trivial
    fun _ => .inl (hcreates 2 1010))

/-- **A deleted block**: the best block changes and `CreateNewBlock` throws, after the old block was
deleted; the next call hands out the old block again. -/
theorem not_forall_sound : ¬∀ s,
    Reachable (miningSystem exampleMining exampleElementSizes) s → s.Sound exampleMining := by
  intro hall
  have hfirst := reachable_idleMiningNode.next (.getwork (exampleRpc 1 1000 exampleNewBlock)) trivial trivial
  have hthrows := hfirst.next (.getwork (exampleRpc 2 1010 .throws)) trivial trivial
  obtain ⟨pblock, block, hcurrent, -⟩ :=
    (hall _ hthrows).getwork.built (exampleRpc 2 1020 exampleNewBlock) _ rfl
  have hgone : ((miningSystem exampleMining exampleElementSizes).run idleMiningNode
      [.getwork (exampleRpc 1 1000 exampleNewBlock),
        .getwork (exampleRpc 2 1010 .throws)]).getwork.current = none := by
    decide +kernel
  exact absurd (hcurrent.symm.trans hgone) (Option.some_ne_none _)

end FoxCoin
