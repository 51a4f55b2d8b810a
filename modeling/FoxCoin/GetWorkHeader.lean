import FoxCoin.GetWorkCache

/-! # The header of a solution

The data that `getwork` hands out are the padded header of the cached block with its words reversed.
A miner changes the time and the nonce in them. What `CheckWork` tests is the block that the merkle
root leads back to, with this time and nonce and the script that was saved; its `nBits` are those
that it has by now. -/

namespace FoxCoin

open Overlay Runs Wire

variable {M : MiningParams}

/-! ## Reversed words -/

theorem byteReverse_length (bytes : List UInt8) : (byteReverse bytes).length = bytes.length := by
  induction bytes using byteReverse.induct with
  | case1 a b c d bytes ih => simp only [byteReverse, List.length_cons, ih]
  | case2 bytes hshort => rw [byteReverse.eq_2 bytes hshort]

/-- Reversing the words twice. -/
theorem byteReverse_byteReverse (bytes : List UInt8) : byteReverse (byteReverse bytes) = bytes := by
  induction bytes using byteReverse.induct with
  | case1 a b c d bytes ih => simp only [byteReverse, ih]
  | case2 bytes hshort => rw [byteReverse.eq_2 bytes hshort, byteReverse.eq_2 bytes hshort]

/-- Whole words are reversed apart from what follows them. -/
theorem byteReverse_append {bytes : List UInt8} (h : 4 ∣ bytes.length) (rest : List UInt8) :
    byteReverse (bytes ++ rest) = byteReverse bytes ++ byteReverse rest := by
  induction bytes using byteReverse.induct with
  | case1 a b c d bytes ih =>
    have hwords : 4 ∣ bytes.length := by
      simp only [List.length_cons] at h
      omega
    simp only [List.cons_append, byteReverse, ih hwords]
  | case2 bytes hshort =>
    rcases bytes with _ | ⟨a, _ | ⟨b, _ | ⟨c, _ | ⟨d, bytes⟩⟩⟩⟩
    · rfl
    · simp at h
    · simp at h
    · simp at h
    · exact absurd rfl (hshort a b c d bytes)

/-! ## What miners send -/

/-- Data that differ at most in the words of the time and of the nonce. -/
structure SameWork (vchData vchData' : List UInt8) : Prop where
  length : vchData'.length = vchData.length
  start : vchData'.take 68 = vchData.take 68
  bits : (vchData'.drop 72).take 4 = (vchData.drop 72).take 4
  rest : vchData'.drop 80 = vchData.drop 80

/-- The parts of a list before, between and after two words. -/
theorem eq_parts (bytes : List UInt8) : bytes = bytes.take 68 ++ ((bytes.drop 68).take 4 ++
    ((bytes.drop 72).take 4 ++ ((bytes.drop 76).take 4 ++ bytes.drop 80))) := by
  have hthird : bytes.drop 76 = (bytes.drop 76).take 4 ++ bytes.drop 80 := by
    rw [← List.drop_drop (i := 4) (j := 76), List.take_append_drop]
  have hsecond : bytes.drop 72 = (bytes.drop 72).take 4 ++ bytes.drop 76 := by
    rw [← List.drop_drop (i := 4) (j := 72), List.take_append_drop]
  have hfirst : bytes.drop 68 = (bytes.drop 68).take 4 ++ bytes.drop 72 := by
    rw [← List.drop_drop (i := 4) (j := 68), List.take_append_drop]
  rw [← hthird, ← hsecond, ← hfirst, List.take_append_drop]

/-- Two headers that differ in the time and the nonce are written with the same other words. -/
theorem CBlockHeader.serialize_parts (header : CBlockHeader) : ∃ start bits : List UInt8,
    start.length = 68 ∧ bits.length = 4 ∧ ∀ nTime nNonce,
      { header with nTime := nTime, nNonce := nNonce }.serialize =
        start ++ (leBytes 4 nTime ++ (bits ++ leBytes 4 nNonce)) := by
  refine ⟨intBytes 4 header.nVersion ++ (leBytes 32 header.hashPrevBlock ++
    leBytes 32 header.hashMerkleRoot), leBytes 4 header.nBits, ?_, leBytes_length 4 _, fun _ _ => ?_⟩
  · simp [intBytes]
  · simp [CBlockHeader.serialize]

/-- The padding of a header. -/
theorem formatHashBlocks_header : ∃ padding : List UInt8, padding.length = 48 ∧
    ∀ header : CBlockHeader, formatHashBlocks header.serialize = header.serialize ++ padding := by
  refine ⟨[0x80] ++ List.replicate 43 0 ++ (leBytes 4 640).reverse, by simp, fun header => ?_⟩
  rw [formatHashBlocks, header.serialize_length]
  rfl

/-- **What the changed data encode**: the header that was handed out, with another time and
nonce. -/
theorem encodedHeader_of_sameWork {header : CBlockHeader} (h : header.Representable)
    {vchData : List UInt8} (hsame : SameWork (byteReverse (formatHashBlocks header.serialize)) vchData) :
    vchData.length = 128 ∧ ∃ nTime nNonce, nTime < 256 ^ 4 ∧ nNonce < 256 ^ 4 ∧
      encodedHeader vchData = some { header with nTime := nTime, nNonce := nNonce } := by
  obtain ⟨start, bits, hstart, hbits, hserialize⟩ := header.serialize_parts
  obtain ⟨padding, hpadding, hformat⟩ := formatHashBlocks_header
  have hwords : byteReverse (formatHashBlocks header.serialize) =
      byteReverse start ++ (byteReverse (leBytes 4 header.nTime) ++ (byteReverse bits ++
        (byteReverse (leBytes 4 header.nNonce) ++ byteReverse padding))) := by
    rw [hformat, show header.serialize = _ from hserialize header.nTime header.nNonce, List.append_assoc,
      List.append_assoc, List.append_assoc, byteReverse_append (by omega),
      byteReverse_append (by simp), byteReverse_append (by omega), byteReverse_append (by simp)]
  have hstart' : vchData.take 68 = byteReverse start := by
    rw [hsame.start, hwords]
    exact List.take_left' (by rw [byteReverse_length, hstart])
  have hbits' : (vchData.drop 72).take 4 = byteReverse bits := by
    rw [hsame.bits, hwords, ← List.append_assoc, List.drop_left' (by simp [byteReverse_length, hstart])]
    exact List.take_left' (by rw [byteReverse_length, hbits])
  have hrest' : vchData.drop 80 = byteReverse padding := by
    rw [hsame.rest, hwords, ← List.append_assoc, ← List.append_assoc, ← List.append_assoc]
    exact List.drop_left' (by simp [byteReverse_length, hstart, hbits])
  have hlength : vchData.length = 128 := by
    rw [hsame.length, byteReverse_length, hformat, List.length_append, header.serialize_length, hpadding]
    rfl
  -- the two words that may have been changed
  have hparts := eq_parts vchData
  rw [hstart', hbits', hrest'] at hparts
  have htime : ((vchData.drop 68).take 4).length = 4 := by simp [hlength]
  have hnonce : ((vchData.drop 76).take 4).length = 4 := by simp [hlength]
  generalize (vchData.drop 68).take 4 = time at htime hparts
  generalize (vchData.drop 76).take 4 = nonce at hnonce hparts
  have htimeBytes := leBytes_ofLeBytes (byteReverse time)
  have hnonceBytes := leBytes_ofLeBytes (byteReverse nonce)
  have htimeLt := ofLeBytes_lt (byteReverse time)
  have hnonceLt := ofLeBytes_lt (byteReverse nonce)
  rw [byteReverse_length, htime] at htimeBytes htimeLt
  rw [byteReverse_length, hnonce] at hnonceBytes hnonceLt
  generalize ofLeBytes (byteReverse time) = nTime at htimeBytes htimeLt
  generalize ofLeBytes (byteReverse nonce) = nNonce at hnonceBytes hnonceLt
  have hbytes : byteReverse vchData =
      { header with nTime := nTime, nNonce := nNonce }.serialize ++ padding := by
    rw [hserialize nTime nNonce, htimeBytes, hnonceBytes, hparts,
      byteReverse_append (by rw [byteReverse_length]; omega), byteReverse_append (by omega),
      byteReverse_append (by rw [byteReverse_length]; omega), byteReverse_append (by omega),
      byteReverse_byteReverse, byteReverse_byteReverse, byteReverse_byteReverse, List.append_assoc,
      List.append_assoc, List.append_assoc]
  have hchanged : CBlockHeader.Representable { header with nTime := nTime, nNonce := nNonce } :=
    ⟨h.nVersion, h.hashPrevBlock, h.hashMerkleRoot, htimeLt, h.nBits, hnonceLt⟩
  refine ⟨hlength, nTime, nNonce, htimeLt, hnonceLt, ?_⟩
  rw [encodedHeader, hbytes, CBlockHeader.reads_read hchanged padding]
  rfl

/-! ## Merkle roots -/

/-- The merkle root depends on the transactions only. -/
theorem CBlock.buildMerkleTree_congr {P : Params} {block block' : CBlock} (h : block.vtx = block'.vtx) :
    block.buildMerkleTree P = block'.buildMerkleTree P := by
  simp only [CBlock.buildMerkleTree, CBlock.vMerkleTree, CBlock.txHashes, h]

/-- A script that is assigned twice. -/
theorem CBlock.setScriptSig_vtx {block block' : CBlock} {scriptSig : CScript}
    (h : block'.vtx = (block.setScriptSig scriptSig).vtx) (scriptSig' : CScript) :
    (block'.setScriptSig scriptSig').vtx = (block.setScriptSig scriptSig').vtx := by
  simp only [CBlock.setScriptSig] at h ⊢
  rw [h]
  cases block.vtx with
  | nil => rfl
  | cons tx vtx =>
    simp only [List.modifyHead_cons]
    cases tx.vin <;> rfl

/-- The hashes of the chain are numbers of 256 bits. -/
structure Params.HashSized (P : Params) : Prop where
  getTxHash : ∀ tx, P.getTxHash tx < 256 ^ 32
  hash : ∀ a b, P.hash a b < 256 ^ 32

theorem lt_of_mem_merkleRow {P : Params} (hP : P.HashSized) {l : List Uint256} {a : Uint256}
    (h : a ∈ merkleRow P l) : a < 256 ^ 32 := by
  induction l using merkleRow.induct with
  | case1 => cases h
  | case2 b =>
    rw [List.mem_singleton.mp h]
    exact hP.hash b b
  | case3 b c l ih =>
    rcases List.mem_cons.mp h with rfl | h
    · exact hP.hash b c
    · exact ih h

theorem lt_of_mem_merkleRows {P : Params} (hP : P.HashSized) {nFuel : ℕ} {l row : List Uint256}
    (hl : ∀ a ∈ l, a < 256 ^ 32) (h : row ∈ merkleRows P nFuel l) : ∀ a ∈ row, a < 256 ^ 32 := by
  induction nFuel generalizing l with
  | zero =>
    rw [List.mem_singleton.mp h]
    exact hl
  | succ nFuel ih =>
    rw [merkleRows] at h
    split_ifs at h
    · rw [List.mem_singleton.mp h]
      exact hl
    · rcases List.mem_cons.mp h with rfl | h
      · exact hl
      · exact ih (fun a ha => lt_of_mem_merkleRow hP ha) h

theorem CBlock.buildMerkleTree_lt {P : Params} (hP : P.HashSized) (block : CBlock) :
    block.buildMerkleTree P < 256 ^ 32 := by
  rw [CBlock.buildMerkleTree, List.getLastD_eq_getLast?]
  cases hlast : (block.vMerkleTree P).getLast? with
  | none => exact pow_pos (by decide) 32
  | some a =>
    obtain ⟨row, hrow, ha⟩ := List.mem_flatten.mp (List.mem_of_getLast? hlast)
    refine lt_of_mem_merkleRows hP (fun b hb => ?_) hrow a ha
    obtain ⟨tx, -, rfl⟩ := List.mem_map.mp hb
    exact hP.getTxHash tx

/-! ## The required work -/

/-- On the main network the required work does not depend on the block. -/
theorem getNextWorkRequired_mainnet {P : Params} (hmain : P.fTestNet = false)
    (pindexLast : List CBlockIndex) (block block' : CBlock) :
    getNextWorkRequired P pindexLast block = getNextWorkRequired P pindexLast block' := by
  simp only [getNextWorkRequired, oldGetNextWorkRequired, hmain, Bool.false_eq_true, if_false]

/-- A block of `getwork`: its version is the current one, and its work fits its type and is on the
main network the one that is required. -/
structure CBlock.Regular (M : MiningParams) (block : CBlock) : Prop where
  nVersion : block.nVersion = CBlock.currentVersion
  nBits : block.nBits < 2 ^ 32
  required : M.P.fTestNet = false → ∃ block' : CBlock,
    block.nBits = getNextWorkRequired M.P (M.walk block.hashPrevBlock) block' % 2 ^ 32

theorem CBlock.regular_createNewBlock (pindexPrev : Uint256) (nAdjustedTime : ℤ) (txout : CTxOut)
    (vtx : List CTransaction) : (createNewBlock M pindexPrev nAdjustedTime txout vtx).Regular M := by
  obtain ⟨hprev, hversion, block', hbits⟩ := createNewBlock_spec M pindexPrev nAdjustedTime txout vtx
  refine ⟨hversion, ?_, fun _ => ⟨block', by rw [hprev, hbits]⟩⟩
  rw [hbits]
  exact Nat.mod_lt _ (by decide)

/-- Two regular blocks on one best block of the main network have the same work. -/
theorem CBlock.Regular.nBits_eq {block block' : CBlock} (h : block.Regular M) (h' : block'.Regular M)
    (hmain : M.P.fTestNet = false) (hprev : block.hashPrevBlock = block'.hashPrevBlock) :
    block.nBits = block'.nBits := by
  obtain ⟨b, hb⟩ := h.required hmain
  obtain ⟨b', hb'⟩ := h'.required hmain
  rw [hb, hb', hprev, getNextWorkRequired_mainnet hmain _ b b']

/-! ## The saved blocks -/

/-- What every call keeps of the cache of `getwork`: its blocks are regular, and a saved block with
the saved script has the merkle root that it is saved under. -/
structure WorkCache.Consistent (M : MiningParams) (c : WorkCache) (pindexPrev : Option Uint256) : Prop where
  lists : c.Lists pindexPrev
  regular : ∀ pblock block, c.heap.lookup pblock = some block → block.Regular M
  roots : ∀ hashMerkleRoot pblock scriptSig block,
    c.mapNewBlock.lookup hashMerkleRoot = some (pblock, scriptSig) →
      c.heap.lookup pblock = some block →
        (block.setScriptSig scriptSig).buildMerkleTree M.P = hashMerkleRoot

/-- The block that a merkle root leads back to. -/
def WorkCache.savedBlock (c : WorkCache) (hashMerkleRoot : Uint256) : Option CBlock :=
  (c.mapNewBlock.lookup hashMerkleRoot).bind fun e => c.heap.lookup e.1

/-- Replacing a block by one that differs in its words and in its script. -/
theorem WorkCache.Consistent.store {c : WorkCache} {pindexPrev : Option Uint256}
    (h : c.Consistent M pindexPrev) {pblock : ℕ} {block : CBlock}
    (hlookup : c.heap.lookup pblock = some block) {block' : CBlock} (scriptSig : CScript)
    (hprev : block'.hashPrevBlock = block.hashPrevBlock) (hregular : block'.Regular M)
    (hvtx : block'.vtx = (block.setScriptSig scriptSig).vtx) :
    ({ c with toBlockCache := c.store pblock block' } : WorkCache).Consistent M pindexPrev := by
  refine ⟨h.lists.store hlookup block' hprev, fun p b hb => ?_, fun root p scriptSig' b hsaved hb => ?_⟩
  · replace hb : (c.heap.insert pblock block').lookup p = some b := hb
    rw [lookup_insert_eq_ite] at hb
    split_ifs at hb with heq
    · obtain rfl := Option.some.inj hb
      exact hregular
    · exact h.regular p b hb
  · replace hb : (c.heap.insert pblock block').lookup p = some b := hb
    rw [lookup_insert_eq_ite] at hb
    split_ifs at hb with heq
    · obtain rfl := Option.some.inj hb
      subst heq
      rw [CBlock.buildMerkleTree_congr (CBlock.setScriptSig_vtx hvtx scriptSig')]
      exact h.roots root p scriptSig' block hsaved hlookup
    · exact h.roots root p scriptSig' b hsaved hb

/-- "Update block" keeps the cache consistent, whatever comes of it, and leaves the saved blocks
alone when the best block has not changed. -/
theorem WorkCache.Consistent.refresh {c : WorkCache} (h : c.Consistent M c.pindexPrev)
    (ctx : RpcContext) {c' : WorkCache}
    (hstate : c.refresh M ctx = .throws c' ∨ c.refresh M ctx = .ok c') :
    c'.Consistent M (some ctx.pindexBest) ∧ c'.pindexPrev = some ctx.pindexBest ∧
      (c.pindexPrev = some ctx.pindexBest → c'.mapNewBlock = c.mapNewBlock) := by
  rw [WorkCache.refresh] at hstate
  split_ifs at hstate with hstale
  · obtain ⟨c₁, hdeallocate, hlists, hsame⟩ := h.lists.deallocate ctx
    rw [hdeallocate] at hstate
    -- the old blocks are either for this tip, or all gone
    have hconsistent : c₁.Consistent M (some ctx.pindexBest) := by
      rcases hsame with ⟨hbest, rfl⟩ | ⟨-, hlist, hmap⟩
      · exact hbest ▸ h
      · have hnone : ∀ pblock block, c₁.heap.lookup pblock ≠ some block := fun pblock block hlookup => by
          have hmem := hlists.owned pblock (Finmap.mem_of_lookup_eq_some hlookup)
          rw [hlist] at hmem
          cases hmem
        exact ⟨hlists, fun pblock block hlookup => absurd hlookup (hnone pblock block),
          fun root pblock scriptSig block _ hlookup => absurd hlookup (hnone pblock block)⟩
    have hmaps : c.pindexPrev = some ctx.pindexBest → c₁.mapNewBlock = c.mapNewBlock := fun hbest => by
      rcases hsame with ⟨-, rfl⟩ | ⟨hne, -⟩
      · rfl
      · exact absurd hbest hne
    rcases renew_cases M ctx c₁ with ⟨pblock, -, -, hrenew⟩ | ⟨txout, vtx, hrenew⟩
    · simp only [hrenew] at hstate
      obtain rfl := CallOutcome.throws.inj (hstate.resolve_right fun heq => by cases heq)
      exact ⟨⟨hconsistent.lists.record ctx pblock, hconsistent.regular, hconsistent.roots⟩, rfl, hmaps⟩
    · simp only [hrenew] at hstate
      obtain rfl := CallOutcome.ok.inj (hstate.resolve_left fun heq => by cases heq)
      refine ⟨⟨hlists.push (createNewBlock_spec M _ _ _ _).1, fun p b hb => ?_,
        fun root p scriptSig b hsaved hb => ?_⟩, rfl, hmaps⟩
      · replace hb : (c₁.heap.insert c₁.nNext _).lookup p = some b := hb
        rw [lookup_insert_eq_ite] at hb
        split_ifs at hb with heq
        · obtain rfl := Option.some.inj hb
          exact CBlock.regular_createNewBlock _ _ _ _
        · exact hconsistent.regular p b hb
      · replace hb : (c₁.heap.insert c₁.nNext _).lookup p = some b := hb
        have hold := hlists.listed p (hlists.saved root p scriptSig hsaved)
        obtain ⟨b₀, hlookup, -⟩ := hold
        -- a saved block is not the new one, whose number has not been used
        have hne : p ≠ c₁.nNext := fun heq => by
          have hlt := hlists.fresh p (Finmap.mem_of_lookup_eq_some hlookup)
          omega
        rw [lookup_insert_eq_ite, if_neg hne] at hb
        exact hconsistent.roots root p scriptSig b hsaved hb
  · obtain rfl := CallOutcome.ok.inj (hstate.resolve_left fun heq => by cases heq)
    have hbest := BlockCache.pindexPrev_of_not_isStale (Bool.eq_false_of_not_eq_true hstale)
    exact ⟨hbest ▸ h, hbest, fun _ => rfl⟩

/-- Handing out a block keeps the cache consistent and the block saved. -/
theorem WorkCache.Consistent.handOut {c c' : WorkCache} {pindexPrev : Option Uint256}
    (h : c.Consistent M pindexPrev) {update : Uint256 → ℤ → CBlock → CBlock}
    (hupdate : Updates M update) {ctx : RpcContext} {hashPrevBlock : Uint256} {block' : CBlock}
    (hout : c.handOut M update ctx hashPrevBlock = some (c', block')) :
    c'.Consistent M pindexPrev ∧ c'.pindexPrev = c.pindexPrev ∧
      (∀ root ∈ c.mapNewBlock, root ∈ c'.mapNewBlock) ∧ block'.hashMerkleRoot ∈ c'.mapNewBlock ∧
      block'.Regular M ∧ pindexPrev = some block'.hashPrevBlock ∧
      block'.hashMerkleRoot = block'.buildMerkleTree M.P ∧ block'.nTime < 2 ^ 32 ∧
      block'.nNonce = 0 := by
  obtain ⟨pblock, block, nTime, nBits, nExtraNonce, scriptSig, htime, hbits, -, hlookup, hblock, rfl⟩ :=
    handOut_eq_some hupdate hout
  have hvtx : block'.vtx = (block.setScriptSig scriptSig).vtx := by rw [hblock]; rfl
  have hprev : block'.hashPrevBlock = block.hashPrevBlock := by rw [hblock]; rfl
  have hroot : block'.hashMerkleRoot = block'.buildMerkleTree M.P := by
    rw [CBlock.buildMerkleTree_congr hvtx, hblock]
    rfl
  have hold := h.regular pblock block hlookup
  have hregular : block'.Regular M := by
    have hversion : block'.nVersion = block.nVersion := by rw [hblock]; rfl
    have hnBits : block'.nBits = nBits := by rw [hblock]; rfl
    refine ⟨hversion.trans hold.nVersion, ?_, fun hmain => ?_⟩
    · rw [hnBits]
      rcases hbits with rfl | ⟨-, hlt⟩
      · exact hold.nBits
      · exact hlt
    · rcases hbits with rfl | ⟨htest, -⟩
      · rw [hnBits, hprev]
        exact hold.required hmain
      · rw [htest] at hmain
        cases hmain
  have hmem := h.lists.owned pblock (Finmap.mem_of_lookup_eq_some hlookup)
  obtain ⟨block₀, hlookup₀, hbest⟩ := h.lists.listed pblock hmem
  obtain rfl := Option.some.inj (hlookup.symm.trans hlookup₀)
  have hstore := h.store hlookup scriptSig hprev hregular hvtx
  refine ⟨⟨hstore.lists.save hmem _ _ _, hstore.regular, ?_⟩, rfl, fun root hmem => ?_, ?_, hregular,
    hprev ▸ hbest, hroot, by rw [hblock]; exact htime, by rw [hblock]; rfl⟩
  · intro root p scriptSig' b hsaved hb
    simp only [lookup_insert_eq_ite] at hsaved
    split_ifs at hsaved with heq
    · -- the root that is saved now is the one of the block that is handed out
      obtain ⟨rfl, rfl⟩ := Prod.mk.inj (Option.some.inj hsaved)
      have hsame : b = block' := by
        replace hb : (c.heap.insert pblock block').lookup pblock = some b := hb
        rw [Finmap.lookup_insert] at hb
        exact (Option.some.inj hb).symm
      rw [heq, hsame, hroot, CBlock.buildMerkleTree_congr (CBlock.setScriptSig_vtx hvtx scriptSig),
        CBlock.buildMerkleTree_congr hvtx]
    · exact hstore.roots root p scriptSig' b hsaved hb
  · exact Finmap.mem_insert.mpr (.inr hmem)
  · exact Finmap.mem_insert.mpr (.inl rfl)

/-- The data of a miner keep the cache consistent and the saved blocks. -/
theorem WorkCache.Consistent.submit {c : WorkCache} {pindexPrev : Option Uint256}
    (h : c.Consistent M pindexPrev) (sizes : ElementSizes) (left : CTransaction)
    (vchData : List UInt8) :
    ((c.submit M sizes [] left vchData).get (c, none)).1.Consistent M pindexPrev ∧
      ((c.submit M sizes [] left vchData).get (c, none)).1.pindexPrev = c.pindexPrev ∧
      ((c.submit M sizes [] left vchData).get (c, none)).1.mapNewBlock = c.mapNewBlock := by
  rw [WorkCache.submit]
  by_cases hsize : vchData.length ≠ 128
  · rw [if_pos hsize]
    exact ⟨h, rfl, rfl⟩
  · rw [if_neg hsize]
    cases encodedHeader vchData with
    | none => exact ⟨h, rfl, rfl⟩
    | some header =>
      simp only
      cases c.mapNewBlock.lookup header.hashMerkleRoot with
      | none => exact ⟨h, rfl, rfl⟩
      | some r =>
        obtain ⟨pblock, scriptSig⟩ := r
        simp only
        cases hlookup : c.heap.lookup pblock with
        | none => exact ⟨h, rfl, rfl⟩
        | some block =>
          have hold := h.regular pblock block hlookup
          exact ⟨h.store hlookup scriptSig rfl ⟨hold.nVersion, hold.nBits, hold.required⟩ rfl, rfl, rfl⟩

/-- What is tested for data with a saved merkle root: the saved block with the time and nonce of the
data. -/
theorem WorkCache.Consistent.exists_submit {c : WorkCache} {pindexPrev : Option Uint256}
    (h : c.Consistent M pindexPrev) (sizes : ElementSizes) (left : CTransaction)
    {vchData : List UInt8} (hsize : vchData.length = 128) {header : CBlockHeader}
    (hheader : encodedHeader vchData = some header) (hmem : header.hashMerkleRoot ∈ c.mapNewBlock) :
    ∃ block block' : CBlock, c.savedBlock header.hashMerkleRoot = some block ∧
      pindexPrev = some block.hashPrevBlock ∧ block.Regular M ∧
      ((c.submit M sizes [] left vchData).get (c, none)).2 = some block' ∧
      block'.toCBlockHeader = { header with
        nVersion := block.nVersion
        hashPrevBlock := block.hashPrevBlock
        nBits := block.nBits } := by
  obtain ⟨⟨pblock, scriptSig⟩, hsaved⟩ := Finmap.mem_iff.mp hmem
  obtain ⟨block, hlookup, hbest⟩ := h.lists.listed pblock (h.lists.saved _ pblock scriptSig hsaved)
  have hroot := h.roots _ pblock scriptSig block hsaved hlookup
  refine ⟨block, CBlock.rebuild M (CBlock.setScriptSig
    { block with nTime := header.nTime, nNonce := header.nNonce } scriptSig), ?_, hbest,
    h.regular pblock block hlookup, ?_, ?_⟩
  · rw [WorkCache.savedBlock, hsaved, Option.bind_some]
    exact hlookup
  · rw [WorkCache.submit, if_neg (not_not.mpr hsize), hheader]
    simp only [hsaved, hlookup]
    rfl
  · have htree : CBlock.buildMerkleTree M.P (CBlock.setScriptSig
        { block with nTime := header.nTime, nNonce := header.nNonce } scriptSig) =
          header.hashMerkleRoot := hroot
    rw [CBlock.rebuild, htree]
    rfl

/-! ## Runs -/

/-- The call finds this best block. -/
def MiningCall.On (pindexBest : Uint256) : MiningCall → Prop
  | .getwork ctx => ctx.pindexBest = pindexBest
  | .getworkex ctx => ctx.pindexBest = pindexBest
  | .getblocktemplate ctx => ctx.pindexBest = pindexBest
  | .getworkSubmit _ => True
  | .getworkexSubmit _ _ _ => True

/-- A call of `getwork` without data keeps the cache consistent; when the best block is the recorded
one, what was saved stays saved. -/
theorem WorkCache.Consistent.request {c : WorkCache} (h : c.Consistent M c.pindexPrev)
    {update : Uint256 → ℤ → CBlock → CBlock} (hupdate : Updates M update) (ctx : RpcContext)
    (hashPrevBlock : Uint256) {r : WorkCache × Option CBlock}
    (hr : (c.request M update ctx hashPrevBlock).get (c, none) = r) :
    r.1.Consistent M r.1.pindexPrev ∧
      (c.pindexPrev = some ctx.pindexBest → r.1.pindexPrev = some ctx.pindexBest ∧
        ∀ root ∈ c.mapNewBlock, root ∈ r.1.mapNewBlock) ∧
      ∀ block, r.2 = some block → r.1.pindexPrev = some ctx.pindexBest ∧
        block.hashMerkleRoot ∈ r.1.mapNewBlock ∧ block.Regular M ∧
        block.hashPrevBlock = ctx.pindexBest ∧ block.hashMerkleRoot = block.buildMerkleTree M.P ∧
        block.nTime < 2 ^ 32 ∧ block.nNonce = 0 := by
  rw [WorkCache.request] at hr
  cases hrefresh : c.refresh M ctx with
  | undefined =>
    rw [hrefresh] at hr
    subst hr
    exact ⟨h, fun hbest => ⟨hbest, fun _ hmem => hmem⟩, fun block hblock => by cases hblock⟩
  | throws c₁ =>
    rw [hrefresh] at hr
    subst hr
    obtain ⟨hconsistent, hprev, hmaps⟩ := h.refresh ctx (.inl hrefresh)
    refine ⟨?_, fun hbest => ⟨hprev, fun root hmem => ?_⟩, fun block hblock => by cases hblock⟩
    · show c₁.Consistent M c₁.pindexPrev
      rw [hprev]
      exact hconsistent
    · show root ∈ c₁.mapNewBlock
      rw [hmaps hbest]
      exact hmem
  | ok c₁ =>
    obtain ⟨hconsistent, hprev, hmaps⟩ := h.refresh ctx (.inr hrefresh)
    simp only [hrefresh] at hr
    cases hout : c₁.handOut M update ctx hashPrevBlock with
    | none =>
      simp only [hout] at hr
      subst hr
      exact ⟨h, fun hbest => ⟨hbest, fun _ hmem => hmem⟩, fun block hblock => by cases hblock⟩
    | some r' =>
      obtain ⟨c₂, block'⟩ := r'
      simp only [hout] at hr
      subst hr
      obtain ⟨hconsistent₂, hprev₂, hkeeps, hmem, hregular, hbest, hroot, htime, hnonce⟩ :=
        hconsistent.handOut hupdate hout
      -- handing out does not touch what the refresh has established
      have hprev' : c₂.pindexPrev = some ctx.pindexBest := hprev₂.trans hprev
      refine ⟨?_, fun hsame => ⟨hprev', fun root hroot => hkeeps root ?_⟩, fun block hblock => ?_⟩
      · show c₂.Consistent M c₂.pindexPrev
        rw [hprev']
        exact hconsistent₂
      · rw [hmaps hsame]
        exact hroot
      · obtain rfl := Option.some.inj hblock
        exact ⟨hprev', hmem, hregular, (Option.some.inj hbest).symm, hroot, htime, hnonce⟩

/-- The cache of `getwork` is consistent in every state. -/
theorem consistent_of_reachable {sizes : ElementSizes} {s : MiningNode}
    (h : Reachable (miningSystem M sizes) s) : s.getwork.Consistent M s.getwork.pindexPrev := by
  refine h.invariant (I := fun s => s.getwork.Consistent M s.getwork.pindexPrev) (fun s hs => ?_)
    fun s call hs _ _ => ?_
  · obtain ⟨hunused, hmap, hlist⟩ := hs.2 s.getwork List.mem_cons_self
    have hnone : ∀ pblock block, s.getwork.heap.lookup pblock ≠ some block := fun pblock block heq => by
      rw [hunused.2.2, Finmap.lookup_empty] at heq
      cases heq
    exact ⟨(WorkCache.kept_of_unused hunused hmap hlist).lists,
      fun pblock block hlookup => absurd hlookup (hnone pblock block),
      fun root pblock scriptSig block _ hlookup => absurd hlookup (hnone pblock block)⟩
  · cases call with
    | getwork ctx => exact (hs.request (updates_updateTime M) ctx s.hashPrevBlock rfl).1
    | getworkSubmit vchData =>
      obtain ⟨hconsistent, hprev, -⟩ := hs.submit sizes ⟨0, [], [], 0⟩ vchData
      show WorkCache.Consistent M ((s.getwork.submit M sizes [] ⟨0, [], [], 0⟩ vchData).get
        (s.getwork, none)).1 _
      exact hprev ▸ hconsistent
    | getworkex ctx => exact hs
    | getworkexSubmit vchData coinbase left => exact hs
    | getblocktemplate ctx => exact hs

/-- The cache of `getwork` is consistent and has a merkle root saved on a best block. -/
structure WorkCache.Remembers (M : MiningParams) (c : WorkCache) (pindexBest hashMerkleRoot : Uint256) :
    Prop where
  consistent : c.Consistent M (some pindexBest)
  pindexPrev : c.pindexPrev = some pindexBest
  mem : hashMerkleRoot ∈ c.mapNewBlock

theorem WorkCache.Remembers.next {s : MiningNode} {pindexBest hashMerkleRoot : Uint256}
    (h : s.getwork.Remembers M pindexBest hashMerkleRoot) (sizes : ElementSizes) {call : MiningCall}
    (hon : call.On pindexBest) :
    (s.next M sizes call).getwork.Remembers M pindexBest hashMerkleRoot := by
  cases call with
  | getwork ctx =>
    obtain rfl : ctx.pindexBest = pindexBest := hon
    have hconsistent : s.getwork.Consistent M s.getwork.pindexPrev := h.pindexPrev ▸ h.consistent
    obtain ⟨hnext, hsame, -⟩ := hconsistent.request (updates_updateTime M) ctx s.hashPrevBlock rfl
    obtain ⟨hprev, hkeeps⟩ := hsame h.pindexPrev
    exact ⟨hprev ▸ hnext, hprev, hkeeps _ h.mem⟩
  | getworkSubmit vchData =>
    obtain ⟨hconsistent, hprev, hmap⟩ := h.consistent.submit sizes ⟨0, [], [], 0⟩ vchData
    exact ⟨hconsistent, hprev.trans h.pindexPrev, (congrArg (hashMerkleRoot ∈ ·) hmap).mpr h.mem⟩
  | getworkex ctx => exact h
  | getworkexSubmit vchData coinbase left => exact h
  | getblocktemplate ctx => exact h

/-- What was saved stays saved while the best block does not change. -/
theorem WorkCache.Remembers.run {sizes : ElementSizes} {pindexBest hashMerkleRoot : Uint256}
    {calls : List MiningCall} {s : MiningNode} (h : s.getwork.Remembers M pindexBest hashMerkleRoot)
    (hcalls : ∀ call ∈ calls, call.On pindexBest) :
    ((miningSystem M sizes).run s calls).getwork.Remembers M pindexBest hashMerkleRoot := by
  induction calls generalizing s with
  | nil => exact h
  | cons call calls ih =>
    exact ih (h.next sizes (hcalls call List.mem_cons_self)) fun call' hcall =>
      hcalls call' (List.mem_cons_of_mem call hcall)

theorem hashSized_exampleMining : exampleMining.P.HashSized :=
  ⟨fun _ => Nat.mod_lt _ (pow_pos (by decide) 32), fun _ _ => Nat.mod_lt _ (pow_pos (by decide) 32)⟩

/-- The first call of `getwork`, ten seconds after the best block. -/
def exampleRequest : RpcContext := exampleRpc 1 1010 exampleNewBlock

/-- The block that it hands out. -/
def exampleWork : CBlock :=
  (idleMiningNode.handedOut exampleMining exampleRequest).getD ⟨⟨0, 0, 0, 0, 0, 0⟩, []⟩

theorem handedOut_exampleRequest :
    idleMiningNode.handedOut exampleMining exampleRequest = some exampleWork := by decide +kernel

end FoxCoin
