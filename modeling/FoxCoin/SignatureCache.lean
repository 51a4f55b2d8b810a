import FoxCoin.EvalScript
import FoxCoin.Lib.Runs

/-! # The signature cache

`CheckSig` remembers in a set which signatures of which hashes were good for which public keys, so
that they are not verified twice. When the set is larger than `-maxsigcachesize`, entries at random
places are taken out before another one is inserted. The cache changes no answer and stays small. -/

namespace FoxCoin

open Runs

/-! ## Entries -/

/-- `sigdata_type`. -/
structure SigData where
  hash : Uint256
  vchSig : Valtype
  pubKey : Valtype

/-- What entries are compared by: the hash, then the bytes of the signature, then those of the
key. -/
def SigData.key (k : SigData) : ℕ ×ₗ List ℕ ×ₗ List ℕ :=
  toLex (k.hash, toLex (k.vchSig.map UInt8.toNat, k.pubKey.map UInt8.toNat))

theorem SigData.key_injective : Function.Injective SigData.key := by
  intro k k' h
  simp only [key, EmbeddingLike.apply_eq_iff_eq, Prod.mk.injEq] at h
  have hbytes : Function.Injective (List.map UInt8.toNat) :=
    List.map_injective_iff.mpr fun _ _ => UInt8.toNat_inj.mp
  cases k
  cases k'
  rw [SigData.mk.injEq]
  exact ⟨h.1, hbytes h.2.1, hbytes h.2.2⟩

instance : LinearOrder SigData := LinearOrder.lift' SigData.key SigData.key_injective

/-! ## The cache -/

/-- `setValid`. -/
abbrev SigSet := Finset SigData

/-- `set::lower_bound`, or the end. -/
def SigSet.lowerBound (setValid : SigSet) (k : SigData) : WithTop SigData :=
  (setValid.filter (k ≤ ·)).min

/-- `CSignatureCache::Get`. -/
def SigSet.get (setValid : SigSet) (k : SigData) : Bool := decide (k ∈ setValid)

/-- Take out the entry at an iterator. -/
def SigSet.eraseAt (setValid : SigSet) : WithTop SigData → SigSet
  | some it => setValid.erase it
  | none => setValid

/-- One round of the loop of `CSignatureCache::Set`, from the first entry when none comes after the
random hash. -/
def SigSet.evict (setValid : SigSet) (randomHash : Uint256) : SigSet :=
  let it := setValid.lowerBound ⟨randomHash, [], []⟩
  setValid.eraseAt (if it = ⊤ then setValid.min else it)

/-- The loop of `CSignatureCache::Set`. -/
def SigSet.evictLoop (nMaxCacheSize : ℤ) : ℕ → (ℕ → Uint256) → SigSet → SigSet
  | 0, _, setValid => setValid
  | nFuel + 1, randomHash, setValid =>
    if nMaxCacheSize < setValid.card then
      evictLoop nMaxCacheSize nFuel (fun i => randomHash (i + 1)) (setValid.evict (randomHash 0))
    else setValid

/-- `CSignatureCache::Set`, with the value of `-maxsigcachesize` and the random hashes it draws. -/
def SigSet.set (nMaxCacheSize : ℤ) (randomHash : ℕ → Uint256) (setValid : SigSet) (k : SigData) : SigSet :=
  if nMaxCacheSize ≤ 0 then setValid
  else insert k (setValid.evictLoop nMaxCacheSize setValid.card randomHash)

/-- A call of `CheckSig`, with the value of `-maxsigcachesize` and the random hashes at that
time. -/
structure SigCall where
  vchSig : Valtype
  vchPubKey : Valtype
  scriptCode : CScript
  ctx : SigContext
  nMaxCacheSize : ℤ
  randomHash : ℕ → Uint256

variable (env : ScriptEnv)

/-- `CheckSig`: its result, and the cache after it. -/
def checkSigCached (setValid : SigSet) (call : SigCall) : Bool × SigSet :=
  match call.vchSig.getLast? with
  | none => (false, setValid)
  | some back =>
    let back := BitVec.ofNat 32 back.toNat
    let nHashType := if call.ctx.nHashType = 0 then back else call.ctx.nHashType
    if nHashType ≠ back then (false, setValid)
    else
      let sighash := signatureHash env.hash call.scriptCode call.ctx.txTo call.ctx.nIn nHashType
      let k := ⟨sighash, call.vchSig.dropLast, call.vchPubKey⟩
      if setValid.get k then (true, setValid)
      else if !env.verify call.vchPubKey sighash call.vchSig.dropLast then (false, setValid)
      else (true, setValid.set call.nMaxCacheSize call.randomHash k)

/-- The cache of a node, which is empty when it starts. -/
def sigCacheSystem : System SigSet SigCall where
  start := fun setValid => setValid = ∅
  legal := fun _ _ => True
  next := fun setValid call => (checkSigCached env setValid call).2

/-! ## Eviction -/

theorem SigSet.eraseAt_subset (setValid : SigSet) (it : WithTop SigData) :
    setValid.eraseAt it ⊆ setValid := by
  cases it with
  | top => exact Finset.Subset.refl setValid
  | coe k => exact Finset.erase_subset k setValid

theorem SigSet.lowerBound_mem {setValid : SigSet} {k it : SigData}
    (h : setValid.lowerBound k = (it : WithTop SigData)) : it ∈ setValid :=
  (Finset.mem_filter.mp (Finset.mem_of_min h)).1

/-- A round takes out exactly one entry. -/
theorem SigSet.card_evict {setValid : SigSet} (hne : setValid.Nonempty) (randomHash : Uint256) :
    (setValid.evict randomHash).card + 1 = setValid.card := by
  rw [evict]
  cases hit : setValid.lowerBound ⟨randomHash, [], []⟩ with
  | top =>
    obtain ⟨first, hfirst⟩ := Finset.min_of_nonempty hne
    rw [if_pos rfl, hfirst]
    exact Finset.card_erase_add_one (Finset.mem_of_min hfirst)
  | coe it =>
    rw [if_neg (WithTop.coe_ne_top)]
    exact Finset.card_erase_add_one (lowerBound_mem hit)

theorem SigSet.evict_subset (setValid : SigSet) (randomHash : Uint256) :
    setValid.evict randomHash ⊆ setValid := eraseAt_subset setValid _

theorem SigSet.evictLoop_subset (nMaxCacheSize : ℤ) (nFuel : ℕ) (randomHash : ℕ → Uint256)
    (setValid : SigSet) : setValid.evictLoop nMaxCacheSize nFuel randomHash ⊆ setValid := by
  induction nFuel generalizing randomHash setValid with
  | zero => exact Finset.Subset.refl setValid
  | succ nFuel ih =>
    rw [evictLoop]
    split_ifs
    · exact (ih _ _).trans (evict_subset setValid _)
    · exact Finset.Subset.refl setValid

/-- The loop ends: as many rounds as there are entries bring the set down to its limit. -/
theorem SigSet.card_evictLoop {nMaxCacheSize : ℤ} (hmax : 0 ≤ nMaxCacheSize) {nFuel : ℕ}
    (randomHash : ℕ → Uint256) {setValid : SigSet} (hfuel : setValid.card ≤ nFuel) :
    ((setValid.evictLoop nMaxCacheSize nFuel randomHash).card : ℤ) ≤ nMaxCacheSize := by
  induction nFuel generalizing randomHash setValid with
  | zero =>
    rw [evictLoop]
    omega
  | succ nFuel ih =>
    rw [evictLoop]
    split_ifs with hlarge
    · have hne : setValid.Nonempty := Finset.card_pos.mp (by omega)
      have hcard := card_evict hne (randomHash 0)
      exact ih _ (by omega)
    · exact not_lt.mp hlarge

/-! ## Runs -/

/-- Every entry of the cache would be verified again. -/
def SigSet.Verified (setValid : SigSet) : Prop :=
  ∀ k ∈ setValid, env.verify k.pubKey k.hash k.vchSig = true

variable {env}

theorem SigSet.Verified.set {setValid : SigSet} (h : setValid.Verified env) {k : SigData}
    (hk : env.verify k.pubKey k.hash k.vchSig = true) (nMaxCacheSize : ℤ) (randomHash : ℕ → Uint256) :
    (setValid.set nMaxCacheSize randomHash k).Verified env := by
  rw [SigSet.set]
  split_ifs
  · exact h
  · intro k' hk'
    rcases Finset.mem_insert.mp hk' with rfl | hold
    · exact hk
    · exact h k' (evictLoop_subset _ _ _ _ hold)

/-- What a call does: it answers as without the cache, and leaves the cache alone or remembers a
signature that was verified. -/
theorem checkSigCached_cases {setValid : SigSet} (h : setValid.Verified env) (call : SigCall) :
    (checkSigCached env setValid call).1 =
        checkSig env call.ctx call.vchSig call.vchPubKey call.scriptCode ∧
      ((checkSigCached env setValid call).2 = setValid ∨
        ∃ k : SigData, env.verify k.pubKey k.hash k.vchSig = true ∧
          (checkSigCached env setValid call).2 =
            setValid.set call.nMaxCacheSize call.randomHash k) := by
  rw [checkSigCached, checkSig]
  cases call.vchSig.getLast? with
  | none => exact ⟨rfl, .inl rfl⟩
  | some back =>
    simp only
    generalize (if call.ctx.nHashType = 0 then BitVec.ofNat 32 back.toNat else call.ctx.nHashType) =
      nHashType
    by_cases htype : nHashType = BitVec.ofNat 32 back.toNat
    · rw [if_neg (not_not.mpr htype), beq_iff_eq.mpr htype, Bool.true_and]
      generalize signatureHash env.hash call.scriptCode call.ctx.txTo call.ctx.nIn nHashType = sighash
      by_cases hget : setValid.get ⟨sighash, call.vchSig.dropLast, call.vchPubKey⟩ = true
      · rw [if_pos hget]
        -- the key has everything that the verification depends on
        exact ⟨(h _ (of_decide_eq_true hget)).symm, .inl rfl⟩
      · rw [if_neg hget]
        cases hverify : env.verify call.vchPubKey sighash call.vchSig.dropLast with
        | false => exact ⟨rfl, .inl rfl⟩
        | true => exact ⟨rfl, .inr ⟨⟨sighash, call.vchSig.dropLast, call.vchPubKey⟩, hverify, rfl⟩⟩
    · rw [if_pos htype, beq_eq_false_iff_ne.mpr htype]
      exact ⟨rfl, .inl rfl⟩

theorem verified_of_reachable {setValid : SigSet} (h : Reachable (sigCacheSystem env) setValid) :
    setValid.Verified env := by
  refine h.invariant (fun setValid hstart => ?_) fun setValid call hv _ _ => ?_
  · rw [show setValid = ∅ from hstart]
    exact fun k hk => absurd hk (Finset.notMem_empty k)
  · show SigSet.Verified env (checkSigCached env setValid call).2
    rcases (checkSigCached_cases hv call).2 with heq | ⟨k, hk, heq⟩
    · rw [heq]
      exact hv
    · rw [heq]
      exact hv.set hk _ _

/-- An insertion leaves at most one entry more than the limit. -/
theorem SigSet.card_set {nMaxCacheSize : ℤ} {setValid : SigSet}
    (h : (setValid.card : ℤ) ≤ max 0 nMaxCacheSize + 1) (randomHash : ℕ → Uint256) (k : SigData) :
    ((setValid.set nMaxCacheSize randomHash k).card : ℤ) ≤ max 0 nMaxCacheSize + 1 := by
  rw [SigSet.set]
  split_ifs with hmax
  · exact h
  · have hloop := card_evictLoop (not_le.mp hmax).le randomHash (le_refl setValid.card)
    have hinsert := Finset.card_insert_le k
      (setValid.evictLoop nMaxCacheSize setValid.card randomHash)
    omega

/-- With a limit that does not change, the cache is never larger than one more. -/
theorem card_le_of_reaches {nMaxCacheSize : ℤ} {setValid : SigSet}
    (h : Reaches (sigCacheSystem env) (fun _ call => call.nMaxCacheSize = nMaxCacheSize) setValid) :
    (setValid.card : ℤ) ≤ max 0 nMaxCacheSize + 1 := by
  have hboth : setValid.Verified env ∧ (setValid.card : ℤ) ≤ max 0 nMaxCacheSize + 1 := by
    refine h.invariant (I := fun setValid => setValid.Verified env ∧
      (setValid.card : ℤ) ≤ max 0 nMaxCacheSize + 1) (fun setValid hstart => ?_)
      fun setValid call hv _ hlimit => ?_
    · rw [show setValid = ∅ from hstart]
      refine ⟨fun k hk => absurd hk (Finset.notMem_empty k), ?_⟩
      rw [Finset.card_empty]
      omega
    · show SigSet.Verified env (checkSigCached env setValid call).2 ∧
        ((checkSigCached env setValid call).2.card : ℤ) ≤ _
      rcases (checkSigCached_cases hv.1 call).2 with heq | ⟨k, hk, heq⟩
      · rw [heq]
        exact hv
      · rw [heq, hlimit]
        exact ⟨hv.1.set hk _ _, SigSet.card_set hv.2 _ k⟩
  exact hboth.2

/-- **The cache changes no answer**: after any calls, a call answers as it would without the cache,
and the cache has at most one entry more than a limit that was the same for all of them. -/
theorem checkSigCached_eq (env : ScriptEnv) :
    (∀ setValid, Reachable (sigCacheSystem env) setValid → ∀ call,
      (checkSigCached env setValid call).1 =
        checkSig env call.ctx call.vchSig call.vchPubKey call.scriptCode) ∧
    ∀ nMaxCacheSize setValid,
      Reaches (sigCacheSystem env) (fun _ call => call.nMaxCacheSize = nMaxCacheSize) setValid →
      (setValid.card : ℤ) ≤ max 0 nMaxCacheSize + 1 :=
  ⟨fun _ h call => (checkSigCached_cases (verified_of_reachable h) call).1,
    fun _ _ h => card_le_of_reaches h⟩

/-- A signature that is checked twice, with room for one entry. -/
def exampleSigCall : SigCall :=
  ⟨[2, 1], [2], [], ⟨⟨1, [], [], 0⟩, 0, 0⟩, 1, fun _ => 0⟩

/-- The cache after the first check has the signature, and the second check answers from it. -/
theorem checkSigCached_eq_exampleSigCall :
    (checkSigCached exampleScriptEnv ∅ exampleSigCall).2.card = 1 ∧
      (checkSigCached exampleScriptEnv (checkSigCached exampleScriptEnv ∅ exampleSigCall).2
        exampleSigCall).1 = true ∧
      ((checkSigCached exampleScriptEnv ∅ exampleSigCall).2.card : ℤ) ≤ max 0 1 + 1 := by
  have hstart : Reachable (sigCacheSystem exampleScriptEnv) ∅ := .start rfl
  have hstart' : Reaches (sigCacheSystem exampleScriptEnv) (fun _ call => call.nMaxCacheSize = 1) ∅ :=
    .start rfl
  have hnext : Reachable (sigCacheSystem exampleScriptEnv)
      (checkSigCached exampleScriptEnv ∅ exampleSigCall).2 :=
    hstart.next exampleSigCall trivial trivial
  refine ⟨by decide +kernel, ?_, (checkSigCached_eq exampleScriptEnv).2 1 _
    (hstart'.next exampleSigCall trivial rfl)⟩
  rw [(checkSigCached_eq exampleScriptEnv).1 _ hnext]
  decide +kernel

end FoxCoin
