import FoxCoin.KeyPoolInvariant
import FoxCoin.Lib.Runs

/-! # The key pool over whole runs

Any number of holders reserve, keep and return keys while the pool is topped up and rebuilt. Indexes
are given out as one more than the largest index of the pool, which a reservation has left; so a run
is safe as long as no index is given out that a holder still carries. -/

namespace FoxCoin

open Runs

/-! ## Definitions -/

/-- A holder, with the public key that its reservation has got from the pool. -/
structure KeyHolder where
  key : CReserveKey
  given : Option Valtype

/-- The wallet, the holders, and the public keys that were handed out from the pool for good. -/
structure KeyPoolState where
  wallet : KeyPoolWallet
  holders : ℕ → KeyHolder
  kept : List Valtype

/-- What happens to the key pool. -/
inductive KeyPoolEvent where
  | newKeyPool (io : KeyPoolIo)
  | topUpKeyPool (io : KeyPoolIo)
  | getKeyFromPool (io : KeyPoolIo) (fAllowReuse : Bool)
  | getReservedKey (io : KeyPoolIo) (holder : ℕ)
  | keepKey (io : KeyPoolIo) (holder : ℕ)
  | returnKey (holder : ℕ)
  | lock
  | unlock

variable (K : KeyPoolParams)

/-- The public key that a holder gets from the pool by `GetReservedKey`. -/
def givenKey (holder : KeyHolder) (out : Except String Valtype × CReserveKey × KeyPoolWallet) :
    Option Valtype :=
  if holder.key.nIndex ≠ -1 then holder.given
  else if out.2.1.nIndex ≠ -1 then out.1.toOption else none

/-- The state after an event. -/
def KeyPoolState.next (s : KeyPoolState) : KeyPoolEvent → KeyPoolState
  | .newKeyPool io => { s with wallet := (s.wallet.newKeyPool K io).2 }
  | .topUpKeyPool io => { s with wallet := (s.wallet.topUpKeyPool K io).2 }
  | .getKeyFromPool io fAllowReuse =>
    let out := s.wallet.getKeyFromPool K io fAllowReuse
    { s with wallet := out.2, kept := pooledKeys out.1 ++ s.kept }
  | .getReservedKey io h =>
    let out := (s.holders h).key.getReservedKey K io s.wallet
    { s with
      wallet := out.2.2
      holders := Function.update s.holders h ⟨out.2.1, givenKey (s.holders h) out⟩ }
  | .keepKey io h =>
    let out := (s.holders h).key.keepKey io s.wallet
    { wallet := out.2
      holders := Function.update s.holders h ⟨out.1, none⟩
      kept := (s.holders h).given.toList ++ s.kept }
  | .returnKey h =>
    let out := (s.holders h).key.returnKey s.wallet
    { s with wallet := out.2, holders := Function.update s.holders h ⟨out.1, none⟩ }
  | .lock => { s with wallet := { s.wallet with fLocked := true } }
  | .unlock => { s with wallet := { s.wallet with fLocked := false } }

/-- A wallet that was loaded: every index has its record, with a key of its own that was generated
before, and nobody holds a key. -/
structure KeyPoolState.Loaded (s : KeyPoolState) : Prop where
  positive : ∀ i ∈ s.wallet.setKeyPool, 1 ≤ i
  recorded : ∀ i ∈ s.wallet.setKeyPool, ∃ n < s.wallet.nGenerated,
    s.wallet.pool.lookup i = some (K.newKey n)
  apart : ∀ i ∈ s.wallet.setKeyPool, ∀ j ∈ s.wallet.setKeyPool,
    s.wallet.pool.lookup i = s.wallet.pool.lookup j → i = j
  holders : s.holders = fun _ => ⟨.new, none⟩
  kept : s.kept = []

/-- The key pool as a system. -/
def keyPoolSystem : System KeyPoolState KeyPoolEvent where
  start := KeyPoolState.Loaded K
  legal _ _ := True
  next := KeyPoolState.next K

/-- **The key pool is safe**: every index of the pool has its record, no two holders carry one
index, and no public key of the pool is held twice or held after it was handed out for good. -/
structure KeyPoolState.Safe (s : KeyPoolState) : Prop where
  recorded : ∀ i ∈ s.wallet.setKeyPool, i ∈ s.wallet.pool
  reserved : ∀ h h', (s.holders h).key.nIndex ≠ -1 →
    (s.holders h).key.nIndex = (s.holders h').key.nIndex → h = h'
  given : ∀ h h' k, (s.holders h).given = some k → (s.holders h').given = some k → h = h'
  kept : s.kept.Nodup
  given_kept : ∀ h k, (s.holders h).given = some k → k ∉ s.kept

/-- The indexes that holders carry. -/
def KeyPoolState.live (s : KeyPoolState) : Set ℤ :=
  {i | i ≠ -1 ∧ ∃ h, (s.holders h).key.nIndex = i}

/-- Topping up gives out no index that a holder carries. -/
def KeyPoolState.SparesTopUp (s : KeyPoolState) (io : KeyPoolIo) : Prop :=
  ∀ k : ℕ, s.wallet.TopsUp K io k → s.wallet.nEnd + k ∉ s.live

/-- **An event spares the reservations**: it gives out no index that a holder carries, and a rebuilt
pool is written to the file. -/
def KeyPoolEvent.Spares (s : KeyPoolState) : KeyPoolEvent → Prop
  | .newKeyPool io => s.wallet.fLocked = false → ∀ k < KeyPoolWallet.nKeys K,
      (∀ j ≤ k, io.addKey (s.wallet.nGenerated + j) = true) →
        io.writePool (k + 1) = true ∧ (k : ℤ) + 1 ∉ s.live
  | .topUpKeyPool io => s.SparesTopUp K io
  | .getKeyFromPool io _ => s.SparesTopUp K io
  | .getReservedKey io h => (s.holders h).key.nIndex = -1 → s.SparesTopUp K io
  | _ => True

/-! ## The invariant of a run -/

/-- The wallet is tidy, no two holders carry one index, and a key that was given is in the record of
the index its holder carries. -/
structure KeyPoolState.Tidy (s : KeyPoolState) : Prop where
  wallet : s.wallet.Tidy K s.live s.kept
  reserved : ∀ h h', (s.holders h).key.nIndex ≠ -1 →
    (s.holders h).key.nIndex = (s.holders h').key.nIndex → h = h'
  given : ∀ h k, (s.holders h).given = some k → (s.holders h).key.nIndex ≠ -1 ∧
    s.wallet.pool.lookup (s.holders h).key.nIndex = some k

variable {K} {io : KeyPoolIo} {s : KeyPoolState}

/-- The index of a holder is carried. -/
theorem KeyPoolState.mem_live {h : ℕ} (hne : (s.holders h).key.nIndex ≠ -1) :
    (s.holders h).key.nIndex ∈ s.live :=
  ⟨hne, h, rfl⟩

/-- A loaded wallet is tidy. -/
theorem KeyPoolState.Loaded.tidy (h : s.Loaded K) : s.Tidy K := by
  have hlive : s.live = ∅ := by
    refine Set.eq_empty_of_forall_notMem ?_
    rintro i ⟨hne, h', rfl⟩
    rw [h.holders] at hne
    exact hne rfl
  constructor
  · rw [hlive, h.kept]
    have hset : ∀ {i : ℤ}, i ∈ s.wallet.setKeyPool ∨ i ∈ (∅ : Set ℤ) → i ∈ s.wallet.setKeyPool :=
      fun hi => hi.resolve_right id
    refine ⟨fun i hi => ⟨h.positive i (hset hi), ?_⟩,
      fun i j hi hj heq => h.apart i (hset hi) j (hset hj) heq, fun i hi => hi.elim,
      List.nodup_nil, fun k hk => absurd hk List.not_mem_nil⟩
    obtain ⟨n, hn, hlookup⟩ := h.recorded i (hset hi)
    exact ⟨n, hn, hlookup, List.not_mem_nil⟩
  · intro h₁ h₂ hne
    rw [h.holders] at hne
    exact absurd rfl hne
  · intro h₁ k hk
    rw [h.holders] at hk
    cases hk

/-- **A tidy state is safe.** -/
theorem KeyPoolState.Tidy.safe (h : s.Tidy K) : s.Safe := by
  have hgiven : ∀ {h₁ k}, (s.holders h₁).given = some k → k ∉ s.kept := by
    intro h₁ k hk
    obtain ⟨hne, hlookup⟩ := h.given h₁ k hk
    obtain ⟨-, n, -, hlookup', hnot⟩ := h.wallet.active _ (.inr (mem_live hne))
    rw [hlookup, Option.some.injEq] at hlookup'
    rwa [hlookup']
  refine ⟨fun i hi => ?_, h.reserved, fun h₁ h₂ k hk₁ hk₂ => ?_, h.wallet.nodup,
    fun h₁ k hk => hgiven hk⟩
  · obtain ⟨-, n, -, hlookup, -⟩ := h.wallet.active i (.inl hi)
    exact Finmap.mem_of_lookup_eq_some hlookup
  · obtain ⟨hne₁, hlookup₁⟩ := h.given h₁ k hk₁
    obtain ⟨hne₂, hlookup₂⟩ := h.given h₂ k hk₂
    exact h.reserved h₁ h₂ hne₁ (h.wallet.apart _ _ (.inr (mem_live hne₁)) (.inr (mem_live hne₂))
      (hlookup₁.trans hlookup₂.symm))

/-- An operation of the wallet that leaves the records that holders carry. -/
theorem KeyPoolState.Tidy.of_leaves (h : s.Tidy K) {s' : KeyPoolState}
    (htidy : s'.wallet.Tidy K s.live s'.kept) (hleaves : s.wallet.Leaves s.live s'.wallet)
    (hholders : s'.holders = s.holders) : s'.Tidy K := by
  have hlive : s'.live = s.live := by rw [live, live, hholders]
  refine ⟨hlive ▸ htidy, hholders ▸ h.reserved, fun h₁ k hk => ?_⟩
  rw [hholders] at hk ⊢
  obtain ⟨hne, hlookup⟩ := h.given h₁ k hk
  exact ⟨hne, (hleaves _ (mem_live hne)).trans hlookup⟩

section Update

variable {s' : KeyPoolState} {holder : KeyHolder} {h₁ h₂ : ℕ}

theorem KeyPoolState.holders_self (hs : s'.holders = Function.update s.holders h₁ holder) :
    s'.holders h₁ = holder := by
  rw [hs, Function.update_self]

theorem KeyPoolState.holders_of_ne (hs : s'.holders = Function.update s.holders h₁ holder)
    (hne : h₂ ≠ h₁) : s'.holders h₂ = s.holders h₂ := by
  rw [hs, Function.update_of_ne hne]

/-- A holder gives its index up, or carries none. -/
theorem KeyPoolState.Tidy.release (h : s.Tidy K)
    (hs : s'.holders = Function.update s.holders h₁ holder) (hindex : holder.key.nIndex = -1)
    (hgiven : holder.given = none)
    (htidy : s'.wallet.Tidy K (s.live \ {(s.holders h₁).key.nIndex}) s'.kept)
    (hleaves : s.wallet.Leaves (s.live \ {(s.holders h₁).key.nIndex}) s'.wallet) : s'.Tidy K := by
  have hother : ∀ {h₂}, h₂ ≠ h₁ → s'.holders h₂ = s.holders h₂ := holders_of_ne hs
  have hne₁ : ∀ {h₂}, (s'.holders h₂).key.nIndex ≠ -1 → h₂ ≠ h₁ := by
    rintro h₂ hne rfl
    rw [holders_self hs] at hne
    exact hne hindex
  have hapart : ∀ {h₂}, h₂ ≠ h₁ → (s.holders h₂).key.nIndex ≠ -1 →
      (s.holders h₂).key.nIndex ∈ s.live \ {(s.holders h₁).key.nIndex} :=
    fun hne hindex => ⟨mem_live hindex, fun heq => hne (h.reserved _ _ hindex heq)⟩
  have hlive : s'.live = s.live \ {(s.holders h₁).key.nIndex} := by
    ext i
    constructor
    · rintro ⟨hi, h₂, rfl⟩
      have hne := hne₁ hi
      rw [hother hne] at hi ⊢
      exact hapart hne hi
    · rintro ⟨⟨hi, h₂, rfl⟩, hdiff⟩
      have hne : h₂ ≠ h₁ := by
        rintro rfl
        exact hdiff rfl
      exact ⟨hi, h₂, by rw [hother hne]⟩
  refine ⟨by rw [hlive]; exact htidy, fun h₂ h₃ hi heq => ?_, fun h₂ k hk => ?_⟩
  · have hne₂ := hne₁ hi
    have hne₃ := hne₁ (heq ▸ hi)
    rw [hother hne₂] at hi heq
    rw [hother hne₃] at heq
    exact h.reserved h₂ h₃ hi heq
  · have hne : h₂ ≠ h₁ := by
      rintro rfl
      rw [holders_self hs, hgiven] at hk
      cases hk
    rw [hother hne] at hk ⊢
    obtain ⟨hi, hlookup⟩ := h.given h₂ k hk
    exact ⟨hi, (hleaves _ (hapart hne hi)).trans hlookup⟩

/-- A holder takes an index that nobody carries. -/
theorem KeyPoolState.Tidy.acquire (h : s.Tidy K)
    (hs : s'.holders = Function.update s.holders h₁ holder)
    (hnone : (s.holders h₁).key.nIndex = -1) (hindex : holder.key.nIndex ≠ -1)
    (hnot : holder.key.nIndex ∉ s.live)
    (htidy : s'.wallet.Tidy K (insert holder.key.nIndex s.live) s'.kept)
    (hleaves : s.wallet.Leaves s.live s'.wallet)
    (hgiven : ∀ k, holder.given = some k →
      s'.wallet.pool.lookup holder.key.nIndex = some k) : s'.Tidy K := by
  have hother : ∀ {h₂}, h₂ ≠ h₁ → s'.holders h₂ = s.holders h₂ := holders_of_ne hs
  have hlive : s'.live = insert holder.key.nIndex s.live := by
    ext i
    constructor
    · rintro ⟨hi, h₂, rfl⟩
      by_cases hne : h₂ = h₁
      · rw [hne, holders_self hs]
        exact .inl rfl
      · rw [hother hne] at hi ⊢
        exact .inr (mem_live hi)
    · rintro (rfl | ⟨hi, h₂, rfl⟩)
      · exact ⟨hindex, h₁, by rw [holders_self hs]⟩
      · have hne : h₂ ≠ h₁ := by
          rintro rfl
          exact hi hnone
        exact ⟨hi, h₂, by rw [hother hne]⟩
  refine ⟨by rw [hlive]; exact htidy, fun h₂ h₃ hi heq => ?_, fun h₂ k hk => ?_⟩
  · by_cases hne₂ : h₂ = h₁ <;> by_cases hne₃ : h₃ = h₁
    · rw [hne₂, hne₃]
    · rw [hne₂, holders_self hs] at hi heq
      rw [hother hne₃] at heq
      exact absurd (heq ▸ mem_live (heq ▸ hi)) hnot
    · rw [hother hne₂] at hi heq
      rw [hne₃, holders_self hs] at heq
      exact absurd (heq ▸ mem_live hi) hnot
    · rw [hother hne₂] at hi heq
      rw [hother hne₃] at heq
      exact h.reserved h₂ h₃ hi heq
  · by_cases hne : h₂ = h₁
    · rw [hne, holders_self hs] at hk ⊢
      exact ⟨hindex, hgiven k hk⟩
    · rw [hother hne] at hk ⊢
      obtain ⟨hi, hlookup⟩ := h.given h₂ k hk
      exact ⟨hi, (hleaves _ (mem_live hi)).trans hlookup⟩

end Update

/-- A holder that carries no index gives nothing up. -/
theorem KeyPoolState.diff_of_none {h₁ : ℕ} (hnone : (s.holders h₁).key.nIndex = -1) :
    s.live \ {(s.holders h₁).key.nIndex} = s.live := by
  rw [hnone]
  exact Set.sdiff_singleton_eq_self fun hmem => hmem.1 rfl

/-- `GetReservedKey` keeps a state tidy. -/
theorem KeyPoolState.Tidy.getReservedKey (hnew : Function.Injective K.newKey) (h : s.Tidy K)
    (h₁ : ℕ) (hspares : (s.holders h₁).key.nIndex = -1 → s.SparesTopUp K io) :
    (s.next K (.getReservedKey io h₁)).Tidy K := by
  by_cases hnone : (s.holders h₁).key.nIndex = -1
  · have hlive := diff_of_none hnone
    obtain ⟨w', hleaves, ⟨r, hout, htidy⟩ | ⟨i, r, vch, hout, hpos, hnot, htidy, hok⟩⟩ :=
      h.wallet.reserveKeyFromKeyPool hnew (hspares hnone)
    · -- the pool is empty, or topping it up has failed
      have hget : ∃ r' vch, (s.holders h₁).key.getReservedKey K io s.wallet =
          (r', ⟨-1, vch⟩, w') := by
        rw [CReserveKey.getReservedKey, if_pos hnone, hout]
        cases r <;> exact ⟨_, _, rfl⟩
      obtain ⟨r', vch, hget⟩ := hget
      have hs : (s.next K (.getReservedKey io h₁)).holders =
          Function.update s.holders h₁ ⟨⟨-1, vch⟩, none⟩ := by
        simp [KeyPoolState.next, hget, givenKey, hnone]
      refine h.release hs rfl rfl ?_ ?_
      · rw [hlive]
        simpa only [KeyPoolState.next, hget] using htidy
      · rw [hlive]
        simpa only [KeyPoolState.next, hget] using hleaves
    · have hne : i ≠ -1 := by omega
      have hget : ∃ r' vch', (s.holders h₁).key.getReservedKey K io s.wallet =
          (r', ⟨i, vch'⟩, w') ∧ ∀ k, r' = .ok k → w'.pool.lookup i = some k := by
        rw [CReserveKey.getReservedKey, if_pos hnone, hout]
        cases r with
        | error e => exact ⟨_, _, rfl, by rintro k ⟨⟩⟩
        | ok u =>
          obtain ⟨hlookup, hvalid⟩ := hok u rfl
          simp only [ne_eq, hne, not_false_eq_true, if_true, hvalid]
          refine ⟨_, _, rfl, ?_⟩
          rintro k ⟨⟩
          exact hlookup
      obtain ⟨r', vch', hget, hgiven⟩ := hget
      have hs : (s.next K (.getReservedKey io h₁)).holders =
          Function.update s.holders h₁ ⟨⟨i, vch'⟩, r'.toOption⟩ := by
        simp [KeyPoolState.next, hget, givenKey, hnone, hne]
      refine h.acquire hs hnone hne hnot ?_ ?_ ?_
      · simpa only [KeyPoolState.next, hget] using htidy
      · simpa only [KeyPoolState.next, hget] using hleaves
      · intro k hk
        simp only [KeyPoolState.next, hget]
        cases r' with
        | error e => cases hk
        | ok k' => exact hgiven k (congrArg _ (Option.some.inj hk))
  · -- the holder has its key already
    have hget : ((s.holders h₁).key.getReservedKey K io s.wallet).2 =
        ((s.holders h₁).key, s.wallet) := by
      rw [CReserveKey.getReservedKey, if_neg hnone]
    have hsame : s.next K (.getReservedKey io h₁) = s := by
      simp [KeyPoolState.next, hget, givenKey, hnone]
    rwa [hsame]

/-- `KeepKey` keeps a state tidy. -/
theorem KeyPoolState.Tidy.keepKey (h : s.Tidy K) (h₁ : ℕ) : (s.next K (.keepKey io h₁)).Tidy K := by
  have hs : (s.next K (.keepKey io h₁)).holders = Function.update s.holders h₁ ⟨.new, none⟩ := rfl
  by_cases hnone : (s.holders h₁).key.nIndex = -1
  · have hgiven : (s.holders h₁).given = none := by
      rw [Option.eq_none_iff_forall_ne_some]
      exact fun k hk => (h.given h₁ k hk).1 hnone
    refine h.release hs rfl rfl ?_ ?_
    · rw [diff_of_none hnone]
      simpa [KeyPoolState.next, CReserveKey.keepKey, hnone, hgiven] using h.wallet
    · intro i _
      simp [KeyPoolState.next, CReserveKey.keepKey, hnone]
  · have hlive := mem_live hnone
    refine h.release hs rfl rfl ?_ fun i hi => ?_
    · simp only [KeyPoolState.next, CReserveKey.keepKey, ne_eq, hnone, not_false_eq_true, if_true]
      cases hgiven : (s.holders h₁).given with
      | none => exact h.wallet.keepKey hlive
      | some k => exact h.wallet.keepKey_cons io hlive (h.given h₁ k hgiven).2
    · simp only [KeyPoolState.next, CReserveKey.keepKey, ne_eq, hnone, not_false_eq_true, if_true]
      exact KeyPoolWallet.lookup_erasePool_of_ne hi.2

/-- `ReturnKey` keeps a state tidy. -/
theorem KeyPoolState.Tidy.returnKey (h : s.Tidy K) (h₁ : ℕ) :
    (s.next K (.returnKey h₁)).Tidy K := by
  have hs : (s.next K (.returnKey h₁)).holders = Function.update s.holders h₁ ⟨.new, none⟩ := rfl
  by_cases hnone : (s.holders h₁).key.nIndex = -1
  · refine h.release hs rfl rfl ?_ ?_
    · rw [diff_of_none hnone]
      simpa [KeyPoolState.next, CReserveKey.returnKey, hnone] using h.wallet
    · intro i _
      simp [KeyPoolState.next, CReserveKey.returnKey, hnone]
  · refine h.release hs rfl rfl ?_ fun i hi => ?_
    · simp only [KeyPoolState.next, CReserveKey.returnKey, ne_eq, hnone, not_false_eq_true, if_true]
      exact h.wallet.returnKey (mem_live hnone)
    · simp only [KeyPoolState.next, CReserveKey.returnKey, ne_eq, hnone, not_false_eq_true, if_true]
      rfl

/-- **An event that spares the reservations keeps a state tidy.** -/
theorem KeyPoolState.Tidy.next (hnew : Function.Injective K.newKey) {e : KeyPoolEvent}
    (h : s.Tidy K) (hspares : e.Spares K s) : (s.next K e).Tidy K := by
  cases e with
  | newKeyPool io =>
    obtain ⟨htidy, hleaves⟩ := h.wallet.newKeyPool hnew hspares
    exact h.of_leaves htidy hleaves rfl
  | topUpKeyPool io =>
    obtain ⟨htidy, hleaves⟩ := h.wallet.topUpKeyPool hnew hspares
    exact h.of_leaves htidy hleaves rfl
  | getKeyFromPool io fAllowReuse =>
    obtain ⟨htidy, hleaves⟩ := h.wallet.getKeyFromPool hnew hspares fAllowReuse
    exact h.of_leaves htidy hleaves rfl
  | getReservedKey io h₁ => exact h.getReservedKey hnew h₁ hspares
  | keepKey io h₁ => exact h.keepKey h₁
  | returnKey h₁ => exact h.returnKey h₁
  | lock =>
    exact h.of_leaves (h.wallet.shrink (fun _ hi => hi) h.wallet.carried (fun _ _ => rfl) le_rfl)
      (fun _ _ => rfl) rfl
  | unlock =>
    exact h.of_leaves (h.wallet.shrink (fun _ hi => hi) h.wallet.carried (fun _ _ => rfl) le_rfl)
      (fun _ _ => rfl) rfl

/-- Keys that are all different; the first ones have the size of a compressed public key. -/
def exampleKey (n : ℕ) : Valtype := 2 :: n.toUInt8 :: List.replicate (31 + n / 256) 0

theorem injective_exampleKey : Function.Injective exampleKey := by
  intro m n heq
  have hbyte : m % 256 = n % 256 := by
    have h := congrArg UInt8.toNat (List.cons.inj (List.cons.inj heq).2).1
    simpa using h
  have hlen : m / 256 = n / 256 := by
    have h := congrArg List.length heq
    simpa [exampleKey] using h
  omega

/-- Example parameters, with the size of the pool. -/
def exampleKeyPool (nKeypool : ℤ) : KeyPoolParams := ⟨exampleKey, id, nKeypool⟩

/-- A wallet file that never fails. -/
def KeyPoolIo.reliable : KeyPoolIo := ⟨fun _ => true, fun _ => true, fun _ => true, fun _ => true⟩

/-- A new wallet. -/
def newWallet : KeyPoolState where
  wallet := ⟨false, ∅, ∅, ∅, [], 0⟩
  holders _ := ⟨.new, none⟩
  kept := []

theorem loaded_newWallet (K : KeyPoolParams) : newWallet.Loaded K where
  positive _ hi := absurd hi (Finset.notMem_empty _)
  recorded _ hi := absurd hi (Finset.notMem_empty _)
  apart _ hi := absurd hi (Finset.notMem_empty _)
  holders := rfl
  kept := rfl

/-- A holder reserves a key. -/
def oneHolder (nKeypool : ℤ) : KeyPoolState :=
  newWallet.next (exampleKeyPool nKeypool) (.getReservedKey .reliable 0)

/-- A second holder reserves a key. -/
def twoHolders (nKeypool : ℤ) : KeyPoolState :=
  (oneHolder nKeypool).next (exampleKeyPool nKeypool) (.getReservedKey .reliable 1)

end FoxCoin
