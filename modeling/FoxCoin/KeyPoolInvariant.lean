import FoxCoin.KeyPool
import FoxCoin.Lib.Overlay

/-! # What the operations of the key pool preserve

The indexes of the pool and those that holders carry have records with different keys. The
operations keep this as long as they give out no index that is carried. -/

namespace FoxCoin

open Checked Overlay

/-- The public keys that `GetKeyFromPool` hands out from the pool. -/
def pooledKeys : Except String (Option CReserveKey) → List Valtype
  | .ok (some keypool) => if keypool.nIndex = -1 then [] else [keypool.vchPubKey]
  | _ => []

/-- `TopUpKeyPool` comes to its `k`-th new key, and the first `k` ones are stored. -/
def KeyPoolWallet.TopsUp (K : KeyPoolParams) (io : KeyPoolIo) (w : KeyPoolWallet) (k : ℕ) : Prop :=
  w.fLocked = false ∧ w.setKeyPool.card + k < KeyPoolWallet.nTarget K ∧
    ∀ j ≤ k, io.addKey (w.nGenerated + j) = true ∧ io.writePool (w.nEnd + j) = true

/-! ## The invariant of the wallet -/

variable {K : KeyPoolParams} {io : KeyPoolIo} {w : KeyPoolWallet} {live : Set ℤ} {kept : List Valtype} {i : ℤ}

/-- **A wallet is tidy** for the indexes that holders carry and the keys that were kept: the indexes
that are in the pool or carried have records with different keys that were generated and not
kept. -/
structure KeyPoolWallet.Tidy (K : KeyPoolParams) (w : KeyPoolWallet) (live : Set ℤ)
    (kept : List Valtype) : Prop where
  active : ∀ i, i ∈ w.setKeyPool ∨ i ∈ live →
    1 ≤ i ∧ ∃ n < w.nGenerated, w.pool.lookup i = some (K.newKey n) ∧ K.newKey n ∉ kept
  apart : ∀ i j, (i ∈ w.setKeyPool ∨ i ∈ live) → (j ∈ w.setKeyPool ∨ j ∈ live) →
    w.pool.lookup i = w.pool.lookup j → i = j
  carried : ∀ i ∈ live, i ∉ w.setKeyPool
  nodup : kept.Nodup
  generated : ∀ k ∈ kept, ∃ n < w.nGenerated, k = K.newKey n

/-- The records that holders carry are left alone. -/
def KeyPoolWallet.Leaves (w : KeyPoolWallet) (live : Set ℤ) (w' : KeyPoolWallet) : Prop :=
  ∀ i ∈ live, w'.pool.lookup i = w.pool.lookup i

namespace KeyPoolWallet

/-- A wallet with fewer indexes in use and no other records for them is tidy. -/
theorem Tidy.shrink (h : w.Tidy K live kept) {w' : KeyPoolWallet} {live' : Set ℤ}
    (hactive : ∀ i, i ∈ w'.setKeyPool ∨ i ∈ live' → i ∈ w.setKeyPool ∨ i ∈ live)
    (hcarried : ∀ i ∈ live', i ∉ w'.setKeyPool)
    (hpool : ∀ i, i ∈ w'.setKeyPool ∨ i ∈ live' → w'.pool.lookup i = w.pool.lookup i)
    (hgenerated : w.nGenerated ≤ w'.nGenerated) : w'.Tidy K live' kept where
  active i hi := by
    obtain ⟨hpos, n, hn, hlookup, hnot⟩ := h.active i (hactive i hi)
    exact ⟨hpos, n, hn.trans_le hgenerated, (hpool i hi).trans hlookup, hnot⟩
  apart i j hi hj heq := by
    rw [hpool i hi, hpool j hj] at heq
    exact h.apart i j (hactive i hi) (hactive j hj) heq
  carried := hcarried
  nodup := h.nodup
  generated k hk := by
    obtain ⟨n, hn, rfl⟩ := h.generated k hk
    exact ⟨n, hn.trans_le hgenerated, rfl⟩

/-- Generating a key that is not stored in the pool. -/
theorem Tidy.generateNewKey (h : w.Tidy K live kept) (io : KeyPoolIo) :
    (w.generateNewKey K io).2.Tidy K live kept := by
  unfold KeyPoolWallet.generateNewKey
  split_ifs <;> exact h.shrink (fun _ hi => hi) h.carried (fun _ _ => rfl) (Nat.le_succ _)

theorem generateNewKey_pool : (w.generateNewKey K io).2.pool = w.pool := by
  unfold generateNewKey
  split_ifs <;> rfl

/-- The wallet with a newly generated key under an index. -/
def withKey (K : KeyPoolParams) (w : KeyPoolWallet) (i : ℤ) : KeyPoolWallet :=
  { w with
    nGenerated := w.nGenerated + 1
    mapKeys := insert (K.getID (K.newKey w.nGenerated)) w.mapKeys
    pool := w.pool.insert i (K.newKey w.nGenerated)
    setKeyPool := insert i w.setKeyPool }

theorem lookup_withKey_of_ne {j : ℤ} (hne : j ≠ i) :
    (w.withKey K i).pool.lookup j = w.pool.lookup j :=
  (lookup_insert_eq_ite _ _ _ _).trans (if_neg hne)

theorem lookup_withKey_self : (w.withKey K i).pool.lookup i = some (K.newKey w.nGenerated) :=
  (lookup_insert_eq_ite _ _ _ _).trans (if_pos rfl)

/-- A new index leaves the records that holders carry under other indexes. -/
theorem leaves_withKey (hlive : i ∉ live) : w.Leaves live (w.withKey K i) := by
  intro j hj
  refine lookup_withKey_of_ne ?_
  rintro rfl
  exact hlive hj

/-- **A new index that is not in use** keeps the wallet tidy. -/
theorem Tidy.withKey (hnew : Function.Injective K.newKey) (h : w.Tidy K live kept) (hpos : 1 ≤ i)
    (hset : i ∉ w.setKeyPool) (hlive : i ∉ live) : (w.withKey K i).Tidy K live kept := by
  have hother : ∀ j, j ∈ w.setKeyPool ∨ j ∈ live →
      (w.withKey K i).pool.lookup j = w.pool.lookup j := by
    intro j hj
    refine lookup_withKey_of_ne ?_
    rintro rfl
    exact hj.elim hset hlive
  have hcases : ∀ j, j ∈ (w.withKey K i).setKeyPool ∨ j ∈ live →
      j = i ∨ (j ∈ w.setKeyPool ∨ j ∈ live) := by
    intro j hj
    rwa [KeyPoolWallet.withKey, Finset.mem_insert, or_assoc] at hj
  have hfresh : ∀ j, j ∈ w.setKeyPool ∨ j ∈ live →
      (w.withKey K i).pool.lookup j ≠ (w.withKey K i).pool.lookup i := by
    intro j hj heq
    obtain ⟨-, n, hn, hlookup, -⟩ := h.active j hj
    rw [hother j hj, lookup_withKey_self, hlookup, Option.some.injEq] at heq
    exact hn.ne (hnew heq)
  constructor
  · intro j hj
    rcases hcases j hj with rfl | hold
    · refine ⟨hpos, w.nGenerated, Nat.lt_succ_self _, lookup_withKey_self, fun hkept => ?_⟩
      obtain ⟨n, hn, heq⟩ := h.generated _ hkept
      exact hn.ne (hnew heq).symm
    · obtain ⟨hjpos, n, hn, hlookup, hnot⟩ := h.active j hold
      exact ⟨hjpos, n, hn.trans (Nat.lt_succ_self _), (hother j hold).trans hlookup, hnot⟩
  · intro j j' hj hj' heq
    rcases hcases j hj with rfl | hold <;> rcases hcases j' hj' with rfl | hold'
    · rfl
    · exact absurd heq.symm (hfresh j' hold')
    · exact absurd heq (hfresh j hold)
    · rw [hother j hold, hother j' hold'] at heq
      exact h.apart j j' hold hold' heq
  · intro j hj hmem
    rcases Finset.mem_insert.mp hmem with rfl | hmem
    · exact hlive hj
    · exact h.carried j hj hmem
  · exact h.nodup
  · intro k hk
    obtain ⟨n, hn, rfl⟩ := h.generated k hk
    exact ⟨n, hn.trans (Nat.lt_succ_self _), rfl⟩

/-- A carried index that goes back to the pool. -/
theorem Tidy.returnKey (h : w.Tidy K live kept) (hi : i ∈ live) :
    (w.returnKey i).Tidy K (live \ {i}) kept := by
  refine h.shrink ?_ ?_ (fun _ _ => rfl) le_rfl
  · rintro j (hj | hj)
    · rcases Finset.mem_insert.mp hj with rfl | hj
      · exact .inr hi
      · exact .inl hj
    · exact .inr hj.1
  · intro j hj hmem
    rcases Finset.mem_insert.mp hmem with rfl | hmem
    · exact hj.2 rfl
    · exact h.carried j hj.1 hmem

/-- An index of the pool that is carried from now on. -/
theorem Tidy.reserve (h : w.Tidy K live kept) (hi : i ∈ w.setKeyPool) :
    ({ w with setKeyPool := w.setKeyPool.erase i } : KeyPoolWallet).Tidy K (insert i live) kept := by
  refine h.shrink ?_ ?_ (fun _ _ => rfl) le_rfl
  · rintro j (hj | rfl | hj)
    · exact .inl (Finset.mem_of_mem_erase hj)
    · exact .inl hi
    · exact .inr hj
  · rintro j (rfl | hj) hmem
    · exact Finset.notMem_erase _ _ hmem
    · exact h.carried j hj (Finset.mem_of_mem_erase hmem)

theorem lookup_erasePool_of_ne {j : ℤ} (hne : j ≠ i) :
    (w.erasePool io i).pool.lookup j = w.pool.lookup j := by
  unfold erasePool
  split_ifs
  · exact (lookup_erase_eq_ite _ _ _).trans (if_neg hne)
  · rfl

@[simp] theorem erasePool_setKeyPool : (w.erasePool io i).setKeyPool = w.setKeyPool := by
  unfold erasePool
  split_ifs <;> rfl

@[simp] theorem erasePool_nGenerated : (w.erasePool io i).nGenerated = w.nGenerated := by
  unfold erasePool
  split_ifs <;> rfl

@[simp] theorem erasePool_fLocked : (w.erasePool io i).fLocked = w.fLocked := by
  unfold erasePool
  split_ifs <;> rfl

/-- The record of an index that is carried no more may be erased. -/
theorem Tidy.keepKey (h : w.Tidy K live kept) (hi : i ∈ live) :
    (w.keepKey io i).Tidy K (live \ {i}) kept := by
  have hne : ∀ j, j ∈ (w.keepKey io i).setKeyPool ∨ j ∈ live \ {i} → j ≠ i := by
    rintro j (hj | hj) rfl
    · exact h.carried j hi (by rwa [KeyPoolWallet.keepKey, erasePool_setKeyPool] at hj)
    · exact hj.2 rfl
  refine h.shrink ?_ ?_ (fun j hj => lookup_erasePool_of_ne (hne j hj)) ?_
  · rw [KeyPoolWallet.keepKey, erasePool_setKeyPool]
    exact fun j hj => hj.imp_right And.left
  · rw [KeyPoolWallet.keepKey, erasePool_setKeyPool]
    exact fun j hj => h.carried j hj.1
  · rw [KeyPoolWallet.keepKey, erasePool_nGenerated]

/-- The key of an index that was in use and is no more may be kept. -/
theorem Tidy.keep (h : w.Tidy K live kept) {w' : KeyPoolWallet} {live' : Set ℤ} {k : Valtype}
    (h' : w'.Tidy K live' kept) (hi : i ∈ w.setKeyPool ∨ i ∈ live)
    (hlookup : w.pool.lookup i = some k) (hgenerated : w.nGenerated ≤ w'.nGenerated)
    (hused : ∀ j, j ∈ w'.setKeyPool ∨ j ∈ live' → j ≠ i ∧ (j ∈ w.setKeyPool ∨ j ∈ live) ∧
      w'.pool.lookup j = w.pool.lookup j) : w'.Tidy K live' (k :: kept) := by
  obtain ⟨-, n, hn, hn', hnot⟩ := h.active i hi
  obtain rfl : k = K.newKey n := Option.some.inj (hlookup.symm.trans hn')
  refine ⟨fun j hj => ?_, h'.apart, h'.carried, List.nodup_cons.mpr ⟨hnot, h'.nodup⟩, ?_⟩
  · obtain ⟨hpos, m, hm, hm', hmnot⟩ := h'.active j hj
    refine ⟨hpos, m, hm, hm', fun hmem => ?_⟩
    rcases List.mem_cons.mp hmem with heq | hmem
    · obtain ⟨hne, hold, hsame⟩ := hused j hj
      exact hne (h.apart j i hold hi (by rw [← hsame, hm', hlookup, heq]))
    · exact hmnot hmem
  · intro k' hk'
    rcases List.mem_cons.mp hk' with rfl | hk'
    · exact ⟨n, hn.trans_le hgenerated, rfl⟩
    · exact h'.generated k' hk'

/-! ## Filling the pool -/

theorem Leaves.trans {w' w'' : KeyPoolWallet} (h : w.Leaves live w') (h' : w'.Leaves live w'') :
    w.Leaves live w'' :=
  fun i hi => (h' i hi).trans (h i hi)

/-- Erasing the records of a list of indexes leaves the other ones. -/
theorem foldl_erasePool (io : KeyPoolIo) (l : List ℤ) (w : KeyPoolWallet) :
    (l.foldl (erasePool io) w).setKeyPool = w.setKeyPool ∧
      (l.foldl (erasePool io) w).nGenerated = w.nGenerated ∧
      (l.foldl (erasePool io) w).fLocked = w.fLocked ∧
      ∀ j ∉ l, (l.foldl (erasePool io) w).pool.lookup j = w.pool.lookup j := by
  induction l generalizing w with
  | nil => exact ⟨rfl, rfl, rfl, fun _ _ => rfl⟩
  | cons i l ih =>
    obtain ⟨hset, hgen, hlocked, hpool⟩ := ih (w.erasePool io i)
    refine ⟨by simpa using hset, by simpa using hgen, by simpa using hlocked, fun j hj => ?_⟩
    rw [List.mem_cons, not_or] at hj
    rw [List.foldl_cons, hpool j hj.2, lookup_erasePool_of_ne hj.1]

/-- A round of `NewKeyPool`. -/
theorem newKeyPoolLoop_succ {n i : ℕ} (hadd : io.addKey w.nGenerated = true)
    (hwrite : io.writePool (i + 1) = true) :
    newKeyPoolLoop K io (n + 1) i w = newKeyPoolLoop K io n (i + 1) (w.withKey K (i + 1)) := by
  rw [newKeyPoolLoop, generateNewKey]
  simp only [hadd, if_true, writePool, hwrite]
  rfl

/-- A round of `NewKeyPool` whose key cannot be stored. -/
theorem newKeyPoolLoop_throw {n i : ℕ} (hadd : io.addKey w.nGenerated ≠ true) :
    (newKeyPoolLoop K io (n + 1) i w).2 = (w.generateNewKey K io).2 := by
  rw [newKeyPoolLoop, generateNewKey]
  simp only [hadd]
  rfl

/-- **The loop of `NewKeyPool`** fills the pool with the next indexes, when nobody carries them and
their records are written. -/
theorem Tidy.newKeyPoolLoop (hnew : Function.Injective K.newKey) {n i : ℕ}
    (h : w.Tidy K live kept) (hbelow : ∀ j ∈ w.setKeyPool, j ≤ i)
    (hspares : ∀ k < n, (∀ j ≤ k, io.addKey (w.nGenerated + j) = true) →
      io.writePool ((i + k : ℕ) + 1) = true ∧ ((i + k : ℕ) : ℤ) + 1 ∉ live) :
    (newKeyPoolLoop K io n i w).2.Tidy K live kept ∧
      w.Leaves live (newKeyPoolLoop K io n i w).2 := by
  induction n generalizing i w with
  | zero => exact ⟨h, fun _ _ => rfl⟩
  | succ n ih =>
    by_cases hadd : io.addKey w.nGenerated = true
    · obtain ⟨hwrite, hlive⟩ := hspares 0 n.succ_pos fun j hj => by rwa [Nat.le_zero.mp hj]
      rw [Nat.add_zero] at hwrite hlive
      have hset : (i : ℤ) + 1 ∉ w.setKeyPool := fun hmem => by
        have := hbelow _ hmem
        omega
      have hbelow' : ∀ j ∈ (w.withKey K (i + 1)).setKeyPool, j ≤ ((i + 1 : ℕ) : ℤ) := by
        intro j hj
        rcases Finset.mem_insert.mp hj with rfl | hj
        · exact le_rfl
        · have := hbelow j hj
          omega
      have hspares' : ∀ k < n, (∀ j ≤ k, io.addKey ((w.withKey K (i + 1)).nGenerated + j) = true) →
          io.writePool ((i + 1 + k : ℕ) + 1) = true ∧ ((i + 1 + k : ℕ) : ℤ) + 1 ∉ live := by
        intro k hk hadds
        rw [show i + 1 + k = i + (k + 1) by omega]
        refine hspares (k + 1) (by omega) fun j hj => ?_
        cases j with
        | zero => exact hadd
        | succ j =>
          rw [show w.nGenerated + (j + 1) = w.nGenerated + 1 + j by omega]
          exact hadds j (by omega)
      rw [newKeyPoolLoop_succ hadd hwrite]
      obtain ⟨hloop, hleaves⟩ := ih (h.withKey hnew (by omega) hset hlive) hbelow' hspares'
      exact ⟨hloop, (leaves_withKey hlive).trans hleaves⟩
    · rw [newKeyPoolLoop_throw hadd]
      refine ⟨h.generateNewKey io, fun j _ => ?_⟩
      rw [generateNewKey_pool]

/-- **`NewKeyPool`** keeps the wallet tidy when it spares the reservations. -/
theorem Tidy.newKeyPool (hnew : Function.Injective K.newKey) (h : w.Tidy K live kept)
    (hspares : w.fLocked = false → ∀ k < nKeys K,
      (∀ j ≤ k, io.addKey (w.nGenerated + j) = true) →
        io.writePool (k + 1) = true ∧ (k : ℤ) + 1 ∉ live) :
    (w.newKeyPool K io).2.Tidy K live kept ∧ w.Leaves live (w.newKeyPool K io).2 := by
  obtain ⟨-, hgen, hlocked, hpool⟩ := foldl_erasePool io (idsInOrder w.setKeyPool) w
  rw [KeyPoolWallet.newKeyPool]
  generalize (idsInOrder w.setKeyPool).foldl (erasePool io) w = w₁ at hgen hlocked hpool ⊢
  have hleaves : w.Leaves live { w₁ with setKeyPool := ∅ } := by
    intro i hi
    exact hpool i fun hmem => h.carried i hi (mem_idsInOrder.mp hmem)
  have htidy : ({ w₁ with setKeyPool := ∅ } : KeyPoolWallet).Tidy K live kept :=
    h.shrink (fun i hi => .inr (hi.resolve_left (Finset.notMem_empty i)))
      (fun i _ => Finset.notMem_empty i)
      (fun i hi => hleaves i (hi.resolve_left (Finset.notMem_empty i))) hgen.ge
  dsimp only
  split_ifs with hlock
  · exact ⟨htidy, hleaves⟩
  · have hfits : ∀ k < nKeys K, (∀ j ≤ k, io.addKey (w₁.nGenerated + j) = true) →
        io.writePool ((0 + k : ℕ) + 1) = true ∧ ((0 + k : ℕ) : ℤ) + 1 ∉ live := by
      intro k hk hadds
      rw [Nat.zero_add]
      rw [hgen] at hadds
      exact hspares (by rw [← hlocked]; exact Bool.eq_false_iff.mpr hlock) k hk hadds
    obtain ⟨hloop, hloopLeaves⟩ := htidy.newKeyPoolLoop hnew
      (fun i hi => absurd hi (Finset.notMem_empty i)) hfits
    exact ⟨hloop, hleaves.trans hloopLeaves⟩

/-- The next index is above every index of the pool. -/
theorem lt_nEnd {j : ℤ} (hj : j ∈ w.setKeyPool) : j < w.nEnd := by
  rw [nEnd, dif_pos ⟨j, hj⟩]
  exact Int.lt_add_one_iff.mpr (Finset.le_max' _ _ hj)

theorem Tidy.nEnd_pos (h : w.Tidy K live kept) : 1 ≤ w.nEnd := by
  by_cases hne : w.setKeyPool.Nonempty
  · obtain ⟨j, hj⟩ := hne
    have := (h.active j (.inl hj)).1
    have := lt_nEnd hj
    omega
  · rw [nEnd, dif_neg hne]

theorem nEnd_notMem : w.nEnd ∉ w.setKeyPool := fun hmem => lt_irrefl _ (lt_nEnd hmem)

/-- The index after the next one. -/
theorem nEnd_withKey : (w.withKey K w.nEnd).nEnd = w.nEnd + 1 := by
  have hmem : w.nEnd ∈ (w.withKey K w.nEnd).setKeyPool := Finset.mem_insert_self _ _
  rw [nEnd, dif_pos ⟨_, hmem⟩, Int.add_left_inj]
  refine le_antisymm (Finset.max'_le _ _ _ fun j hj => ?_) (Finset.le_max' _ _ hmem)
  rcases Finset.mem_insert.mp hj with rfl | hj
  · exact le_rfl
  · exact (lt_nEnd hj).le

/-- A round of `TopUpKeyPool`. -/
theorem topUpLoop_succ {nTarget nFuel : ℕ} (hcard : w.setKeyPool.card < nTarget)
    (hadd : io.addKey w.nGenerated = true) (hwrite : io.writePool w.nEnd = true) :
    topUpLoop K io nTarget (nFuel + 1) w = topUpLoop K io nTarget nFuel (w.withKey K w.nEnd) := by
  rw [topUpLoop, if_pos hcard, generateNewKey, if_pos hadd]
  have hwrite' : ∀ n mapKeys, io.writePool ({ w with
      nGenerated := n, mapKeys := mapKeys } : KeyPoolWallet).nEnd = true := fun _ _ => hwrite
  simp only [writePool, hwrite', if_true]
  rfl

/-- A round of `TopUpKeyPool` that does not store its key generates a key at most. -/
theorem topUpLoop_throw (K : KeyPoolParams) {nTarget : ℕ} (nFuel : ℕ) (hfails : ¬(w.setKeyPool.card < nTarget ∧
      io.addKey w.nGenerated = true ∧ io.writePool w.nEnd = true)) :
    (topUpLoop K io nTarget (nFuel + 1) w).2 = w ∨
      (topUpLoop K io nTarget (nFuel + 1) w).2 = (w.generateNewKey K io).2 := by
  rw [topUpLoop]
  by_cases hcard : w.setKeyPool.card < nTarget
  · rw [if_pos hcard]
    refine .inr ?_
    by_cases hadd : io.addKey w.nGenerated = true
    · have hwrite : io.writePool w.nEnd = false :=
        Bool.eq_false_iff.mpr fun hwrite => hfails ⟨hcard, hadd, hwrite⟩
      have hwrite' : ∀ n mapKeys, io.writePool ({ w with
          nGenerated := n, mapKeys := mapKeys } : KeyPoolWallet).nEnd = false := fun _ _ => hwrite
      simp only [generateNewKey, hadd, if_true, writePool, hwrite']
      rfl
    · simp only [generateNewKey, hadd]
      rfl
  · rw [if_neg hcard]
    exact .inl rfl

/-- **The loop of `TopUpKeyPool`** adds indexes above all others, when nobody carries them. -/
theorem Tidy.topUpLoop (hnew : Function.Injective K.newKey) {nTarget nFuel : ℕ}
    (h : w.Tidy K live kept)
    (hspares : ∀ k : ℕ, w.setKeyPool.card + k < nTarget →
      (∀ j ≤ k, io.addKey (w.nGenerated + j) = true ∧ io.writePool (w.nEnd + j) = true) →
        w.nEnd + k ∉ live) :
    (topUpLoop K io nTarget nFuel w).2.Tidy K live kept ∧
      w.Leaves live (topUpLoop K io nTarget nFuel w).2 := by
  induction nFuel generalizing w with
  | zero => exact ⟨h, fun _ _ => rfl⟩
  | succ nFuel ih =>
    by_cases hstores : w.setKeyPool.card < nTarget ∧
        io.addKey w.nGenerated = true ∧ io.writePool w.nEnd = true
    · obtain ⟨hcard, hadd, hwrite⟩ := hstores
      have hlive : w.nEnd ∉ live := by
        have h0 := hspares 0 hcard fun j hj => by
          rw [Nat.le_zero.mp hj]
          simpa using ⟨hadd, hwrite⟩
        simpa using h0
      have hspares' : ∀ k : ℕ, (w.withKey K w.nEnd).setKeyPool.card + k < nTarget →
          (∀ j ≤ k, io.addKey ((w.withKey K w.nEnd).nGenerated + j) = true ∧
            io.writePool ((w.withKey K w.nEnd).nEnd + j) = true) →
          (w.withKey K w.nEnd).nEnd + k ∉ live := by
        intro k hk hadds
        rw [nEnd_withKey] at hadds ⊢
        rw [KeyPoolWallet.withKey, Finset.card_insert_of_notMem nEnd_notMem] at hk
        rw [show w.nEnd + 1 + (k : ℤ) = w.nEnd + ((k + 1 : ℕ) : ℤ) by push_cast; ring]
        refine hspares (k + 1) (by omega) fun j hj => ?_
        cases j with
        | zero => simpa using ⟨hadd, hwrite⟩
        | succ j =>
          rw [show w.nGenerated + (j + 1) = w.nGenerated + 1 + j by omega,
            show w.nEnd + ((j + 1 : ℕ) : ℤ) = w.nEnd + 1 + j by push_cast; ring]
          exact hadds j (by omega)
      rw [topUpLoop_succ hcard hadd hwrite]
      obtain ⟨hloop, hleaves⟩ := ih (h.withKey hnew h.nEnd_pos nEnd_notMem hlive) hspares'
      exact ⟨hloop, (leaves_withKey hlive).trans hleaves⟩
    · rcases topUpLoop_throw K nFuel hstores with heq | heq
      · rw [heq]
        exact ⟨h, fun _ _ => rfl⟩
      · rw [heq]
        refine ⟨h.generateNewKey io, fun j _ => ?_⟩
        rw [generateNewKey_pool]

/-- **`TopUpKeyPool`** keeps the wallet tidy when it spares the reservations. -/
theorem Tidy.topUpKeyPool (hnew : Function.Injective K.newKey) (h : w.Tidy K live kept)
    (hspares : ∀ k : ℕ, w.TopsUp K io k → w.nEnd + k ∉ live) :
    (w.topUpKeyPool K io).2.Tidy K live kept ∧ w.Leaves live (w.topUpKeyPool K io).2 := by
  rw [KeyPoolWallet.topUpKeyPool]
  split_ifs with hlock
  · exact ⟨h, fun _ _ => rfl⟩
  · exact h.topUpLoop hnew fun k hk hadds =>
      hspares k ⟨Bool.eq_false_iff.mpr hlock, hk, hadds⟩

/-! ## Reserving -/

/-- What `ReserveKeyFromKeyPool` does: after topping up it takes an index out of the pool, whose key
it gives unless it throws; or it takes nothing. -/
theorem reserveKeyFromKeyPool_cases (K : KeyPoolParams) (io : KeyPoolIo) (w : KeyPoolWallet) :
    ∃ w₁, (w₁ = w ∨ w₁ = (w.topUpKeyPool K io).2) ∧
      ((∃ r, w.reserveKeyFromKeyPool K io = (r, ⟨-1, []⟩, w₁)) ∨
      ∃ i ∈ w₁.setKeyPool, ∃ r vch,
        w.reserveKeyFromKeyPool K io =
          (r, ⟨i, vch⟩, { w₁ with setKeyPool := w₁.setKeyPool.erase i }) ∧
        ∀ u, r = .ok u → w₁.pool.lookup i = some vch ∧ validPubKey vch = true) := by
  have htop : ∃ r₁ w₁, (if w.fLocked then (.ok false, w) else w.topUpKeyPool K io) = (r₁, w₁) ∧
      (w₁ = w ∨ w₁ = (w.topUpKeyPool K io).2) := by
    split_ifs
    · exact ⟨_, _, rfl, .inl rfl⟩
    · exact ⟨_, _, rfl, .inr rfl⟩
  obtain ⟨r₁, w₁, htop, hw₁⟩ := htop
  refine ⟨w₁, hw₁, ?_⟩
  unfold reserveKeyFromKeyPool
  rw [htop]
  cases r₁ with
  | error e => exact .inl ⟨_, rfl⟩
  | ok b =>
    by_cases hne : w₁.setKeyPool.Nonempty
    · refine .inr ⟨w₁.setKeyPool.min' hne, Finset.min'_mem _ _, ?_⟩
      simp only [hne, dite_true]
      cases hread : readPool io { w₁ with
          setKeyPool := w₁.setKeyPool.erase (w₁.setKeyPool.min' hne) }
          (w₁.setKeyPool.min' hne) with
      | none => exact ⟨_, _, rfl, by rintro u ⟨⟩⟩
      | some vchPubKey =>
        dsimp only
        split_ifs with hknown hvalid
        · refine ⟨_, _, rfl, fun _ _ => ⟨?_, hvalid⟩⟩
          exact (Option.ite_none_right_eq_some.mp hread).2
        · exact ⟨_, _, rfl, by rintro u ⟨⟩⟩
        · exact ⟨_, _, rfl, by rintro u ⟨⟩⟩
    · refine .inl ⟨.ok (), ?_⟩
      simp only [hne, dite_false]

/-- **Reserving keeps the wallet tidy**: the index that is taken is carried from then on, and its
record has the key that is given. -/
theorem Tidy.reserveKeyFromKeyPool (hnew : Function.Injective K.newKey) (h : w.Tidy K live kept)
    (hspares : ∀ k : ℕ, w.TopsUp K io k → w.nEnd + k ∉ live) :
    ∃ w', w.Leaves live w' ∧
      ((∃ r, w.reserveKeyFromKeyPool K io = (r, ⟨-1, []⟩, w') ∧ w'.Tidy K live kept) ∨
      ∃ i r vch, w.reserveKeyFromKeyPool K io = (r, ⟨i, vch⟩, w') ∧ 1 ≤ i ∧ i ∉ live ∧
        w'.Tidy K (insert i live) kept ∧
        ∀ u, r = .ok u → w'.pool.lookup i = some vch ∧ validPubKey vch = true) := by
  obtain ⟨w₁, hw₁, hcases⟩ := reserveKeyFromKeyPool_cases K io w
  have htidy : w₁.Tidy K live kept ∧ w.Leaves live w₁ := by
    rcases hw₁ with rfl | rfl
    · exact ⟨h, fun _ _ => rfl⟩
    · exact h.topUpKeyPool hnew hspares
  rcases hcases with ⟨r, hout⟩ | ⟨i, hi, r, vch, hout, hok⟩
  · exact ⟨w₁, htidy.2, .inl ⟨r, hout, htidy.1⟩⟩
  · refine ⟨{ w₁ with setKeyPool := w₁.setKeyPool.erase i }, htidy.2,
      .inr ⟨i, r, vch, hout, ?_, ?_, htidy.1.reserve hi, hok⟩⟩
    · exact (htidy.1.active i (.inl hi)).1
    · exact fun hlive => htidy.1.carried i hlive hi

/-- A wallet that is tidy for more indexes is tidy for fewer. -/
theorem Tidy.mono {live' : Set ℤ} (h : w.Tidy K live kept) (hsub : live' ⊆ live) :
    w.Tidy K live' kept :=
  h.shrink (fun _ hi => hi.imp_right fun hi => hsub hi) (fun i hi => h.carried i (hsub hi))
    (fun _ _ => rfl) le_rfl

/-- The key of a carried index is kept. -/
theorem Tidy.keepKey_cons (h : w.Tidy K live kept) (io : KeyPoolIo) (hi : i ∈ live) {k : Valtype}
    (hlookup : w.pool.lookup i = some k) :
    (w.keepKey io i).Tidy K (live \ {i}) (k :: kept) := by
  refine h.keep (h.keepKey hi) (.inr hi) hlookup (by rw [KeyPoolWallet.keepKey, erasePool_nGenerated])
    fun j hj => ?_
  rw [KeyPoolWallet.keepKey, erasePool_setKeyPool] at hj
  have hne : j ≠ i := by
    rintro rfl
    exact hj.elim (h.carried j hi) fun hj => hj.2 rfl
  exact ⟨hne, hj.imp_right And.left, lookup_erasePool_of_ne hne⟩

/-- **`GetKeyFromPool`** keeps the wallet tidy: a key that comes from the pool is kept. -/
theorem Tidy.getKeyFromPool (hnew : Function.Injective K.newKey) (h : w.Tidy K live kept)
    (hspares : ∀ k : ℕ, w.TopsUp K io k → w.nEnd + k ∉ live) (fAllowReuse : Bool) :
    (w.getKeyFromPool K io fAllowReuse).2.Tidy K live
        (pooledKeys (w.getKeyFromPool K io fAllowReuse).1 ++ kept) ∧
      w.Leaves live (w.getKeyFromPool K io fAllowReuse).2 := by
  obtain ⟨w', hleaves, ⟨r, hout, htidy⟩ | ⟨i, r, vch, hout, hpos, hnot, htidy, hok⟩⟩ :=
    h.reserveKeyFromKeyPool hnew hspares
  · -- nothing is taken from the pool
    rw [KeyPoolWallet.getKeyFromPool, hout]
    cases r with
    | error e => exact ⟨htidy, hleaves⟩
    | ok u =>
      simp only [if_true]
      split_ifs
      · exact ⟨htidy, hleaves⟩
      · exact ⟨htidy, hleaves⟩
      · have hgenerated := htidy.generateNewKey io
        have hpool : w.Leaves live (w'.generateNewKey K io).2 := by
          intro j hj
          rw [generateNewKey_pool]
          exact hleaves j hj
        cases hout' : w'.generateNewKey K io with
        | mk r w'' =>
        rw [hout'] at hgenerated hpool
        cases r <;> exact ⟨hgenerated, hpool⟩
  · rw [KeyPoolWallet.getKeyFromPool, hout]
    cases r with
    | error e => exact ⟨htidy.mono (Set.subset_insert _ _), hleaves⟩
    | ok u =>
      have hne : i ≠ -1 := by omega
      have hlive : insert i live \ {i} = live := Set.insert_sdiff_self_of_notMem hnot
      simp only [hne, if_false, pooledKeys]
      have hkeep := htidy.keepKey_cons io (Set.mem_insert i live) (hok u rfl).1
      rw [hlive] at hkeep
      refine ⟨hkeep, fun j hj => ?_⟩
      have hji : j ≠ i := by
        rintro rfl
        exact hnot hj
      exact (lookup_erasePool_of_ne hji).trans (hleaves j hj)

end KeyPoolWallet

end FoxCoin
