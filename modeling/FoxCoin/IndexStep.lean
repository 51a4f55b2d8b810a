import FoxCoin.ConnectBlock
import FoxCoin.Lib.Overlay

/-! # What a transaction does to the transaction index

`ConnectBlock` reads the queue over the database and writes to the queue, so its effect is a
function of the union of the two. This file says what that effect is: which outputs `FetchInputs`
finds, when `ConnectInputs` accepts them, and which index results. -/

namespace FoxCoin

open Checked Overlay

/-! ## Marking outputs -/

/-- The index with one output marked with `pos`; an output without an entry is left out. -/
def markOutput (pos : CDiskTxPos) (m : TxIndexMap) (o : COutPoint) : TxIndexMap :=
  match m.lookup o.hash with
  | none => m
  | some e => m.insert o.hash (e.mark o.n pos)

/-- The index with a list of outputs marked with `pos`. -/
def markOutputs (pos : CDiskTxPos) (m : TxIndexMap) (os : List COutPoint) : TxIndexMap :=
  os.foldl (markOutput pos) m

@[simp] theorem markOutputs_nil (pos : CDiskTxPos) (m : TxIndexMap) : markOutputs pos m [] = m := rfl

@[simp] theorem markOutputs_cons (pos : CDiskTxPos) (m : TxIndexMap) (o : COutPoint)
    (os : List COutPoint) :
    markOutputs pos m (o :: os) = markOutputs pos (markOutput pos m o) os := rfl

/-- Marking changes the entry of the marked output only. -/
theorem lookup_markOutput (pos : CDiskTxPos) (m : TxIndexMap) (o : COutPoint) (h : Uint256) :
    (markOutput pos m o).lookup h =
      (m.lookup h).map fun e => if h = o.hash then e.mark o.n pos else e := by
  unfold markOutput
  cases he : m.lookup o.hash with
  | none =>
    by_cases hh : h = o.hash
    · rw [hh, he, Option.map_none]
    · simp only [if_neg hh, Option.map_id']
  | some e =>
    simp only [lookup_insert_eq_ite]
    by_cases hh : h = o.hash
    · rw [if_pos hh, hh, he, Option.map_some, if_pos rfl]
    · simp only [if_neg hh, Option.map_id']

/-- The entry `e` of `h` with all the outputs of `os` that belong to it marked. -/
def CTxIndex.markAll (h : Uint256) (e : CTxIndex) (pos : CDiskTxPos) (os : List COutPoint) :
    CTxIndex :=
  os.foldl (fun e o => if h = o.hash then e.mark o.n pos else e) e

/-- Marking a list of outputs changes every entry on its own. -/
theorem lookup_markOutputs (pos : CDiskTxPos) (m : TxIndexMap) (os : List COutPoint)
    (h : Uint256) :
    (markOutputs pos m os).lookup h = (m.lookup h).map fun e => e.markAll h pos os := by
  induction os generalizing m with
  | nil => simp [CTxIndex.markAll]
  | cons o os ih =>
    rw [markOutputs_cons, ih, lookup_markOutput, Option.map_map]
    rfl

@[simp] theorem CTxIndex.markAll_pos (h : Uint256) (e : CTxIndex) (pos : CDiskTxPos)
    (os : List COutPoint) : (e.markAll h pos os).pos = e.pos := by
  induction os generalizing e with
  | nil => rfl
  | cons o os ih =>
    refine (ih _).trans ?_
    by_cases hh : h = o.hash <;> simp [hh]

@[simp] theorem CTxIndex.markAll_vSpent_length (h : Uint256) (e : CTxIndex) (pos : CDiskTxPos)
    (os : List COutPoint) : (e.markAll h pos os).vSpent.length = e.vSpent.length := by
  induction os generalizing e with
  | nil => rfl
  | cons o os ih =>
    refine (ih _).trans ?_
    by_cases hh : h = o.hash <;> simp [hh]

/-- The mark of an output after a list of outputs was marked. -/
theorem CTxIndex.markAll_vSpent_getElem? (h : Uint256) (e : CTxIndex) (pos : CDiskTxPos)
    (os : List COutPoint) (n : ℕ) :
    (e.markAll h pos os).vSpent[n]? =
      if (⟨h, n⟩ : COutPoint) ∈ os then e.vSpent[n]?.map fun _ => pos else e.vSpent[n]? := by
  induction os generalizing e with
  | nil => rfl
  | cons o os ih =>
    refine (ih _).trans ?_
    obtain ⟨h', n'⟩ := o
    by_cases hh : h = h'
    · subst hh
      by_cases hn : n = n'
      · subst hn
        by_cases hlt : n < e.vSpent.length <;> simp [hlt]
      · simp [hn, Ne.symm hn]
    · simp [hh]

/-- Marking keeps the keys of the index. -/
theorem mem_markOutputs {pos : CDiskTxPos} {m : TxIndexMap} {os : List COutPoint} {h : Uint256} :
    h ∈ markOutputs pos m os ↔ h ∈ m := by
  rw [← Finmap.lookup_isSome, lookup_markOutputs, Option.isSome_map, Finmap.lookup_isSome]

/-! ## What the fetch finds -/

/-- The transaction behind an index entry: in the memory pool when the entry says so, else on
disk. -/
def ChainView.readPrev (v : ChainView) (hash : Uint256) (txindex : CTxIndex) :
    Option CTransaction :=
  if txindex.pos = CDiskTxPos.inMemory then v.mapTx.lookup hash
  else v.files.readTx txindex.pos.nFile txindex.pos.nTxPos

/-- The index entry and the transaction with the given hash. -/
def ChainView.prevTx? (v : ChainView) (m : TxIndexMap) (hash : Uint256) :
    Option (CTxIndex × CTransaction) :=
  (m.lookup hash).bind fun txindex => (v.readPrev hash txindex).map (txindex, ·)

theorem ChainView.prevTx?_eq_some {v : ChainView} {m : TxIndexMap} {hash : Uint256} {e : CTxIndex}
    {tx : CTransaction} :
    v.prevTx? m hash = some (e, tx) ↔ m.lookup hash = some e ∧ v.readPrev hash e = some tx := by
  simp only [prevTx?, Option.bind_eq_some_iff, Option.map_eq_some_iff, Prod.mk.injEq]
  constructor
  · rintro ⟨e', he, tx', htx, rfl, rfl⟩
    exact ⟨he, htx⟩
  · rintro ⟨he, htx⟩
    exact ⟨e, he, tx, htx, rfl, rfl⟩

/-- Marking an output leaves the transactions behind the entries alone. -/
theorem ChainView.prevTx?_markOutput (v : ChainView) (m : TxIndexMap) (pos : CDiskTxPos)
    (o : COutPoint) (h : Uint256) :
    v.prevTx? (markOutput pos m o) h =
      (v.prevTx? m h).map fun p => (if h = o.hash then p.1.mark o.n pos else p.1, p.2) := by
  unfold prevTx?
  rw [lookup_markOutput]
  cases m.lookup h with
  | none => rfl
  | some e =>
    have hread : v.readPrev h (if h = o.hash then e.mark o.n pos else e) = v.readPrev h e := by
      unfold readPrev
      split_ifs <;> simp_all
    simp [hread, Option.map_map, Function.comp_def]

/-- One round of the fetch leaves the map alone or inserts the previous transaction. -/
theorem fetchInput_eq_ok_cases {v : ChainView} {txdb q : TxIndexMap} {fBlock fMiner : Bool}
    (hmode : (fBlock || fMiner) = true) {inputs p : MapPrevTx} {txin : CTxIn} :
    fetchInput v txdb q fBlock fMiner inputs txin = .ok p ↔
      (txin.prevout.hash ∈ inputs ∧ p = inputs) ∨
        (txin.prevout.hash ∉ inputs ∧ ∃ b, v.prevTx? (q ∪ txdb) txin.prevout.hash = some b ∧
          p = inputs.insert txin.prevout.hash b) := by
  -- a pending entry hides the database's, which is what the union of the two maps says
  have hentry : (if (fBlock || fMiner) && decide (txin.prevout.hash ∈ q) then
      q.lookup txin.prevout.hash else txdb.lookup txin.prevout.hash) =
      (q ∪ txdb).lookup txin.prevout.hash := by
    by_cases hq : txin.prevout.hash ∈ q
    · rw [Finmap.lookup_union_left hq, if_pos (by simp [hmode, hq])]
    · rw [Finmap.lookup_union_right hq, if_neg (by simp [hq])]
  unfold fetchInput ChainView.prevTx? ChainView.readPrev fetchFromPool
  simp only [hentry]
  by_cases hin : txin.prevout.hash ∈ inputs
  · simp [hin, eq_comm]
  · simp only [hin, if_false, false_and, false_or, not_false_eq_true, true_and]
    cases (q ∪ txdb).lookup txin.prevout.hash with
    | none => simp [hmode]
    | some e =>
      by_cases hmem : e.pos = CDiskTxPos.inMemory
      · simp only [hmem, if_true, Option.bind_some]
        cases v.mapTx.lookup txin.prevout.hash with
        | none => simp [bind, Except.bind]
        | some tx => simp [bind, Except.bind, pure, Except.pure, eq_comm]
      · simp only [hmem, if_false, Option.bind_some]
        cases v.files.readTx e.pos.nFile e.pos.nTxPos with
        | none => simp
        | some tx => simp [eq_comm]

/-- A found entry does not show under a key that the map holds. -/
theorem lookup_or_of_mem {K V : Type} [DecidableEq K] {m : Finmap fun _ : K => V} {k : K}
    (hk : k ∈ m) (f : K → Option V) (h : K) :
    (m.lookup h).or (if h = k then f h else none) = m.lookup h := by
  obtain ⟨b, hb⟩ := Finmap.mem_iff.mp hk
  by_cases hh : h = k
  · rw [hh, hb, Option.some_or]
  · rw [if_neg hh, Option.or_none]

/-- A found entry under a new key is an insertion. -/
theorem lookup_or_of_notMem {K V : Type} [DecidableEq K] {m : Finmap fun _ : K => V} {k : K}
    (hk : k ∉ m) {f : K → Option V} {b : V} (hb : f k = some b) (h : K) :
    (m.lookup h).or (if h = k then f h else none) = (m.insert k b).lookup h := by
  rw [lookup_insert_eq_ite]
  by_cases hh : h = k
  · rw [if_pos hh, if_pos hh, hh, hb, Finmap.lookup_eq_none.mpr hk, Option.none_or]
  · rw [if_neg hh, if_neg hh, Option.or_none]

/-- One round of the fetch, when a block is connected or built: the previous transaction is known
already or found, and it is known afterwards. -/
theorem fetchInput_eq_ok {v : ChainView} {txdb q : TxIndexMap} {fBlock fMiner : Bool}
    (hmode : (fBlock || fMiner) = true) {inputs inputs' : MapPrevTx} {txin : CTxIn} :
    fetchInput v txdb q fBlock fMiner inputs txin = .ok inputs' ↔
      (txin.prevout.hash ∈ inputs ∨ (v.prevTx? (q ∪ txdb) txin.prevout.hash).isSome) ∧
      ∀ h, inputs'.lookup h = (inputs.lookup h).or
        (if h = txin.prevout.hash then v.prevTx? (q ∪ txdb) h else none) := by
  rw [fetchInput_eq_ok_cases hmode]
  by_cases hin : txin.prevout.hash ∈ inputs
  · simp only [hin, true_and, not_true, false_and, or_false, true_or, lookup_or_of_mem hin]
    exact ⟨fun h _ => by rw [h], fun h => Finmap.ext_lookup h⟩
  · simp only [hin, false_and, not_false_eq_true, true_and, false_or, Option.isSome_iff_exists]
    constructor
    · rintro ⟨b, hb, rfl⟩
      exact ⟨⟨b, hb⟩, fun h => (lookup_or_of_notMem hin hb h).symm⟩
    · rintro ⟨⟨b, hb⟩, hlook⟩
      refine ⟨b, hb, Finmap.ext_lookup fun h => ?_⟩
      rw [hlook, lookup_or_of_notMem hin hb]

/-- A map with one more found entry: the fetch of one input can always be carried out. -/
theorem exists_lookup_or {K V : Type} [DecidableEq K] (m : Finmap fun _ : K => V) (k : K)
    (f : K → Option V) :
    ∃ m' : Finmap fun _ : K => V, ∀ h,
      m'.lookup h = (m.lookup h).or (if h = k then f h else none) := by
  by_cases hk : k ∈ m
  · exact ⟨m, fun h => (lookup_or_of_mem hk f h).symm⟩
  cases hf : f k with
  | none =>
    refine ⟨m, fun h => ?_⟩
    by_cases hh : h = k
    · rw [if_pos hh, hh, hf, Option.or_none]
    · rw [if_neg hh, Option.or_none]
  | some b => exact ⟨m.insert k b, fun h => (lookup_or_of_notMem hk hf h).symm⟩

/-- A value found under one of two conditions is found under their disjunction. -/
theorem ite_or_ite {α : Type} {p q : Prop} [Decidable p] [Decidable q] (x : Option α) :
    (if p then x else none).or (if q then x else none) = if p ∨ q then x else none := by
  by_cases hp : p <;> by_cases hq : q <;> cases x <;> simp [hp, hq]

/-- The fetch loop succeeds exactly when every previous transaction is known or found, and it
collects exactly them. -/
theorem foldlM_fetchInput_eq_ok {v : ChainView} {txdb q : TxIndexMap} {fBlock fMiner : Bool}
    (hmode : (fBlock || fMiner) = true) {vin : List CTxIn} {inputs inputs' : MapPrevTx} :
    vin.foldlM (fetchInput v txdb q fBlock fMiner) inputs = .ok inputs' ↔
      (∀ txin ∈ vin, txin.prevout.hash ∈ inputs ∨
        (v.prevTx? (q ∪ txdb) txin.prevout.hash).isSome) ∧
      ∀ h, inputs'.lookup h = (inputs.lookup h).or
        (if h ∈ vin.map (·.prevout.hash) then v.prevTx? (q ∪ txdb) h else none) := by
  induction vin generalizing inputs with
  | nil =>
    simp only [List.foldlM_nil, pure_eq_ok, List.not_mem_nil, false_implies, implies_true,
      List.map_nil, if_false, Option.or_none, true_and]
    exact ⟨fun h _ => by rw [h], fun h => (Finmap.ext_lookup h).symm⟩
  | cons txin vin ih =>
    rw [foldlM_cons_eq_ok, List.forall_mem_cons, List.map_cons]
    simp only [fetchInput_eq_ok hmode, ih, List.mem_cons]
    -- what one more input adds to the map, and to the keys that are known
    have hor : ∀ inputs₁ : MapPrevTx, (∀ h, inputs₁.lookup h = (inputs.lookup h).or
          (if h = txin.prevout.hash then v.prevTx? (q ∪ txdb) h else none)) →
        (∀ h, (inputs₁.lookup h).or
            (if h ∈ vin.map (·.prevout.hash) then v.prevTx? (q ∪ txdb) h else none) =
          (inputs.lookup h).or (if h = txin.prevout.hash ∨ h ∈ vin.map (·.prevout.hash) then
            v.prevTx? (q ∪ txdb) h else none)) ∧
        ∀ h, (h ∈ inputs₁ ∨ (v.prevTx? (q ∪ txdb) h).isSome) ↔
          (h ∈ inputs ∨ (v.prevTx? (q ∪ txdb) h).isSome) := by
      intro inputs₁ hlook
      constructor
      · intro h
        rw [hlook, Option.or_assoc, ite_or_ite]
      · intro h
        rw [← Finmap.lookup_isSome, ← Finmap.lookup_isSome, hlook]
        by_cases hh : h = txin.prevout.hash <;> simp [hh]
    constructor
    · rintro ⟨inputs₁, ⟨hhd, hlook₁⟩, hall, hlook⟩
      obtain ⟨hor₁, hmem⟩ := hor inputs₁ hlook₁
      exact ⟨⟨hhd, fun t ht => (hmem _).mp (hall t ht)⟩, fun h => (hlook h).trans (hor₁ h)⟩
    · rintro ⟨⟨hhd, hall⟩, hlook⟩
      obtain ⟨inputs₁, hlook₁⟩ := exists_lookup_or inputs txin.prevout.hash
        (v.prevTx? (q ∪ txdb))
      obtain ⟨hor₁, hmem⟩ := hor inputs₁ hlook₁
      exact ⟨inputs₁, ⟨hhd, hlook₁⟩, fun t ht => (hmem _).mpr (hall t ht),
        fun h => (hlook h).trans (hor₁ h).symm⟩

/-! ## The claimed outputs -/

/-- An output that an input claims: the index entry and the transaction it is found in, and the
output itself. -/
structure Claim where
  txindex : CTxIndex
  txPrev : CTransaction
  txout : CTxOut

/-- The output at an outpoint, when both the transaction and its index entry have it. -/
def ChainView.claim? (v : ChainView) (m : TxIndexMap) (o : COutPoint) : Option Claim :=
  (v.prevTx? m o.hash).bind fun p =>
    if o.n < p.1.vSpent.length then (p.2.vout[o.n]?).map fun txout => ⟨p.1, p.2, txout⟩ else none

theorem ChainView.claim?_eq_some {v : ChainView} {m : TxIndexMap} {o : COutPoint} {c : Claim} :
    v.claim? m o = some c ↔ m.lookup o.hash = some c.txindex ∧
      v.readPrev o.hash c.txindex = some c.txPrev ∧ o.n < c.txindex.vSpent.length ∧
      c.txPrev.vout[o.n]? = some c.txout := by
  obtain ⟨e, tx, out⟩ := c
  simp only [claim?, Option.bind_eq_some_iff, Prod.exists, prevTx?_eq_some,
    Option.ite_none_right_eq_some, Option.map_eq_some_iff, Claim.mk.injEq]
  constructor
  · rintro ⟨e', tx', ⟨he, htx⟩, hn, out', hout, rfl, rfl, rfl⟩
    exact ⟨he, htx, hn, hout⟩
  · rintro ⟨he, htx, hn, hout⟩
    exact ⟨e, tx, ⟨he, htx⟩, hn, out, hout, rfl, rfl, rfl⟩

/-- The value of the output at an outpoint. -/
def ChainView.valueAt (v : ChainView) (m : TxIndexMap) (o : COutPoint) : ℤ :=
  (v.claim? m o).elim 0 fun c => c.txout.nValue

/-- The exact sum of the values a transaction claims. -/
def ChainView.valueIn (v : ChainView) (m : TxIndexMap) (tx : CTransaction) : ℤ :=
  (tx.prevouts.map (v.valueAt m)).sum

/-- The signature operations of the pay-to-script-hash outputs a transaction claims. -/
def ChainView.p2shSigOps (v : ChainView) (m : TxIndexMap) (tx : CTransaction) : ℕ :=
  (tx.vin.map fun txin => (v.claim? m txin.prevout).elim 0 fun c =>
    if c.txout.scriptPubKey.isPayToScriptHash then
      c.txout.scriptPubKey.getP2SHSigOpCount txin.scriptSig else 0).sum

/-- The fetched map holds the previous transactions of `tx`. -/
def ChainView.Fetched (v : ChainView) (m : TxIndexMap) (tx : CTransaction)
    (inputs : MapPrevTx) : Prop :=
  ∀ h, inputs.lookup h =
    if h ∈ tx.vin.map (·.prevout.hash) then v.prevTx? m h else none

/-- The previous transactions of `tx` can be collected. -/
theorem exists_fetched (v : ChainView) (m : TxIndexMap) (tx : CTransaction) :
    ∃ inputs, v.Fetched m tx inputs := by
  unfold ChainView.Fetched
  induction tx.vin.map (·.prevout.hash) with
  | nil => exact ⟨∅, fun h => by simp⟩
  | cons k l ih =>
    obtain ⟨inputs, hin⟩ := ih
    obtain ⟨inputs', hin'⟩ := exists_lookup_or inputs k (v.prevTx? m)
    refine ⟨inputs', fun h => ?_⟩
    rw [hin', hin, ite_or_ite]
    simp only [List.mem_cons, or_comm]

/-- `FetchInputs` succeeds exactly when every claimed output exists, and it returns exactly the
previous transactions. -/
theorem fetchInputs_eq_ok {v : ChainView} {txdb q : TxIndexMap} {fBlock fMiner : Bool}
    (hmode : (fBlock || fMiner) = true) {tx : CTransaction} (hcb : tx.isCoinBase = false)
    {inputs : MapPrevTx} :
    tx.fetchInputs v txdb q fBlock fMiner = .ok inputs ↔
      (∀ txin ∈ tx.vin, (v.claim? (q ∪ txdb) txin.prevout).isSome) ∧
        v.Fetched (q ∪ txdb) tx inputs := by
  rw [CTransaction.fetchInputs, if_neg (by simp [hcb])]
  simp only [bind_eq_ok, ensure_eq_ok, pure_eq_ok, exists_and_left, exists_const,
    foldlM_fetchInput_eq_ok hmode, Finmap.notMem_empty, false_or, Finmap.lookup_empty,
    Option.none_or]
  have hrange : ∀ inputs : MapPrevTx, v.Fetched (q ∪ txdb) tx inputs → ∀ txin ∈ tx.vin,
      (prevoutInRange inputs txin = true ↔
        (v.claim? (q ∪ txdb) txin.prevout).isSome = true) := by
    intro inputs hfetch txin htxin
    have hlook := hfetch txin.prevout.hash
    rw [if_pos (List.mem_map_of_mem htxin)] at hlook
    rw [prevoutInRange, ChainView.claim?, hlook]
    cases v.prevTx? (q ∪ txdb) txin.prevout.hash with
    | none => simp
    | some p =>
      rw [Option.bind_some]
      by_cases h1 : txin.prevout.n < p.1.vSpent.length <;>
        by_cases h2 : txin.prevout.n < p.2.vout.length <;> simp [h1, h2]
  constructor
  · rintro ⟨inputs', ⟨-, hfetch⟩, hall, rfl⟩
    exact ⟨fun txin htxin => (hrange _ hfetch txin htxin).mp (List.all_eq_true.mp hall _ htxin),
      hfetch⟩
  · rintro ⟨hclaim, hfetch⟩
    refine ⟨inputs, ⟨fun txin htxin => ?_, hfetch⟩, List.all_eq_true.mpr fun txin htxin =>
      (hrange _ hfetch txin htxin).mpr (hclaim txin htxin), rfl⟩
    obtain ⟨c, hc⟩ := Option.isSome_iff_exists.mp (hclaim txin htxin)
    obtain ⟨p, hp, -⟩ := Option.bind_eq_some_iff.mp hc
    rw [hp]
    rfl

end FoxCoin
