import FoxCoin.SignRaw

/-! # What a call of signrawtransaction does

The signing loop goes through the inputs, and what it does to one does not depend on the others. A
call does what it should exactly when no previous output is missing. -/

namespace FoxCoin

open Checked Counting

variable {Key : Type} {env : ScriptEnv} {ops : KeyOps Key} {keystore : KeyStore Key}
  {scriptPubKey : CScript} {tx : CTransaction} {nIn : ℕ} {nHashType : BitVec 32} {v : ChainView}
  {txdb : TxIndexMap} {txin : CTxIn} {mapPrevOut : StdMap COutPoint CScript}

/-! ## The signing loop -/

section Loop

variable {left : CScript → Stack} {call : SignRawCall Key} {i : ℕ} {mergedTx base : CTransaction}
  {variants : List CTransaction}

/-- The script that signing an input and merging gives, from the transactions of the call alone. -/
def signedScript (env : ScriptEnv) (ops : KeyOps Key) (left : CScript → Stack)
    (call : SignRawCall Key) (nHashType : BitVec 32) (tx : CTransaction) (i : ℕ)
    (prevPubKey : CScript) : CScript :=
  call.txVariants.foldl (fun scriptSig txv =>
      combineSignatures env ⟨tx, i, 0⟩ left prevPubKey scriptSig (txv.scriptSigAt i))
    ((signSignature env ops call.keystore prevPubKey tx i nHashType).2.scriptSigAt i)

variable (env left scriptPubKey) in
/-- Merging changes the script of the input, when every variant has the input. -/
theorem foldlM_mergeVariant (hcopy : SameCopy i tx base) (hi : i < base.vin.length)
    (hlen : ∀ txv ∈ variants, i < txv.vin.length) (s : CScript) :
    variants.foldlM (mergeVariant env left scriptPubKey i) (base.setScriptSig i s) =
      .ok (base.setScriptSig i (variants.foldl (fun scriptSig txv =>
        combineSignatures env ⟨tx, i, 0⟩ left scriptPubKey scriptSig (txv.scriptSigAt i)) s)) := by
  induction variants generalizing s with
  | nil => rfl
  | cons txv variants ih =>
    rw [List.forall_mem_cons] at hlen
    have hround : mergeVariant env left scriptPubKey i (base.setScriptSig i s) txv =
        .ok (base.setScriptSig i
          (combineSignatures env ⟨tx, i, 0⟩ left scriptPubKey s (txv.scriptSigAt i))) := by
      have hcopy' := hcopy.trans (sameCopy_setScriptSig i base s)
      have hother : txv.scriptSigAt i = txv.vin[i].scriptSig := by
        rw [CTransaction.scriptSigAt, List.getElem?_eq_getElem hlen.1]
        rfl
      rw [mergeVariant, List.getElem?_eq_getElem hlen.1, hother]
      simp only [scriptSigAt_setScriptSig hi, hcopy'.combineSignatures_eq, setScriptSig_setScriptSig]
    rw [List.foldlM_cons, hround, List.foldl_cons]
    exact ih hlen.2 _

theorem length_of_foldlM_mergeVariant {r : CTransaction}
    (h : variants.foldlM (mergeVariant env left scriptPubKey i) mergedTx = .ok r) :
    ∀ txv ∈ variants, i < txv.vin.length := by
  induction variants generalizing mergedTx with
  | nil => exact fun txv hmem => (by cases hmem)
  | cons txv variants ih =>
    rw [List.foldlM_cons, mergeVariant] at h
    cases hin : txv.vin[i]? with
    | none =>
      rw [hin] at h
      cases h
    | some txin =>
      rw [hin] at h
      rw [List.forall_mem_cons]
      exact ⟨(List.getElem?_eq_some_iff.mp hin).1, ih h⟩

variable (env ops left nHashType) in
/-- A step of the signing loop at an input whose previous output is known. -/
theorem signInput_ok (hcopy : SameCopy i tx mergedTx) (hi : i < tx.vin.length)
    (hin : mergedTx.vin[i]? = some txin) (hlookup : mapPrevOut.lookup txin.prevout = some scriptPubKey)
    (hlen : ∀ txv ∈ call.txVariants, i < txv.vin.length) (fComplete : Bool) :
    ∃ f, signInput env ops left call mapPrevOut nHashType (mergedTx, fComplete) i =
      .ok (mergedTx.setScriptSig i (signedScript env ops left call nHashType tx i scriptPubKey), f) := by
  obtain ⟨s, hs⟩ := exists_signSignature_snd env ops call.keystore scriptPubKey tx i nHashType
  have hscript : (signSignature env ops call.keystore scriptPubKey tx i nHashType).2.scriptSigAt i =
      s := by
    rw [hs tx fun _ _ => rfl]
    exact scriptSigAt_setScriptSig hi s
  have hmerge := foldlM_mergeVariant env scriptPubKey left hcopy
    (List.getElem?_eq_some_iff.mp hin).1 hlen s
  rw [signInput]
  simp only [hin, Option.bind_some, hlookup, hs mergedTx hcopy, hmerge, signedScript, hscript]
  exact ⟨_, rfl⟩

theorem prevouts_setScriptSig (tx : CTransaction) (i : ℕ) (s : CScript) :
    (tx.setScriptSig i s).vin.map CTxIn.prevout = tx.vin.map CTxIn.prevout := by
  refine List.ext_getElem? fun j => ?_
  rw [CTransaction.setScriptSig, List.getElem?_map, List.getElem?_map, List.getElem?_modify]
  split
  next => cases tx.vin[j]? <;> rfl
  next => cases tx.vin[j]? <;> rfl

theorem prevouts_mergeVariant {txv r : CTransaction}
    (h : mergeVariant env left scriptPubKey i mergedTx txv = .ok r) :
    r.vin.map CTxIn.prevout = mergedTx.vin.map CTxIn.prevout := by
  rw [mergeVariant] at h
  split at h
  next => cases h
  next =>
    obtain rfl := Except.ok.inj h
    exact prevouts_setScriptSig _ _ _

/-- A step of the signing loop leaves the previous outputs, and reads no variant out of range. -/
theorem signInput_inRange {st r : CTransaction × Bool}
    (h : signInput env ops left call mapPrevOut nHashType st i = .ok r) :
    r.1.vin.map CTxIn.prevout = st.1.vin.map CTxIn.prevout ∧
      ∀ txin, st.1.vin[i]? = some txin → txin.prevout ∈ mapPrevOut →
        ∀ txv ∈ call.txVariants, i < txv.vin.length := by
  obtain ⟨mergedTx, fComplete⟩ := st
  rw [signInput] at h
  cases hknown : (mergedTx.vin[i]?).bind fun txin => mapPrevOut.lookup txin.prevout with
  | none =>
    simp only [hknown] at h
    obtain rfl := Except.ok.inj h
    refine ⟨rfl, fun txin hin hmem => ?_⟩
    rw [hin, Option.bind_some, Finmap.lookup_eq_none] at hknown
    exact absurd hmem hknown
  | some prevPubKey =>
    simp only [hknown] at h
    cases hmerge : call.txVariants.foldlM (mergeVariant env left prevPubKey i)
        (signSignature env ops call.keystore prevPubKey mergedTx i nHashType).2 with
    | error e =>
      rw [hmerge] at h
      cases h
    | ok m =>
      rw [hmerge] at h
      obtain rfl := Except.ok.inj h
      obtain ⟨s, hs⟩ := exists_signSignature_snd env ops call.keystore prevPubKey mergedTx i nHashType
      refine ⟨?_, fun _ _ _ => length_of_foldlM_mergeVariant hmerge⟩
      refine foldlM_invariant (I := fun tx => tx.vin.map CTxIn.prevout = mergedTx.vin.map CTxIn.prevout)
        (fun tx txv tx' _ htx hround => (prevouts_mergeVariant hround).trans htx) ?_ hmerge
      rw [hs mergedTx fun _ _ => rfl, prevouts_setScriptSig]

/-- The loop reads no variant out of range when it ends. -/
theorem foldlM_signInput_inRange {is : List ℕ} {st r : CTransaction × Bool}
    (h : is.foldlM (signInput env ops left call mapPrevOut nHashType) st = .ok r)
    (hprev : st.1.vin.map CTxIn.prevout = tx.vin.map CTxIn.prevout) :
    ∀ i ∈ is, ∀ txin, tx.vin[i]? = some txin → txin.prevout ∈ mapPrevOut →
      ∀ txv ∈ call.txVariants, i < txv.vin.length := by
  induction is generalizing st with
  | nil => exact fun i hi => (by cases hi)
  | cons j is ih =>
    rw [List.foldlM_cons] at h
    cases hround : signInput env ops left call mapPrevOut nHashType st j with
    | error e =>
      rw [hround] at h
      cases h
    | ok st' =>
      rw [hround] at h
      obtain ⟨hprev', hrange⟩ := signInput_inRange hround
      intro i hi txin hin hmem
      obtain rfl | hi := List.mem_cons.mp hi
      · have hsame : st.1.vin[i]?.map CTxIn.prevout = some txin.prevout := by
          rw [← List.getElem?_map, hprev, List.getElem?_map, hin]
          rfl
        obtain ⟨txin', hin', hout⟩ := Option.map_eq_some_iff.mp hsame
        exact hrange txin' hin' (hout ▸ hmem)
      · exact ih h (hprev'.trans hprev) i hi txin hin hmem

/-- The script that the loop leaves in an input. -/
def loopScript (env : ScriptEnv) (ops : KeyOps Key) (left : CScript → Stack) (call : SignRawCall Key)
    (mapPrevOut : StdMap COutPoint CScript) (nHashType : BitVec 32) (tx : CTransaction) (i : ℕ) :
    CScript :=
  match (tx.vin[i]?).bind fun txin => mapPrevOut.lookup txin.prevout with
  | none => tx.scriptSigAt i
  | some prevPubKey => signedScript env ops left call nHashType tx i prevPubKey

theorem withScriptSigs_scriptSigAt (tx : CTransaction) :
    (tx.withScriptSigs fun i => tx.scriptSigAt i) = tx := by
  have hvin : (tx.vin.mapIdx fun i txin => ({ txin with scriptSig := tx.scriptSigAt i } : CTxIn)) =
      tx.vin := by
    refine List.ext_getElem (by simp) fun i hi hi' => ?_
    rw [List.getElem_mapIdx, CTransaction.scriptSigAt, List.getElem?_eq_getElem hi']
    rfl
  rw [CTransaction.withScriptSigs, hvin]

theorem scriptSigAt_withScriptSigs (hi : nIn < tx.vin.length) (f : ℕ → CScript) :
    (tx.withScriptSigs f).scriptSigAt nIn = f nIn := by
  rw [CTransaction.scriptSigAt, CTransaction.withScriptSigs, List.getElem?_mapIdx,
    List.getElem?_eq_getElem hi]
  rfl

theorem setScriptSig_withScriptSigs (tx : CTransaction) (f : ℕ → CScript) (i : ℕ) (s : CScript) :
    (tx.withScriptSigs f).setScriptSig i s = tx.withScriptSigs (Function.update f i s) := by
  have hvin : (tx.vin.mapIdx fun j txin => ({ txin with scriptSig := f j } : CTxIn)).modify i
      (fun txin => { txin with scriptSig := s }) =
        tx.vin.mapIdx fun j txin => { txin with scriptSig := Function.update f i s j } := by
    refine List.ext_getElem (by simp) fun j hj hj' => ?_
    rw [List.getElem_modify, List.getElem_mapIdx, List.getElem_mapIdx]
    split
    next h =>
      subst h
      rw [Function.update_self]
    next h => rw [Function.update_of_ne (Ne.symm h)]
  rw [CTransaction.setScriptSig, CTransaction.withScriptSigs, CTransaction.withScriptSigs, hvin]

variable (env ops left nHashType) in
/-- **The loop signs every input whose previous output is known**, whatever the others are. -/
theorem foldlM_signInput {n : ℕ} (hn : n ≤ tx.vin.length)
    (hlen : ∀ i txin, tx.vin[i]? = some txin → txin.prevout ∈ mapPrevOut →
      ∀ txv ∈ call.txVariants, i < txv.vin.length) :
    ∃ f, (List.range n).foldlM (signInput env ops left call mapPrevOut nHashType) (tx, true) =
      .ok (tx.withScriptSigs fun i => if i < n then
        loopScript env ops left call mapPrevOut nHashType tx i else tx.scriptSigAt i, f) := by
  induction n with
  | zero =>
    refine ⟨true, ?_⟩
    simp only [Nat.not_lt_zero, if_false, withScriptSigs_scriptSigAt]
    rfl
  | succ n ih =>
    obtain ⟨f, hok⟩ := ih (by omega)
    -- the scripts after the round are those before it, but for the one of this input
    have hupdate : (fun i => if i < n + 1 then
        loopScript env ops left call mapPrevOut nHashType tx i else tx.scriptSigAt i) =
          Function.update (fun i => if i < n then
            loopScript env ops left call mapPrevOut nHashType tx i else tx.scriptSigAt i) n
              (loopScript env ops left call mapPrevOut nHashType tx n) := by
      funext i
      by_cases hi : i = n
      · rw [hi, Function.update_self, if_pos (Nat.lt_succ_self n)]
      · rw [Function.update_of_ne hi]
        exact if_congr (by omega) rfl rfl
    rw [List.range_succ, List.foldlM_append, hok, hupdate, ← setScriptSig_withScriptSigs]
    set mergedTx := tx.withScriptSigs fun i => if i < n then
      loopScript env ops left call mapPrevOut nHashType tx i else tx.scriptSigAt i with hmerged
    have hvin : ∃ txin', mergedTx.vin[n]? = some txin' ∧ txin'.prevout = tx.vin[n].prevout ∧
        txin'.scriptSig = tx.scriptSigAt n := by
      refine ⟨{ tx.vin[n] with scriptSig := tx.scriptSigAt n }, ?_, rfl, rfl⟩
      rw [hmerged, CTransaction.withScriptSigs, List.getElem?_mapIdx, List.getElem?_eq_getElem hn]
      simp
    obtain ⟨txin', hin', hout, hscript⟩ := hvin
    have hin : tx.vin[n]? = some tx.vin[n] := List.getElem?_eq_getElem hn
    cases hknown : mapPrevOut.lookup tx.vin[n].prevout with
    | none =>
      refine ⟨false, ?_⟩
      have hself : mergedTx.setScriptSig n (loopScript env ops left call mapPrevOut nHashType tx n) =
          mergedTx := by
        rw [loopScript, hin, Option.bind_some, hknown, hmerged, setScriptSig_withScriptSigs]
        congr 1
        rw [Function.update_eq_self_iff]
        simp
      rw [hself]
      show (signInput env ops left call mapPrevOut nHashType (mergedTx, f) n >>= pure) = _
      rw [signInput, hin', Option.bind_some, hout, hknown]
      rfl
    | some prevPubKey =>
      -- the other scripts are blanked before a hash, so that earlier rounds do not matter
      have hcopy : SameCopy n tx mergedTx := fun code t => signatureTx_withScriptSigs _
      obtain ⟨f', hround⟩ := signInput_ok env ops nHashType left hcopy hn hin' (hout ▸ hknown)
        (hlen n _ hin (Finmap.lookup_isSome.mp (by rw [hknown]; rfl))) f
      refine ⟨f', ?_⟩
      have hloop : loopScript env ops left call mapPrevOut nHashType tx n =
          signedScript env ops left call nHashType tx n prevPubKey := by
        rw [loopScript, hin, Option.bind_some, hknown]
      rw [hloop]
      show (signInput env ops left call mapPrevOut nHashType (mergedTx, f) n >>= pure) = _
      rw [hround]
      rfl

end Loop

/-! ## What a call does -/

section Calls

variable {left : CScript → Stack} {call : SignRawCall Key} {i : ℕ} {mergedTx : CTransaction}

/-- The call refuses its other parameters: a previous output that is malformed or contradicts
another one, or a hash type that there is not. -/
def SignRawCall.Refused (v : ChainView) (txdb : TxIndexMap) (call : SignRawCall Key)
    (tx : CTransaction) : Prop :=
  (∃ e, prevOuts v txdb call tx = .error e) ∨ ∃ e, getHashType call.strHashType = .error e

/-- An unspent or spent output of the chain or the pool. The null outpoint is none. -/
def ChainOutput (v : ChainView) (txdb : TxIndexMap) (o : COutPoint) (scriptPubKey : CScript) : Prop :=
  o.isNull = false ∧ ∃ txPrev txout, lookupPrevTx v txdb o.hash = some txPrev ∧
    txPrev.vout[o.n]? = some txout ∧ txout.scriptPubKey = scriptPubKey

/-- The previous outputs of a transaction are all in the chain or the pool. A coinbase has none. -/
def CTransaction.AllKnown (v : ChainView) (txdb : TxIndexMap) (tx : CTransaction) : Prop :=
  tx.isCoinBase = true ∨ ∀ txin ∈ tx.vin, ∃ txPrev,
    lookupPrevTx v txdb txin.prevout.hash = some txPrev ∧ txin.prevout.n < txPrev.vout.length

/-- An output is known when it is in the chain or the pool, or when the call gives it. -/
def SignRawCall.Knows (v : ChainView) (txdb : TxIndexMap) (call : SignRawCall Key) (o : COutPoint)
    (scriptPubKey : CScript) : Prop :=
  ChainOutput v txdb o scriptPubKey ∨ ∃ p ∈ call.prevTxs, p.Gives o scriptPubKey

variable (v txdb) in
/-- A transaction that is no coinbase has an output that is not known exactly when an index is out
of range. -/
theorem copyPrevOuts_cases (hcoin : tx.isCoinBase = false) :
    (¬tx.AllKnown v txdb ∧
        tx.vin.foldlM (copyPrevOut (tx.fetchedInputs v txdb)) ∅ = .error .outOfRange) ∨
      (tx.AllKnown v txdb ∧ ∃ m, tx.vin.foldlM (copyPrevOut (tx.fetchedInputs v txdb)) ∅ = .ok m ∧
        (∀ txin ∈ tx.vin, txin.prevout ∈ m) ∧
        ∀ o s, m.lookup o = some s → ∃ txPrev txout, lookupPrevTx v txdb o.hash = some txPrev ∧
          txPrev.vout[o.n]? = some txout ∧ txout.scriptPubKey = s) := by
  have hstart : Fetched v txdb ∅ := fun hash e he => by cases he
  have hfetched : tx.fetchedInputs v txdb = (fetchLoop v txdb tx.vin ∅).2 := by
    rw [CTransaction.fetchedInputs, hcoin]
    rfl
  rw [hfetched]
  obtain ⟨hall, -, hmem⟩ | ⟨txin, hmem, hnone, e, he, hempty⟩ := fetchLoop_cases hstart tx.vin
  · by_cases hknown : tx.AllKnown v txdb
    · have hrange : ∀ txin ∈ tx.vin, ∀ e, (fetchLoop v txdb tx.vin ∅).2.lookup txin.prevout.hash =
          some e → txin.prevout.n < e.2.vout.length := by
        intro txin htxin e he
        obtain hcoin' | hinputs := hknown
        · rw [hcoin] at hcoin'
          cases hcoin'
        · obtain ⟨txPrev, hlookup, hlt⟩ := hinputs txin htxin
          rw [hall _ e he] at hlookup
          obtain rfl := Option.some.inj hlookup
          exact hlt
      obtain ⟨m, hok, houtputs, -, hin⟩ := @foldlM_copyPrevOut_ok _ ∅ _ hrange
        (fun o s hs => by cases hs)
      refine .inr ⟨hknown, m, hok, fun txin htxin => hin txin htxin (hmem txin htxin),
        fun o s hs => ?_⟩
      obtain ⟨e, txout, he, hout, hscript⟩ := houtputs o s hs
      exact ⟨e.2, txout, hall _ e he, hout, hscript⟩
    · -- an input is unknown although its transaction was fetched: its output is missing
      refine .inl ⟨hknown, foldlM_copyPrevOut_error ?_⟩
      rw [CTransaction.AllKnown, not_or, not_forall] at hknown
      obtain ⟨txin, htxin⟩ := hknown.2
      rw [Classical.not_imp] at htxin
      obtain ⟨hin, hmissing⟩ := htxin
      obtain ⟨e, he⟩ := Option.isSome_iff_exists.mp (Finmap.lookup_isSome.mpr (hmem txin hin))
      refine ⟨txin, hin, e, he, ?_⟩
      by_contra hlt
      exact hmissing ⟨e.2, hall _ e he, not_le.mp hlt⟩
  · refine .inl ⟨?_, foldlM_copyPrevOut_error ⟨txin, hmem, e, he, by rw [hempty]; exact Nat.zero_le _⟩⟩
    rintro (hcoin' | hinputs)
    · rw [hcoin] at hcoin'
      cases hcoin'
    · obtain ⟨txPrev, hlookup, -⟩ := hinputs txin hmem
      rw [hnone] at hlookup
      cases hlookup

theorem exists_of_isCoinBase (h : tx.isCoinBase = true) :
    ∃ txin, tx.vin = [txin] ∧ txin.prevout.isNull = true := by
  rw [CTransaction.isCoinBase] at h
  split at h
  next txin hvin => exact ⟨txin, hvin, h⟩
  next => cases h

/-- Nothing is fetched for a coinbase. -/
theorem copyPrevOuts_coinBase (h : tx.isCoinBase = true) :
    tx.vin.foldlM (copyPrevOut (tx.fetchedInputs v txdb)) ∅ = .ok ∅ := by
  obtain ⟨txin, hvin, -⟩ := exists_of_isCoinBase h
  rw [CTransaction.fetchedInputs, if_pos h, hvin]
  rfl

theorem addPrevTx_ne_outOfRange {p : PrevTxParam} {e : RpcError}
    (h : addPrevTx mapPrevOut p = .error e) : e ≠ .outOfRange := by
  rintro rfl
  rw [addPrevTx] at h
  split at h
  next => cases h
  next =>
    split at h
    next => cases h
    next =>
      split at h
      next => cases h
      next =>
        dsimp only at h
        split at h
        next => cases h
        next =>
          split at h
          next => cases h
          next => cases h

/-- The known outputs of the inputs are in `mapPrevOut`. -/
theorem lookup_prevOuts (hknown : tx.AllKnown v txdb) {m : StdMap COutPoint CScript}
    (hok : prevOuts v txdb call tx = .ok m) {txin : CTxIn} (hmem : txin ∈ tx.vin) :
    (tx.isCoinBase = false → txin.prevout ∈ m) ∧
      ∀ s, call.Knows v txdb txin.prevout s → m.lookup txin.prevout = some s := by
  rw [prevOuts] at hok
  cases hcoin : tx.isCoinBase with
  | true =>
    rw [copyPrevOuts_coinBase hcoin] at hok
    refine ⟨fun h => (by cases h), fun s hs => ?_⟩
    obtain ⟨hnull, -⟩ | ⟨p, hp, hgives⟩ := hs
    · obtain ⟨txin', hvin, hnull'⟩ := exists_of_isCoinBase hcoin
      rw [hvin, List.mem_singleton] at hmem
      rw [hmem, hnull'] at hnull
      cases hnull
    · exact (foldlM_addPrevTx_ok hok).2.1 p hp _ s hgives
  | false =>
    obtain ⟨hunknown, -⟩ | ⟨-, m0, hm0, hin, hchain⟩ := copyPrevOuts_cases v txdb hcoin
    · exact absurd hknown hunknown
    · rw [hm0] at hok
      obtain ⟨hkeep, hgiven, -⟩ := foldlM_addPrevTx_ok hok
      obtain ⟨s0, hs0⟩ := Option.isSome_iff_exists.mp (Finmap.lookup_isSome.mpr (hin txin hmem))
      refine ⟨fun _ => Finmap.lookup_isSome.mp (by rw [hkeep _ s0 hs0]; rfl), fun s hs => ?_⟩
      obtain ⟨-, txPrev, txout, hlookup, hout, rfl⟩ | ⟨p, hp, hgives⟩ := hs
      · obtain ⟨txPrev', txout', hlookup', hout', rfl⟩ := hchain _ s0 hs0
        obtain rfl := Option.some.inj (hlookup.symm.trans hlookup')
        obtain rfl := Option.some.inj (hout.symm.trans hout')
        exact hkeep _ _ hs0
      · exact hgiven p hp _ s hgives

/-- A coinbase has no input that is signed. -/
theorem notMem_prevOuts_coinBase (hcoin : tx.isCoinBase = true) {m : StdMap COutPoint CScript}
    (hok : prevOuts v txdb call tx = .ok m) {txin : CTxIn} (hmem : txin ∈ tx.vin) :
    txin.prevout ∉ m := by
  rw [prevOuts, copyPrevOuts_coinBase hcoin] at hok
  obtain ⟨txin', hvin, hnull⟩ := exists_of_isCoinBase hcoin
  rw [hvin, List.mem_singleton] at hmem
  subst hmem
  intro hin
  obtain ⟨s, hs⟩ := Option.isSome_iff_exists.mp (Finmap.lookup_isSome.mpr hin)
  obtain h | ⟨p, -, hgives⟩ := (foldlM_addPrevTx_ok hok).2.2 _ s hs
  · cases h
  · have hlt := p.vout_lt
    rw [COutPoint.isNull, Bool.and_eq_true, beq_iff_eq, beq_iff_eq] at hnull
    rw [hgives.2.1, hnull.2, uintMax] at hlt
    omega

theorem mergeVariant_error {txv : CTransaction} {e : RpcError}
    (h : mergeVariant env left scriptPubKey i mergedTx txv = .error e) : e = .outOfRange := by
  rw [mergeVariant] at h
  split at h
  next => exact (Except.error.inj h).symm
  next => cases h

theorem signInput_error {st : CTransaction × Bool} {e : RpcError}
    (h : signInput env ops left call mapPrevOut nHashType st i = .error e) : e = .outOfRange := by
  obtain ⟨mergedTx, fComplete⟩ := st
  rw [signInput] at h
  split at h
  next => cases h
  next prevPubKey _ =>
    dsimp only at h
    cases hmerge : call.txVariants.foldlM (mergeVariant env left prevPubKey i)
        (signSignature env ops call.keystore prevPubKey mergedTx i nHashType).2 with
    | error e' =>
      rw [hmerge] at h
      obtain rfl := Except.error.inj h
      exact foldlM_error (E := (· = .outOfRange)) (fun _ _ _ he => mergeVariant_error he) hmerge
    | ok m =>
      rw [hmerge] at h
      cases h

variable (env ops left v txdb call) in
/-- What a call should do: no index is out of range, and every input whose previous output is known
is signed, merged with the other variants, and for a single key accepted, whatever the other inputs
are. -/
structure SignsKnown : Prop where
  inRange : signRawTransaction env ops left v txdb call ≠ .error .outOfRange
  signed : ∀ tx others mergedTx fComplete nHashType, call.txVariants = tx :: others →
    getHashType call.strHashType = .ok nHashType →
    signRawTransaction env ops left v txdb call = .ok (mergedTx, fComplete) →
    ∀ i txin prevPubKey, tx.vin[i]? = some txin → call.Knows v txdb txin.prevout prevPubKey →
      mergedTx.scriptSigAt i = signedScript env ops left call nHashType tx i prevPubKey ∧
        (SingleKeyOutput call.keystore prevPubKey →
          (signSignature env ops call.keystore prevPubKey tx i nHashType).1 = true →
            verifyScript env ⟨mergedTx, i, 0⟩ (mergedTx.scriptSigAt i) prevPubKey true = .ok true)

/-- The previous outputs of the first variant are all in the chain or the pool, and the other
variants have as many inputs unless the call is refused before signing. -/
def SignRawCall.Resolvable (v : ChainView) (txdb : TxIndexMap) (call : SignRawCall Key) : Prop :=
  ∀ tx others, call.txVariants = tx :: others → tx.AllKnown v txdb ∧
    (tx.isCoinBase = true ∨ call.Refused v txdb tx ∨
      ∀ txv ∈ call.txVariants, tx.vin.length ≤ txv.vin.length)

/-- A call that reads nothing out of range. -/
theorem resolvable_of_inRange
    (h : signRawTransaction env ops left v txdb call ≠ .error .outOfRange) :
    call.Resolvable v txdb := by
  intro tx others hvariants
  rw [signRawTransaction, hvariants] at h
  dsimp only at h
  have hknown : tx.AllKnown v txdb := by
    by_contra hunknown
    have hcoin : tx.isCoinBase = false := by
      rw [← Bool.not_eq_true]
      exact fun hcoin => hunknown (.inl hcoin)
    obtain ⟨-, herror⟩ | ⟨hknown, -⟩ := copyPrevOuts_cases v txdb hcoin
    · rw [prevOuts, herror] at h
      exact h rfl
    · exact hunknown hknown
  refine ⟨hknown, ?_⟩
  cases hcoin : tx.isCoinBase with
  | true => exact .inl rfl
  | false =>
    refine .inr ?_
    cases hprev : prevOuts v txdb call tx with
    | error e => exact .inl (.inl ⟨e, hprev⟩)
    | ok m =>
      cases htype : getHashType call.strHashType with
      | error e => exact .inl (.inr ⟨e, htype⟩)
      | ok nHashType =>
        rw [hprev, htype] at h
        cases hloop : (List.range tx.vin.length).foldlM
            (signInput env ops left call m nHashType) (tx, true) with
        | error e =>
          have herror := foldlM_error (E := (· = .outOfRange)) (fun _ _ _ he => signInput_error he) hloop
          exact absurd (hloop.trans (congrArg _ herror)) h
        | ok r =>
          have hrange := foldlM_signInput_inRange hloop rfl
          refine .inr fun txv htxv => ?_
          by_contra hlt
          rw [not_le] at hlt
          have hin := List.getElem?_eq_getElem hlt
          have hmem := (lookup_prevOuts hknown hprev (List.getElem_mem hlt)).1 hcoin
          exact absurd (hrange _ (List.mem_range.mpr hlt) _ hin hmem txv htxv) (lt_irrefl _)

/-- Before signing nothing is out of range. -/
theorem prevOuts_error (hknown : tx.AllKnown v txdb) {e : RpcError}
    (h : prevOuts v txdb call tx = .error e) : e ≠ .outOfRange := by
  rw [prevOuts] at h
  have hcopied : ∃ m, tx.vin.foldlM (copyPrevOut (tx.fetchedInputs v txdb)) ∅ = .ok m := by
    cases hcoin : tx.isCoinBase with
    | true => exact ⟨∅, copyPrevOuts_coinBase hcoin⟩
    | false =>
      obtain ⟨hunknown, -⟩ | ⟨-, m, hm, -⟩ := copyPrevOuts_cases v txdb hcoin
      · exact absurd hknown hunknown
      · exact ⟨m, hm⟩
  obtain ⟨m, hm⟩ := hcopied
  rw [hm] at h
  exact foldlM_error (E := (· ≠ .outOfRange)) (fun _ _ _ he => addPrevTx_ne_outOfRange he) h

theorem getHashType_error {strHashType : Option String} {e : RpcError}
    (h : getHashType strHashType = .error e) : e ≠ .outOfRange := by
  rintro rfl
  cases strHashType with
  | none => cases h
  | some s =>
    rw [getHashType] at h
    split at h
    next => cases h
    next => cases h

variable (env ops left) in
/-- The result of a call that is not refused. -/
theorem signRawTransaction_eq_ok {others : List CTransaction} (hvariants : call.txVariants = tx :: others)
    (hresolvable : call.Resolvable v txdb) {m : StdMap COutPoint CScript}
    (hprev : prevOuts v txdb call tx = .ok m) (htype : getHashType call.strHashType = .ok nHashType) :
    ∃ f, signRawTransaction env ops left v txdb call =
      .ok (tx.withScriptSigs fun i => if i < tx.vin.length then
        loopScript env ops left call m nHashType tx i else tx.scriptSigAt i, f) := by
  obtain ⟨hknown, hlen⟩ := hresolvable tx others hvariants
  have hrange : ∀ i txin, tx.vin[i]? = some txin → txin.prevout ∈ m →
      ∀ txv ∈ call.txVariants, i < txv.vin.length := by
    intro i txin hin hmem txv htxv
    have hi := (List.getElem?_eq_some_iff.mp hin).1
    obtain hcoin | (⟨e, he⟩ | ⟨e, he⟩) | hall := hlen
    · exact absurd hmem (notMem_prevOuts_coinBase hcoin hprev (List.mem_of_getElem? hin))
    · rw [hprev] at he
      cases he
    · rw [htype] at he
      cases he
    · exact hi.trans_le (hall txv htxv)
  obtain ⟨f, hloop⟩ := foldlM_signInput env ops nHashType left le_rfl hrange
  refine ⟨f, ?_⟩
  rw [signRawTransaction, hvariants]
  simp only [hprev, htype]
  exact hloop

/-- A call that is resolvable reads nothing out of range. -/
theorem signRawTransaction_ne_outOfRange (h : call.Resolvable v txdb) :
    signRawTransaction env ops left v txdb call ≠ .error .outOfRange := by
  cases hvariants : call.txVariants with
  | nil =>
    rw [signRawTransaction, hvariants]
    exact fun hcases => by cases hcases
  | cons tx others =>
    obtain ⟨hknown, -⟩ := h tx others hvariants
    cases hprev : prevOuts v txdb call tx with
    | error e =>
      rw [signRawTransaction, hvariants]
      simp only [hprev]
      exact fun herror => prevOuts_error hknown hprev (Except.error.inj herror)
    | ok m =>
      cases htype : getHashType call.strHashType with
      | error e =>
        rw [signRawTransaction, hvariants]
        simp only [hprev, htype]
        exact fun herror => getHashType_error htype (Except.error.inj herror)
      | ok nHashType =>
        obtain ⟨f, hok⟩ := signRawTransaction_eq_ok env ops left hvariants h hprev htype
        rw [hok]
        exact fun hcases => by cases hcases

/-- A call that is resolvable. -/
theorem signsKnown_of_resolvable (h : call.Resolvable v txdb) :
    SignsKnown env ops v txdb left call := by
  refine ⟨signRawTransaction_ne_outOfRange h, fun tx others mergedTx fComplete nHashType hvariants
    htype hresult i txin prevPubKey hin hknows => ?_⟩
  obtain ⟨hknown, -⟩ := h tx others hvariants
  have hi := (List.getElem?_eq_some_iff.mp hin).1
  have hmem := List.mem_of_getElem? hin
  cases hprev : prevOuts v txdb call tx with
  | error e =>
    rw [signRawTransaction, hvariants] at hresult
    simp only [hprev] at hresult
    cases hresult
  | ok m =>
    obtain ⟨f, hok⟩ := signRawTransaction_eq_ok env ops left hvariants h hprev htype
    obtain rfl := (Prod.mk.inj (Except.ok.inj (hresult.symm.trans hok))).1
    have hscript : loopScript env ops left call m nHashType tx i =
        signedScript env ops left call nHashType tx i prevPubKey := by
      rw [loopScript, hin, Option.bind_some, (lookup_prevOuts hknown hprev hmem).2 _ hknows]
    rw [scriptSigAt_withScriptSigs hi, if_pos hi, hscript]
    refine ⟨rfl, fun hsingle hsign => ?_⟩
    obtain ⟨s, hs, hverify, hcombine⟩ := combineSignatures_signSignature hsingle hsign
    have hmerged : signedScript env ops left call nHashType tx i prevPubKey = s := by
      rw [signedScript, hs, scriptSigAt_setScriptSig hi]
      exact List.foldl_fixed' (fun txv : CTransaction => hcombine ⟨tx, i, 0⟩ left (txv.scriptSigAt i)) _
    have hcopy : SameCopy i tx (tx.withScriptSigs fun i => if i < tx.vin.length then
        loopScript env ops left call m nHashType tx i else tx.scriptSigAt i) :=
      fun code t => signatureTx_withScriptSigs _
    rw [hmerged, verifyScript_congr (hcopy.checkSig_eq 0)]
    exact hverify

end Calls

/-! ## A call without the previous transaction -/

/-- The only input claims an output that the call gives, of a transaction that is nowhere. -/
def exampleOfflineCall : SignRawCall Unit where
  txVariants := [exampleTx 1 [⟨5, 0⟩] [7]]
  prevTxs := [⟨some 5, 0, some (CScript.pushData [] examplePubKey ++ [UInt8.ofNat opChecksig]), by decide⟩]
  keystore := exampleKeyStore []
  strHashType := none

end FoxCoin
