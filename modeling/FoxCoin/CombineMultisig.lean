import FoxCoin.CombineSignatures
import FoxCoin.Lib.RangeScan

/-! # Merging multi-signatures

`CombineMultisig` puts the signatures of two stacks into one set, gives each public key a signature
that it verifies, and writes them in the order of the keys. The set does not tell from which side a
signature came, and the order is the one that `OP_CHECKMULTISIG` goes through the keys in. -/

namespace FoxCoin

open Checked Counting OrderedMatch RangeScan

/-! ## The set of the signatures -/

/-- The order of the set is that of strings of bytes. -/
theorem valtypeLe_iff {a b : Valtype} : valtypeLe a b = true ↔ a ≤ b := by
  induction a generalizing b with
  | nil => exact iff_of_true rfl (nil_le b)
  | cons x a ih =>
    cases b with
    | nil => exact iff_of_false Bool.false_ne_true (not_le.mpr (List.nil_lt_cons x a))
    | cons y b =>
      rw [valtypeLe, Bool.or_eq_true, Bool.and_eq_true, decide_eq_true_iff, decide_eq_true_iff, ih,
        cons_le_cons_iff]

/-- **The set does not depend on the sides.** -/
theorem allSigs_comm (sigs1 sigs2 : Stack) : allSigs sigs1 sigs2 = allSigs sigs2 sigs1 := by
  have hperm : (allSigs sigs1 sigs2).Perm (allSigs sigs2 sigs1) := by
    refine (List.perm_insertionSort _ _).trans (List.Perm.trans ?_ (List.perm_insertionSort _ _).symm)
    exact (List.perm_append_comm.filter _).dedup
  have : Std.Total fun a b : Valtype => valtypeLe a b = true :=
    ⟨fun a b => (le_total a b).imp valtypeLe_iff.mpr valtypeLe_iff.mpr⟩
  have : IsTrans Valtype fun a b => valtypeLe a b = true :=
    ⟨fun a b c hab hbc => valtypeLe_iff.mpr ((valtypeLe_iff.mp hab).trans (valtypeLe_iff.mp hbc))⟩
  -- two sorted lists with the same elements are the same
  exact hperm.eq_of_pairwise
    (fun _ _ _ _ hab hba => le_antisymm (valtypeLe_iff.mp hab) (valtypeLe_iff.mp hba))
    (List.pairwise_insertionSort _ _) (List.pairwise_insertionSort _ _)

theorem mem_allSigs {sigs1 sigs2 : Stack} {sig : Valtype} :
    sig ∈ allSigs sigs1 sigs2 ↔ sig ∈ sigs1 ++ sigs2 ∧ sig ≠ [] := by
  rw [allSigs, List.mem_insertionSort, List.mem_dedup, List.mem_filter]
  simp

/-! ## The signatures of the keys -/

variable {check : Valtype → Valtype → Bool} {pubkeys : List Valtype} {sigs1 sigs2 : Stack}

/-- No signature is valid for two of the keys. -/
def SingleKeyed (check : Valtype → Valtype → Bool) (pubkeys : List Valtype) (sigs : List Valtype) :
    Prop :=
  ∀ sig ∈ sigs, ∀ pubkey ∈ pubkeys, ∀ pubkey' ∈ pubkeys,
    check sig pubkey = true → check sig pubkey' = true → pubkey = pubkey'

/-- A signature goes to the key that it is valid for, if that has none yet. -/
theorem lookup_matchSig {m : StdMap Valtype Valtype} {sigs : List Valtype} {sig : Valtype}
    (hkey : ∀ pubkey ∈ pubkeys, m.lookup pubkey = sigs.find? fun sig => check sig pubkey)
    (hsig : ∀ pubkey ∈ pubkeys, ∀ pubkey' ∈ pubkeys,
      check sig pubkey = true → check sig pubkey' = true → pubkey = pubkey')
    {pubkey : Valtype} (hmem : pubkey ∈ pubkeys) :
    (matchSig check pubkeys m sig).lookup pubkey =
      (sigs ++ [sig]).find? fun sig => check sig pubkey := by
  have hin : ∀ p ∈ pubkeys, (p ∈ m ↔ (sigs.find? fun s => check s p).isSome = true) := by
    intro p hp
    rw [← hkey p hp, Finmap.lookup_isSome]
  rw [List.find?_append, matchSig]
  cases hfind : pubkeys.find? fun pubkey => !decide (pubkey ∈ m) && check sig pubkey with
  | none =>
    -- the key has a signature already, if this one is valid for it
    have hnone := List.find?_eq_none.mp hfind pubkey hmem
    dsimp only
    rw [hkey pubkey hmem]
    cases hold : sigs.find? fun s => check s pubkey with
    | some s => rfl
    | none =>
      have hnotin : pubkey ∉ m := by
        rw [hin pubkey hmem, hold]
        exact Bool.false_ne_true
      have hinvalid : check sig pubkey = false := by simpa [hnotin] using hnone
      rw [Option.none_or, List.find?_cons_of_neg (by simpa using hinvalid), List.find?_nil]
  | some found =>
    -- the signature goes to a key without one, the only key it is valid for
    have hfound := List.find?_some hfind
    have hmemFound := List.mem_of_find?_eq_some hfind
    rw [Bool.and_eq_true, Bool.not_eq_true', decide_eq_false_iff_not] at hfound
    dsimp only
    by_cases hsame : pubkey = found
    · subst hsame
      have hold : sigs.find? (fun s => check s pubkey) = none := by
        have hnotin := (hin pubkey hmem).not.mp hfound.1
        exact Option.not_isSome_iff_eq_none.mp hnotin
      rw [Finmap.lookup_insert, hold, Option.none_or,
        List.find?_cons_of_pos (by simpa using hfound.2)]
    · have hinvalid : check sig pubkey = false := by
        refine Bool.eq_false_of_not_eq_true fun hvalid => hsame ?_
        exact hsig pubkey hmem found hmemFound hvalid hfound.2
      rw [Finmap.lookup_insert_of_ne _ hsame, hkey pubkey hmem,
        List.find?_cons_of_neg (by simpa using hinvalid), List.find?_nil, Option.or_none]

/-- **Each key gets the first signature that is valid for it.** -/
theorem lookup_foldl_matchSig {sigs : List Valtype} (h : SingleKeyed check pubkeys sigs)
    {pubkey : Valtype} (hmem : pubkey ∈ pubkeys) :
    (sigs.foldl (matchSig check pubkeys) ∅).lookup pubkey = sigs.find? fun sig => check sig pubkey := by
  induction sigs using List.reverseRecOn generalizing pubkey with
  | nil => rfl
  | append_singleton sigs sig ih =>
    have hbefore : SingleKeyed check pubkeys sigs := fun s hs => h s (List.mem_append_left _ hs)
    rw [List.foldl_append, List.foldl_cons, List.foldl_nil]
    exact lookup_matchSig (fun p hp => ih hbefore hp)
      (h sig (List.mem_append_right _ (List.mem_singleton_self sig))) hmem

/-- The signature of a key in the set of the signatures. -/
def chosenSig (check : Valtype → Valtype → Bool) (sigs1 sigs2 : Stack) (pubkey : Valtype) :
    Option Valtype :=
  (allSigs sigs1 sigs2).find? fun sig => check sig pubkey

/-- The data that the merged script pushes: the one element more, signatures of the first keys that
have one, as many as are required, and empty ones for those that are missing. -/
def mergedArgs (check : Valtype → Valtype → Bool) (nSigsRequired : ℕ) (pubkeys : List Valtype)
    (sigs1 sigs2 : Stack) : List Valtype :=
  let merged := (pubkeys.filterMap (chosenSig check sigs1 sigs2)).take nSigsRequired
  [] :: merged ++ List.replicate (nSigsRequired - merged.length) []

theorem combineMultisig_eq {vSolutions : List Valtype}
    (h : SingleKeyed check vSolutions.tail.dropLast (sigs1 ++ sigs2)) :
    combineMultisig check vSolutions sigs1 sigs2 =
      (mergedArgs check ((vSolutions.headD []).headD 0).toNat vSolutions.tail.dropLast sigs1
        sigs2).flatMap (CScript.pushData []) := by
  have hset : SingleKeyed check vSolutions.tail.dropLast (allSigs sigs1 sigs2) :=
    fun sig hsig => h sig (mem_allSigs.mp hsig).1
  rw [combineMultisig, mergedArgs,
    List.filterMap_congr fun pubkey hmem => lookup_foldl_matchSig hset hmem]
  rfl

/-! ## Keys with a signature -/

/-- Some signature is valid for a key. -/
def hasSig (check : Valtype → Valtype → Bool) (sigs : List Valtype) (pubkey : Valtype) : Bool :=
  sigs.any fun sig => check sig pubkey

theorem chosenSig_eq_some {pubkey sig : Valtype} (h : chosenSig check sigs1 sigs2 pubkey = some sig) :
    sig ∈ sigs1 ++ sigs2 ∧ sig ≠ [] ∧ check sig pubkey = true := by
  obtain ⟨hmem, hne⟩ := mem_allSigs.mp (List.mem_of_find?_eq_some h)
  exact ⟨hmem, hne, List.find?_some (p := fun sig => check sig pubkey) h⟩

theorem isSome_chosenSig (hempty : ∀ pubkey, check [] pubkey = false) (pubkey : Valtype) :
    (chosenSig check sigs1 sigs2 pubkey).isSome = hasSig check (sigs1 ++ sigs2) pubkey := by
  rw [Bool.eq_iff_iff, chosenSig, List.find?_isSome, hasSig, List.any_eq_true]
  constructor
  · rintro ⟨sig, hsig, hvalid⟩
    exact ⟨sig, (mem_allSigs.mp hsig).1, hvalid⟩
  · rintro ⟨sig, hsig, hvalid⟩
    refine ⟨sig, mem_allSigs.mpr ⟨hsig, ?_⟩, hvalid⟩
    -- an empty signature, which the set leaves out, is valid for no key
    rintro rfl
    exact Bool.false_ne_true ((hempty pubkey).symm.trans hvalid)

/-- What a partial function gives, in order. -/
theorem forall₂_filterMap {A B : Type} (f : A → Option B) (l : List A) :
    List.Forall₂ (fun a b => f a = some b) (l.filter fun a => (f a).isSome) (l.filterMap f) := by
  induction l with
  | nil => exact .nil
  | cons a l ih =>
    cases hf : f a with
    | none =>
      rw [List.filterMap_cons_none hf, List.filter_cons_of_neg (by simp [hf])]
      exact ih
    | some b =>
      rw [List.filterMap_cons_some hf, List.filter_cons_of_pos (by simp [hf])]
      exact .cons hf ih

/-- **The chosen signatures are those of the first keys that have one.** -/
theorem forall₂_chosenSig (check : Valtype → Valtype → Bool)
    (hempty : ∀ pubkey, check [] pubkey = false) (pubkeys : List Valtype) (sigs1 sigs2 : Stack)
    (nSigsRequired : ℕ) :
    List.Forall₂ (fun pubkey sig => chosenSig check sigs1 sigs2 pubkey = some sig)
      ((pubkeys.filter (hasSig check (sigs1 ++ sigs2))).take nSigsRequired)
      ((pubkeys.filterMap (chosenSig check sigs1 sigs2)).take nSigsRequired) := by
  have hall := forall₂_filterMap (chosenSig check sigs1 sigs2) pubkeys
  rw [List.filter_congr fun pubkey _ => isSome_chosenSig hempty pubkey] at hall
  exact List.forall₂_take nSigsRequired hall

/-! ## The merged script -/

variable {env : ScriptEnv} {ctx : SigContext} {scriptPubKey scriptSig : CScript}

theorem checkSig_nil (pubkey : Valtype) (scriptCode : CScript) :
    checkSig env ctx [] pubkey scriptCode = false := rfl

/-- A script that leaves one value is verified by it. -/
theorem verifyScript_single {stackCopy : Stack} {fValue : Bool}
    (hsig : (evalScript env ctx [] scriptSig).result = .ok stackCopy)
    (hpub : (evalScript env ctx stackCopy scriptPubKey).result = .ok [vchBool fValue])
    (hplain : scriptPubKey.isPayToScriptHash = false) (fValidatePayToScriptHash : Bool) :
    verifyScript env ctx scriptSig scriptPubKey fValidatePayToScriptHash = .ok fValue := by
  have htrue : castToBool vchTrue = true := by decide
  have hfalse : castToBool vchFalse = false := by decide
  cases fValue with
  | true =>
    simp [verifyScript, hsig, hpub, hplain, stackBack, stacktop, bind, Except.bind, vchBool, htrue]
  | false =>
    simp [verifyScript, hsig, hpub, stackBack, stacktop, bind, Except.bind, vchBool, hfalse]

variable {m n : ℕ} {vchM vchN : Valtype} {keys : List (ℕ × Valtype)}

/-- The signatures that a key is chosen for, and the empty ones after them. -/
theorem length_mergedArgs (check : Valtype → Valtype → Bool) (pubkeys : List Valtype)
    (sigs1 sigs2 : Stack) (nSigsRequired : ℕ) :
    (mergedArgs check nSigsRequired pubkeys sigs1 sigs2).length = nSigsRequired + 1 := by
  have hle := List.length_take_le nSigsRequired (pubkeys.filterMap (chosenSig check sigs1 sigs2))
  rw [mergedArgs]
  simp only [List.length_cons, List.length_append, List.length_replicate]
  omega

theorem small_mergedArgs (check : Valtype → Valtype → Bool) (pubkeys : List Valtype)
    (hsmall : Small (sigs1 ++ sigs2)) (nSigsRequired : ℕ) :
    Small (mergedArgs check nSigsRequired pubkeys sigs1 sigs2) := by
  intro arg harg
  rw [mergedArgs] at harg
  obtain harg | harg := List.mem_append.mp harg
  · obtain rfl | harg := List.mem_cons.mp harg
    · exact Nat.zero_le _
    · obtain ⟨pubkey, -, hchosen⟩ := List.mem_filterMap.mp (List.mem_of_mem_take harg)
      exact hsmall arg (chosenSig_eq_some hchosen).1
  · rw [List.eq_of_mem_replicate harg]
    exact Nat.zero_le _

/-- The number of chosen signatures. -/
theorem length_chosen (check : Valtype → Valtype → Bool)
    (hempty : ∀ pubkey, check [] pubkey = false) (pubkeys : List Valtype) (sigs1 sigs2 : Stack) :
    (pubkeys.filterMap (chosenSig check sigs1 sigs2)).length =
      pubkeys.countP (hasSig check (sigs1 ++ sigs2)) := by
  have hall := forall₂_filterMap (chosenSig check sigs1 sigs2) pubkeys
  rw [List.filter_congr fun pubkey _ => isSome_chosenSig hempty pubkey] at hall
  rw [List.countP_eq_length_filter]
  exact hall.length_eq.symm

/-- **`OP_CHECKMULTISIG` finds the keys of the merged signatures** when none is missing. -/
theorem multisigFound_merged
    (hreads : scriptPubKey.Reads
      ((op1 + m, vchM) :: (keys ++ [(op1 + n, vchN), (opCheckmultisig, [])])) [])
    (hpush : ∀ sig ∈ sigs1 ++ sigs2, sig ∉ keys.map Prod.snd) (hsmall : Small (sigs1 ++ sigs2))
    {body : List Valtype} (nSigsRequired : ℕ)
    (hbody : [] :: body = mergedArgs (checkSig env ctx · · scriptPubKey) (nSigsRequired + 1)
      (keys.map Prod.snd) sigs1 sigs2) :
    multisigFound env ctx scriptPubKey body.reverse (keys.map Prod.snd).reverse =
      decide (nSigsRequired + 1 ≤
        (keys.map Prod.snd).countP (hasSig (checkSig env ctx · · scriptPubKey) (sigs1 ++ sigs2))) := by
  rw [mergedArgs, List.cons_append, List.cons.injEq] at hbody
  obtain ⟨-, rfl⟩ := hbody
  have hempty : ∀ pubkey, checkSig env ctx [] pubkey scriptPubKey = false :=
    fun pubkey => checkSig_nil pubkey _
  have hlength := length_chosen (checkSig env ctx · · scriptPubKey) hempty (keys.map Prod.snd) sigs1
    sigs2
  have hmatch := forall₂_chosenSig (checkSig env ctx · · scriptPubKey) hempty (keys.map Prod.snd)
    sigs1 sigs2 (nSigsRequired + 1)
  generalize hmerged : ((keys.map Prod.snd).filterMap
    (chosenSig (checkSig env ctx · · scriptPubKey) sigs1 sigs2)).take (nSigsRequired + 1) = merged
    at hmatch
  have hlenMerged : merged.length = min (nSigsRequired + 1) ((keys.map Prod.snd).countP
      (hasSig (checkSig env ctx · · scriptPubKey) (sigs1 ++ sigs2))) := by
    rw [← hmerged, List.length_take, hlength]
  by_cases hle : nSigsRequired + 1 ≤ (keys.map Prod.snd).countP
      (hasSig (checkSig env ctx · · scriptPubKey) (sigs1 ++ sigs2))
  · -- nothing is missing, and the signatures are in the order of their keys
    rw [decide_eq_true hle, hlenMerged, Nat.min_eq_left hle, Nat.sub_self, List.replicate_zero,
      List.append_nil, multisigFound, withoutSigs_eq_self hreads]
    · refine greedy_reverse ?_ ((List.take_sublist (nSigsRequired + 1) _).trans
        (List.filter_sublist (p := hasSig (checkSig env ctx · · scriptPubKey) (sigs1 ++ sigs2))))
      exact (hmatch.imp fun pubkey sig hchosen => (chosenSig_eq_some hchosen).2.2).flip
    · intro sig hsig
      rw [List.mem_reverse, ← hmerged] at hsig
      obtain ⟨pubkey, -, hchosen⟩ := List.mem_filterMap.mp (List.mem_of_mem_take hsig)
      obtain ⟨hmem, hne, -⟩ := chosenSig_eq_some hchosen
      have := hsmall sig hmem
      exact ⟨hne, by omega, hpush sig hmem⟩
  · -- the last signature is empty
    obtain ⟨missing, hmissing⟩ : ∃ k, nSigsRequired + 1 - merged.length = k + 1 :=
      ⟨nSigsRequired - merged.length, by omega⟩
    rw [decide_eq_false hle, hmissing, List.reverse_append, List.reverse_replicate,
      List.replicate_succ, List.cons_append, multisigFound]
    exact greedy_eq_false_of_forall fun pubkey => checkSig_nil pubkey _

/-- **What the merge of two stacks is**: in the order of the keys, signatures of the first ones that
have one, as many as are required, and empty ones for those that are missing. The script accepts it
when none is missing. -/
structure MultisigMerge (env : ScriptEnv) (ctx : SigContext) (scriptPubKey : CScript)
    (nSigsRequired : ℕ) (pubkeys sigs : List Valtype) (result : CScript) : Prop where
  written : ∃ merged, result = ([] :: merged ++ List.replicate (nSigsRequired - merged.length)
      []).flatMap (CScript.pushData []) ∧
    List.Forall₂ (fun pubkey sig => sig ∈ sigs ∧ checkSig env ctx sig pubkey scriptPubKey = true)
      ((pubkeys.filter (hasSig (checkSig env ctx · · scriptPubKey) sigs)).take nSigsRequired) merged
  verify : ∀ fValidatePayToScriptHash,
    verifyScript env ctx result scriptPubKey fValidatePayToScriptHash =
      .ok (decide (nSigsRequired ≤ pubkeys.countP (hasSig (checkSig env ctx · · scriptPubKey) sigs)))

theorem multisigMerge_combineMultisig {txTo : CTransaction} {nIn : ℕ} {vSolutions : List Valtype}
    (hsolver : solver scriptPubKey = some (.txMultisig, vSolutions))
    (hsingle : SingleKeyed (checkSig env ⟨txTo, nIn, 0⟩ · · scriptPubKey) vSolutions.tail.dropLast
      (sigs1 ++ sigs2))
    (hpush : ∀ sig ∈ sigs1 ++ sigs2, sig ∉ vSolutions.tail.dropLast)
    (hsmall : Small (sigs1 ++ sigs2)) :
    MultisigMerge env ⟨txTo, nIn, 0⟩ scriptPubKey ((vSolutions.headD []).headD 0).toNat
      vSolutions.tail.dropLast (sigs1 ++ sigs2)
      (combineMultisig (checkSig env ⟨txTo, nIn, 0⟩ · · scriptPubKey) vSolutions sigs1 sigs2) := by
  have hplain : scriptPubKey.isPayToScriptHash = false := by
    refine Bool.eq_false_of_not_eq_true fun hp2sh => ?_
    cases (isPayToScriptHash_of_solver hsolver).mp hp2sh
  rw [combineMultisig_eq hsingle]
  refine ⟨⟨_, rfl, ?_⟩, fun fValidatePayToScriptHash => ?_⟩
  · refine (forall₂_chosenSig _ (fun pubkey => checkSig_nil pubkey _) _ _ _ _).imp
      fun pubkey sig hchosen => ?_
    obtain ⟨hmem, -, hvalid⟩ := chosenSig_eq_some hchosen
    exact ⟨hmem, hvalid⟩
  · -- the merged data are pushed, the last one on top, and the script takes them all
    cases standard_of_solver hsolver with
    | @multisig m n vchM vchN keys hreads hsize hm hn hlength =>
      have hrequired : (UInt8.ofNat (m + 1)).toNat = m + 1 :=
        UInt8.toNat_ofNat_of_lt' (by show m + 1 < 256; omega)
      simp only [List.headD_cons, List.tail_cons, List.dropLast_concat, hrequired] at hpush ⊢
      obtain ⟨body, hbody⟩ : ∃ body, [] :: body = mergedArgs
          (checkSig env ⟨txTo, nIn, 0⟩ · · scriptPubKey) (m + 1) (keys.map Prod.snd) sigs1 sigs2 :=
        ⟨_, rfl⟩
      have hargs := length_mergedArgs (checkSig env ⟨txTo, nIn, 0⟩ · · scriptPubKey)
        (keys.map Prod.snd) sigs1 sigs2 (m + 1)
      have hsmallArgs := small_mergedArgs (checkSig env ⟨txTo, nIn, 0⟩ · · scriptPubKey)
        (keys.map Prod.snd) hsmall (m + 1)
      have hfound := multisigFound_merged hreads hpush hsmall m hbody
      rw [← hbody, List.length_cons] at hargs
      rw [← hbody] at hsmallArgs ⊢
      refine verifyScript_single (evalScript_pushes (by rw [List.length_cons]; omega) hsmallArgs) ?_
        hplain fValidatePayToScriptHash
      rw [List.reverse_cons, evalScript_multisig hreads hsize hm hn hlength
        (by rw [List.length_reverse]; omega), hfound]

/-- **`CombineMultisig` merges two stacks**, whichever comes first. -/
theorem combineMultisig_spec (env : ScriptEnv) (txTo : CTransaction) (nIn : ℕ) (scriptPubKey : CScript)
    (vSolutions : List Valtype) (sigs1 sigs2 : Stack)
    (hsolver : solver scriptPubKey = some (.txMultisig, vSolutions))
    (hsingle : SingleKeyed (checkSig env ⟨txTo, nIn, 0⟩ · · scriptPubKey) vSolutions.tail.dropLast
      (sigs1 ++ sigs2))
    (hpush : ∀ sig ∈ sigs1 ++ sigs2, sig ∉ vSolutions.tail.dropLast)
    (hsmall : Small (sigs1 ++ sigs2)) :
    MultisigMerge env ⟨txTo, nIn, 0⟩ scriptPubKey ((vSolutions.headD []).headD 0).toNat
        vSolutions.tail.dropLast (sigs1 ++ sigs2)
        (combineMultisig (checkSig env ⟨txTo, nIn, 0⟩ · · scriptPubKey) vSolutions sigs1 sigs2) ∧
      combineMultisig (checkSig env ⟨txTo, nIn, 0⟩ · · scriptPubKey) vSolutions sigs2 sigs1 =
        combineMultisig (checkSig env ⟨txTo, nIn, 0⟩ · · scriptPubKey) vSolutions sigs1 sigs2 := by
  refine ⟨multisigMerge_combineMultisig hsolver hsingle hpush hsmall, ?_⟩
  rw [combineMultisig, combineMultisig, allSigs_comm]

/-- A script that asks for two signatures of three keys, with its solutions. -/
def exampleTwoOfThree : CScript :=
  0x52 :: ([1, 2, 3].flatMap fun b => 33 :: List.replicate 33 b) ++ [0x53, 0xae]

@[inherit_doc exampleTwoOfThree]
def exampleSolutions : List Valtype :=
  [[2], List.replicate 33 1, List.replicate 33 2, List.replicate 33 3, [3]]

/-- The signatures of the third key and the first one, from two sides, with others that are not
valid. -/
theorem combineMultisig_spec_exampleTwoOfThree :
    MultisigMerge exampleScriptEnv ⟨exampleTx 1 [⟨5, 0⟩] [7], 0, 0⟩ exampleTwoOfThree 2
      [List.replicate 33 1, List.replicate 33 2, List.replicate 33 3]
      ([List.replicate 33 3 ++ [1], [9]] ++ [[], List.replicate 33 1 ++ [1]])
      (combineMultisig (checkSig exampleScriptEnv ⟨exampleTx 1 [⟨5, 0⟩] [7], 0, 0⟩ · ·
        exampleTwoOfThree) exampleSolutions [List.replicate 33 3 ++ [1], [9]]
        [[], List.replicate 33 1 ++ [1]]) :=
  (combineMultisig_spec exampleScriptEnv (exampleTx 1 [⟨5, 0⟩] [7]) 0 exampleTwoOfThree
    exampleSolutions [List.replicate 33 3 ++ [1], [9]] [[], List.replicate 33 1 ++ [1]]
    (by decide +kernel) (by unfold SingleKeyed; decide +kernel) (by decide +kernel)
    (by unfold Small; decide +kernel)).1

/-! ## Two scripts -/

/-- What the evaluation of a script leaves is not too large. -/
theorem small_scriptStack {left : CScript → Stack} (hleft : ∀ script, Small (left script))
    (scriptSig : CScript) : Small (scriptStack env left scriptSig) := by
  have hends : Ends (fun stack' => stack'.length ≤ 1000 ∧ Small stack') ScriptError.Guarded
      (evalScript env ⟨CTransaction.empty, 0, 0⟩ [] scriptSig).result :=
    ends_evalScript scriptSig (Nat.zero_le _) (fun _ hv => absurd hv List.not_mem_nil)
  rw [scriptStack]
  cases hresult : (evalScript env ⟨CTransaction.empty, 0, 0⟩ [] scriptSig).result with
  | ok stack =>
    rw [hresult] at hends
    exact hends.2
  | error e => exact hleft scriptSig

/-- **`CombineSignatures` merges the stacks of two scripts** for a multi-signature output. -/
theorem multisigMerge_combineSignatures {txTo : CTransaction} {nIn : ℕ} {vSolutions : List Valtype}
    {left : CScript → Stack} (hleft : ∀ script, Small (left script)) (scriptSig1 scriptSig2 : CScript)
    (hsolver : solver scriptPubKey = some (.txMultisig, vSolutions))
    (hsingle : SingleKeyed (checkSig env ⟨txTo, nIn, 0⟩ · · scriptPubKey) vSolutions.tail.dropLast
      (scriptStack env left scriptSig1 ++ scriptStack env left scriptSig2))
    (hpush : ∀ sig ∈ scriptStack env left scriptSig1 ++ scriptStack env left scriptSig2,
      sig ∉ vSolutions.tail.dropLast) :
    MultisigMerge env ⟨txTo, nIn, 0⟩ scriptPubKey ((vSolutions.headD []).headD 0).toNat
      vSolutions.tail.dropLast (scriptStack env left scriptSig1 ++ scriptStack env left scriptSig2)
      (combineSignatures env ⟨txTo, nIn, 0⟩ left scriptPubKey scriptSig1 scriptSig2) := by
  have hsmall : Small (scriptStack env left scriptSig1 ++ scriptStack env left scriptSig2) := by
    intro vch hvch
    obtain hvch | hvch := List.mem_append.mp hvch
    · exact small_scriptStack hleft scriptSig1 vch hvch
    · exact small_scriptStack hleft scriptSig2 vch hvch
  rw [combineSignatures, combineStacks.eq_def, solverRet_success.mpr hsolver]
  exact multisigMerge_combineMultisig hsolver hsingle hpush hsmall

end FoxCoin
