import FoxCoin.NodeState
import FoxCoin.Disconnect
import FoxCoin.Hex

/-! # The fees of a transaction

The block explorer shows the fees of a transaction as the sum of its inputs less the sum of its
outputs. It looks the value of an input up by the script of the output that is spent, among as many
outputs of the previous transaction as that has inputs. -/

namespace FoxCoin

open Checked

/-! ## The code -/

/-- `GetTransaction`: the transaction, and the hash of its block where the block can be read. -/
def NodeState.getTransaction (P : Params) (s : NodeState) (hash : Uint256) :
    Option (CTransaction × Uint256) :=
  match s.mempool.mapTx.lookup hash with
  | some tx => some (tx, 0)
  | none =>
    -- `ReadFromDisk` for the output 0
    match s.txdb.mapTxIndex.lookup hash with
    | none => none
    | some txindex =>
      match s.files.readTx txindex.pos.nFile txindex.pos.nTxPos with
      | none => none
      | some tx =>
        if tx.vout.length ≤ 0 then none
        else some (tx, (s.files.readBlock P txindex.pos.nFile txindex.pos.nBlockPos).elim 0
          fun block => block.getHash P)

/-- `convertCoins`. -/
def convertCoins (amount : ℤ) : ℚ := amount / coin

/-- The loop of `getInputValue` with the given number of rounds left, from an output on. The source
reads behind the outputs where they end first, and returns nothing where no round returns. -/
def inputValueLoop (target : CScript) : ℕ → List CTxOut → Except String ℤ
  | 0, _ => .error "no value is returned"
  | _ + 1, [] => .error "vout[i] is out of range"
  | n + 1, txout :: vout =>
    if txout.scriptPubKey = target then .ok txout.nValue else inputValueLoop target n vout

/-- `getInputValue`. -/
def getInputValue (tx : CTransaction) (target : CScript) : Except String ℤ :=
  inputValueLoop target tx.vin.length tx.vout

/-- The second loop of `getTxFees`, from `value0` on: nothing where a previous transaction is not
found. -/
def NodeState.inputsLoop (P : Params) (s : NodeState) : ℚ → List CTxIn → Except String (Option ℚ)
  | value0, [] => .ok (some value0)
  | value0, txin :: vin =>
    match s.getTransaction P (setHex (getHex txin.prevout.hash)) with
    | none => .ok none
    | some (wtxPrev, _) =>
      -- only the script of the output is passed on, not its number
      match wtxPrev.vout[txin.prevout.n]? with
      | none => .error "vout[n] is out of range"
      | some txout => do
        let nValue ← getInputValue wtxPrev txout.scriptPubKey
        s.inputsLoop P (value0 + convertCoins nValue) vin

/-- `getTxFees`. The sums of `double` values are read as the exact rationals. -/
def NodeState.getTxFees (P : Params) (s : NodeState) (txid : StdString) : Except String ℚ :=
  match s.getTransaction P (setHex txid) with
  | none => .ok 51
  | some (tx, _) => do
    let value := tx.vout.foldl (fun value txout => value + convertCoins txout.nValue) 0
    let value0 ← s.inputsLoop P 0 tx.vin
    match value0 with
    | none => pure 0
    | some value0 => pure (value0 - value)

/-! ## What an input spends -/

variable {P : Params} {s : NodeState} {tx : CTransaction} {txin : CTxIn}

/-- The transaction that an input claims an output of, and the output. -/
def NodeState.spentOutput (P : Params) (s : NodeState) (txin : CTxIn) :
    Option (CTransaction × CTxOut) :=
  (s.getTransaction P txin.prevout.hash).bind fun prev =>
    prev.1.vout[txin.prevout.n]?.map fun txout => (prev.1, txout)

/-- The value of the output that an input spends. -/
def NodeState.spentValue (P : Params) (s : NodeState) (txin : CTxIn) : ℤ :=
  (s.spentOutput P txin).elim 0 fun spent => spent.2.nValue

/-- The first output of the transaction with the script of the output that is spent. -/
def firstAlike (spent : CTransaction × CTxOut) : ℕ :=
  spent.1.vout.findIdx fun txout => decide (txout.scriptPubKey = spent.2.scriptPubKey)

/-- The value of that output. -/
def NodeState.alikeValue (P : Params) (s : NodeState) (txin : CTxIn) : ℤ :=
  (s.spentOutput P txin).elim 0 fun spent => (spent.1.vout[firstAlike spent]?).elim 0 CTxOut.nValue

/-- The hashes that the inputs of a transaction name are 256 bits long, and the outputs that they
claim are found. -/
structure NodeState.InputsFound (P : Params) (s : NodeState) (tx : CTransaction) : Prop where
  hash_lt : ∀ txin ∈ tx.vin, txin.prevout.hash < 2 ^ 256
  found : ∀ txin ∈ tx.vin, (s.spentOutput P txin).isSome

/-- The loop of `getInputValue` finds the first output with the script, when it comes to it. -/
theorem inputValueLoop_eq {target : CScript} {vout : List CTxOut} {n : ℕ}
    (hmem : ∃ txout ∈ vout, txout.scriptPubKey = target) :
    inputValueLoop target n vout =
      if vout.findIdx (fun txout => decide (txout.scriptPubKey = target)) < n then
        .ok ((vout[vout.findIdx fun txout => decide (txout.scriptPubKey = target)]?).elim 0
          CTxOut.nValue)
      else .error "no value is returned" := by
  induction vout generalizing n with
  | nil => simp at hmem
  | cons txout vout ih =>
    cases n with
    | zero => simp [inputValueLoop]
    | succ n =>
      rw [inputValueLoop, List.findIdx_cons]
      by_cases halike : txout.scriptPubKey = target
      · simp [halike]
      · -- one output and one round less
        obtain ⟨txout', hmem', halike'⟩ := hmem
        have hrest : ∃ txout ∈ vout, txout.scriptPubKey = target := by
          refine ⟨txout', (List.mem_cons.mp hmem').resolve_left ?_, halike'⟩
          rintro rfl
          exact halike halike'
        rw [if_neg halike, ih hrest]
        simp [halike]

/-- `getInputValue` for an output that is spent. -/
theorem getInputValue_eq {spent : CTransaction × CTxOut} (h : s.spentOutput P txin = some spent) :
    getInputValue spent.1 spent.2.scriptPubKey =
      if firstAlike spent < spent.1.vin.length then .ok (s.alikeValue P txin)
      else .error "no value is returned" := by
  have hmem : spent.2 ∈ spent.1.vout := by
    obtain ⟨prev, -, hprev⟩ := Option.bind_eq_some_iff.mp h
    obtain ⟨txout, htxout, rfl⟩ := Option.map_eq_some_iff.mp hprev
    exact List.mem_of_getElem? htxout
  rw [getInputValue, inputValueLoop_eq ⟨spent.2, hmem, rfl⟩, NodeState.alikeValue, h]
  rfl

/-- An input whose value is looked up where the loop comes to it. -/
def NodeState.LooksUp (P : Params) (s : NodeState) (txin : CTxIn) : Prop :=
  ∀ spent, s.spentOutput P txin = some spent → firstAlike spent < spent.1.vin.length

/-- A round of the second loop. -/
theorem inputsLoop_cons {value0 : ℚ} {vin : List CTxIn} (hlt : txin.prevout.hash < 2 ^ 256)
    {spent : CTransaction × CTxOut} (h : s.spentOutput P txin = some spent) :
    s.inputsLoop P value0 (txin :: vin) =
      if firstAlike spent < spent.1.vin.length then
        s.inputsLoop P (value0 + convertCoins (s.alikeValue P txin)) vin
      else .error "no value is returned" := by
  have hvalue := getInputValue_eq h
  obtain ⟨prev, hprev, hout⟩ := Option.bind_eq_some_iff.mp h
  obtain ⟨txout, htxout, rfl⟩ := Option.map_eq_some_iff.mp hout
  rw [NodeState.inputsLoop, setHex_getHex hlt, hprev]
  simp only [htxout, hvalue]
  split_ifs
  · rfl
  · rfl

theorem convertCoins_add (m n : ℤ) : convertCoins (m + n) = convertCoins m + convertCoins n := by
  rw [convertCoins, convertCoins, convertCoins, ← add_div]
  push_cast
  rfl

/-- **What the second loop returns.** -/
theorem inputsLoop_eq_ok {vin : List CTxIn} (hlt : ∀ txin ∈ vin, txin.prevout.hash < 2 ^ 256)
    (hfound : ∀ txin ∈ vin, (s.spentOutput P txin).isSome) {value0 : ℚ} {r : Option ℚ} :
    s.inputsLoop P value0 vin = .ok r ↔ (∀ txin ∈ vin, s.LooksUp P txin) ∧
      r = some (value0 + convertCoins (vin.map (s.alikeValue P)).sum) := by
  induction vin generalizing value0 with
  | nil => simp [NodeState.inputsLoop, convertCoins, eq_comm]
  | cons txin vin ih =>
    obtain ⟨spent, hspent⟩ := Option.isSome_iff_exists.mp (hfound txin List.mem_cons_self)
    have hlook : s.LooksUp P txin ↔ firstAlike spent < spent.1.vin.length := by
      constructor
      · exact fun h => h spent hspent
      · intro h spent' hspent'
        rwa [Option.some.inj (hspent'.symm.trans hspent)]
    rw [inputsLoop_cons (hlt txin List.mem_cons_self) hspent, List.forall_mem_cons, hlook]
    by_cases hreach : firstAlike spent < spent.1.vin.length
    · rw [if_pos hreach, ih (fun t ht => hlt t (List.mem_cons_of_mem _ ht))
        (fun t ht => hfound t (List.mem_cons_of_mem _ ht)), List.map_cons, List.sum_cons,
        convertCoins_add, ← add_assoc]
      simp [hreach]
    · -- the rounds are used up before the output
      rw [if_neg hreach]
      simp [hreach]

theorem foldl_convertCoins (vout : List CTxOut) (value : ℚ) :
    vout.foldl (fun value txout => value + convertCoins txout.nValue) value =
      value + convertCoins (vout.map CTxOut.nValue).sum := by
  induction vout generalizing value with
  | nil => simp [convertCoins]
  | cons txout vout ih =>
    rw [List.foldl_cons, ih, List.map_cons, List.sum_cons, convertCoins_add, add_assoc]

/-- What `getTxFees` returns for a transaction with outputs that are found. -/
theorem getTxFees_eq_ok {txid : StdString} {hashBlock : Uint256}
    (htx : s.getTransaction P (setHex txid) = some (tx, hashBlock)) (hinputs : s.InputsFound P tx)
    {fees : ℚ} : s.getTxFees P txid = .ok fees ↔ (∀ txin ∈ tx.vin, s.LooksUp P txin) ∧
      fees = convertCoins ((tx.vin.map (s.alikeValue P)).sum - tx.valueOut) := by
  have hvalue : tx.vout.foldl (fun value txout => value + convertCoins txout.nValue) 0 =
      convertCoins tx.valueOut := by
    rw [foldl_convertCoins, zero_add]
    rfl
  have hsub : convertCoins ((tx.vin.map (s.alikeValue P)).sum - tx.valueOut) =
      convertCoins (tx.vin.map (s.alikeValue P)).sum - convertCoins tx.valueOut := by
    rw [convertCoins, convertCoins, convertCoins, ← sub_div]
    push_cast
    rfl
  rw [NodeState.getTxFees, htx, hsub]
  simp only [hvalue, bind_eq_ok, inputsLoop_eq_ok hinputs.hash_lt hinputs.found]
  constructor
  · rintro ⟨_, ⟨hlook, rfl⟩, hfees⟩
    refine ⟨hlook, ?_⟩
    rw [← Except.ok.inj hfees, zero_add]
  · rintro ⟨hlook, rfl⟩
    refine ⟨_, ⟨hlook, rfl⟩, ?_⟩
    rw [zero_add]
    rfl

/-- **`getTxFees` shows the fees** of a transaction exactly where `getInputValue` comes, for every
input, to the first output with the script of the one that is spent, and the values of these outputs
add up to the values of the outputs that are spent. -/
theorem getTxFees_eq_iff {txid : StdString} {hashBlock : Uint256}
    (htx : s.getTransaction P (setHex txid) = some (tx, hashBlock)) (hinputs : s.InputsFound P tx) :
    s.getTxFees P txid =
        .ok ((((tx.vin.map (s.spentValue P)).sum - tx.valueOut : ℤ) : ℚ) / (coin : ℚ)) ↔
      (∀ txin ∈ tx.vin, s.LooksUp P txin) ∧
        (tx.vin.map (s.alikeValue P)).sum = (tx.vin.map (s.spentValue P)).sum := by
  have hcoin : (coin : ℚ) ≠ 0 := by
    norm_num [coin]
  rw [getTxFees_eq_ok htx hinputs, convertCoins, div_left_inj' hcoin, Int.cast_inj]
  -- the outputs are taken from both sums
  refine and_congr_right fun _ => ?_
  constructor
  · intro h
    omega
  · intro h
    rw [h]

/-! ## A transaction with repeated scripts -/

/-- A node whose chain holds the two blocks of the worked example of connecting. -/
def feesNode : NodeState :=
  { NodeState.empty [] with
    files := spendingView.files
    txdb := (spendingBlock.connectBlock exampleParams spendingView Io.reliable fundedDB
      spendingIndex []).toOption.getD fundedDB }

/-- The payment of the second block that spends an older output. -/
def feesTx : CTransaction := exampleTx 3 [⟨exampleHash 1, 0⟩] [20, 30]

/-- The last payment of the second block. -/
def repeatedTx : CTransaction := exampleTx 4 [⟨exampleHash 3, 0⟩, ⟨exampleHash 1, 1⟩] [75]

theorem getTransaction_feesTx :
    feesNode.getTransaction exampleParams (setHex (getHex (exampleHash 3))) = some (feesTx, 2) := by
  rw [setHex_getHex (by decide)]
  decide +kernel

theorem getTransaction_repeatedTx :
    feesNode.getTransaction exampleParams (setHex (getHex (exampleHash 4))) =
      some (repeatedTx, 2) := by
  rw [setHex_getHex (by decide)]
  decide +kernel

theorem inputsFound_feesNode : feesNode.InputsFound exampleParams feesTx ∧
    feesNode.InputsFound exampleParams repeatedTx :=
  ⟨⟨by decide, by decide +kernel⟩, ⟨by decide, by decide +kernel⟩⟩

/-- The first payment, whose fees are shown: it pays none. -/
theorem getTxFees_feesTx :
    feesNode.getTxFees exampleParams (getHex (exampleHash 3)) =
      .ok ((((feesTx.vin.map (feesNode.spentValue exampleParams)).sum - feesTx.valueOut : ℤ) : ℚ) /
        (coin : ℚ)) := by
  refine (getTxFees_eq_iff getTransaction_feesTx inputsFound_feesNode.1).mpr ⟨?_, by decide +kernel⟩
  intro txin htxin spent hspent
  obtain rfl := List.mem_singleton.mp htxin
  have hfirst : feesNode.spentOutput exampleParams ⟨⟨exampleHash 1, 0⟩, [3, 3], uintMax⟩ =
      some (exampleCoinbase 1 [50, 60], ⟨50, []⟩) := by decide +kernel
  obtain rfl := Option.some.inj (hfirst.symm.trans hspent)
  decide

/-- **A repeated script**: the last payment spends the second output of a transaction, of 60, whose
first output, of 50, has the same script. Its fees of 5 are shown as -5. -/
theorem not_forall_getTxFees_eq :
    ¬∀ (s : NodeState) (tx : CTransaction) (txid : StdString) (hashBlock : Uint256),
      tx.isCoinBase = false →
      s.getTransaction exampleParams (setHex txid) = some (tx, hashBlock) →
      s.InputsFound exampleParams tx →
        s.getTxFees exampleParams txid =
          .ok ((((tx.vin.map (s.spentValue exampleParams)).sum - tx.valueOut : ℤ) : ℚ) /
            (coin : ℚ)) := by
  intro h
  have hfees := h feesNode repeatedTx _ 2 (by decide) getTransaction_repeatedTx
    inputsFound_feesNode.2
  have hshown := ((getTxFees_eq_ok getTransaction_repeatedTx inputsFound_feesNode.2).mp hfees).2
  -- 20 and 60 are spent, of which the 60 are looked up as 50
  have hspent : (repeatedTx.vin.map (feesNode.spentValue exampleParams)).sum = 80 := by
    decide +kernel
  have halike : (repeatedTx.vin.map (feesNode.alikeValue exampleParams)).sum = 70 := by
    decide +kernel
  rw [hspent, halike, show repeatedTx.valueOut = 75 by decide] at hshown
  norm_num [convertCoins, coin] at hshown

end FoxCoin
