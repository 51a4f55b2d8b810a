import FoxCoin.NodeRuns

/-! # What a failed switch leaves in the wallets

`ConnectBlock` tells the wallets about a block before the database transaction around it has
committed, and nothing tells them when it is rolled back. This file says exactly when the wallets
are the same after a failure: when the blocks that were connected before it were no news to them. -/

namespace FoxCoin

open Checked Overlay Runs

/-! ## Folds of inflationary steps -/

section Inflationary

variable {A E : Type} [Preorder A] {f : A → E → A}

/-- A fold of inflationary steps is inflationary. -/
theorem le_foldl_of_inflationary (hf : ∀ a e, a ≤ f a e) (es : List E) (a : A) :
    a ≤ es.foldl f a := by
  induction es generalizing a with
  | nil => exact le_rfl
  | cons e es ih => exact (hf a e).trans (ih _)

/-- When a fold of inflationary steps gains nothing, no step does. -/
theorem le_of_foldl_le (hf : ∀ a e, a ≤ f a e) {es : List E} {a : A} (h : es.foldl f a ≤ a)
    {l r : List E} {e : E} (hsplit : es = l ++ e :: r) :
    l.foldl f a ≤ a ∧ f (l.foldl f a) e ≤ a := by
  subst hsplit
  rw [List.foldl_append, List.foldl_cons] at h
  have hstep := (le_foldl_of_inflationary hf r _).trans h
  exact ⟨(hf _ _).trans hstep, hstep⟩

end Inflationary

variable {P : Params} {t : ℤ} {wallet wallet' : CWallet} {block : CBlock} {tx : CTransaction}

/-! ## What a wallet knows -/

/-- A wallet transaction knows at most what another one knows: they are the same transaction, and
what one knows to be spent the other does. -/
structure CWalletTx.KnownIn (wtx wtx' : CWalletTx) : Prop where
  tx_eq : wtx'.tx = wtx.tx
  isSpent : ∀ n < wtx.tx.vout.length, wtx.isSpent n = true → wtx'.isSpent n = true

/-- A wallet is at most as another one: it has the same keys, and what it has and knows to be spent
the other one has and knows. -/
instance : Preorder CWallet where
  le wallet wallet' := (wallet'.isMine = wallet.isMine ∧
      wallet'.nMinimumInputValue = wallet.nMinimumInputValue) ∧
    ∀ hash wtx, wallet.mapWallet.lookup hash = some wtx →
      ∃ wtx', wallet'.mapWallet.lookup hash = some wtx' ∧ wtx.KnownIn wtx'
  le_refl _ := ⟨⟨rfl, rfl⟩, fun _ wtx h => ⟨wtx, h, rfl, fun _ _ h => h⟩⟩
  le_trans _ _ _ h h' := by
    refine ⟨⟨h'.1.1.trans h.1.1, h'.1.2.trans h.1.2⟩, fun hash wtx hw => ?_⟩
    obtain ⟨wtx', hw', hknown⟩ := h.2 hash wtx hw
    obtain ⟨wtx'', hw'', hknown'⟩ := h'.2 hash wtx' hw'
    refine ⟨wtx'', hw'', hknown'.tx_eq.trans hknown.tx_eq, fun n hn hs => ?_⟩
    exact hknown'.isSpent n (by rw [hknown.tx_eq]; exact hn) (hknown.isSpent n hn hs)

/-- Replacing an entry by one that knows at least as much. -/
theorem CWallet.le_insert {hash : Uint256} {wtx' : CWalletTx}
    (h : ∀ wtx, wallet.mapWallet.lookup hash = some wtx → wtx.KnownIn wtx') :
    wallet ≤ { wallet with mapWallet := wallet.mapWallet.insert hash wtx' } := by
  refine ⟨⟨rfl, rfl⟩, fun k wtx hk => ?_⟩
  by_cases heq : k = hash
  · subst heq
    exact ⟨wtx', by rw [lookup_insert_eq_ite, if_pos rfl], h wtx hk⟩
  · exact ⟨wtx, by rw [lookup_insert_eq_ite, if_neg heq, hk], rfl, fun _ _ h => h⟩

/-! ## Marks -/

theorem resizeSpent_getD {vfSpent : List Bool} {nSize n : ℕ} (hn : n < nSize) :
    (resizeSpent vfSpent nSize).getD n false = vfSpent.getD n false := by
  rw [resizeSpent, List.getD_eq_getElem?_getD, List.getD_eq_getElem?_getD, List.getElem?_append]
  by_cases hlen : n < vfSpent.length
  · rw [if_pos (by simp; omega), List.getElem?_take, if_pos hn]
  · rw [if_neg (by simp; omega), List.getElem?_replicate]
    have hnone : vfSpent[n]? = none := List.getElem?_eq_none (by omega)
    split_ifs <;> simp [hnone]

theorem resizeSpent_length (vfSpent : List Bool) (nSize : ℕ) :
    (resizeSpent vfSpent nSize).length = nSize := by
  simp only [resizeSpent, List.length_append, List.length_take, List.length_replicate]
  omega

/-- Marking an output keeps the marks there are and sets one more. -/
theorem CWalletTx.isSpent_markSpent (wtx : CWalletTx) {k n : ℕ} (hn : n < wtx.tx.vout.length)
    (hk : k < wtx.tx.vout.length) :
    (wtx.markSpent k).isSpent n = if n = k then true else wtx.isSpent n := by
  unfold isSpent markSpent
  by_cases heq : n = k
  · subst heq
    rw [if_pos rfl, List.getD_eq_getElem?_getD, List.getElem?_set_self
      (by rw [resizeSpent_length]; exact hn)]
    rfl
  · rw [if_neg heq, List.getD_eq_getElem?_getD, List.getElem?_set_ne (Ne.symm heq),
      ← List.getD_eq_getElem?_getD, resizeSpent_getD hn]

/-- An output that is news to a wallet is an output of the transaction, and not known to be
spent. -/
theorem CWallet.of_isSpendNews {wtx : CWalletTx} {n : ℕ} (h : wallet.isSpendNews wtx n = true) :
    n < wtx.tx.vout.length ∧ wtx.isSpent n = false := by
  rw [isSpendNews, Bool.and_eq_true, Bool.not_eq_true'] at h
  refine ⟨?_, h.1⟩
  by_contra hn
  rw [List.getElem?_eq_none (by omega)] at h
  simp at h

/-- The inputs of a transaction are no news to a wallet: none of them spends an output of the wallet
that it does not know to be spent. -/
def CWallet.NoSpendNews (wallet : CWallet) (tx : CTransaction) : Prop :=
  ∀ txin ∈ tx.vin, ∀ wtx, wallet.mapWallet.lookup txin.prevout.hash = some wtx →
    wallet.isSpendNews wtx txin.prevout.n = false

/-- `WalletUpdateSpent` only adds knowledge. -/
theorem CWallet.le_updateSpentInput (wallet : CWallet) (txin : CTxIn) :
    wallet ≤ wallet.updateSpentInput txin := by
  unfold updateSpentInput
  cases hlook : wallet.mapWallet.lookup txin.prevout.hash with
  | none => exact le_rfl
  | some wtx =>
    simp only
    split_ifs with hnews
    · refine le_insert fun wtx' hwtx' => ?_
      obtain rfl : wtx = wtx' := by rw [hlook] at hwtx'; exact Option.some.inj hwtx'
      refine ⟨rfl, fun n hn hs => ?_⟩
      rw [wtx.isSpent_markSpent hn (of_isSpendNews hnews).1, hs, ite_self]
    · exact le_rfl

theorem CWallet.le_walletUpdateSpent (wallet : CWallet) (tx : CTransaction) :
    wallet ≤ wallet.walletUpdateSpent tx :=
  le_foldl_of_inflationary CWallet.le_updateSpentInput tx.vin wallet

/-- An input whose output is no news changes nothing. -/
theorem CWallet.updateSpentInput_eq {txin : CTxIn}
    (h : ∀ wtx, wallet.mapWallet.lookup txin.prevout.hash = some wtx →
      wallet.isSpendNews wtx txin.prevout.n = false) : wallet.updateSpentInput txin = wallet := by
  unfold updateSpentInput
  cases hlook : wallet.mapWallet.lookup txin.prevout.hash with
  | none => rfl
  | some wtx => simp [h wtx hlook]

/-- An input that adds no knowledge is no news. -/
theorem CWallet.of_updateSpentInput_le {txin : CTxIn} (h : wallet.updateSpentInput txin ≤ wallet) :
    ∀ wtx, wallet.mapWallet.lookup txin.prevout.hash = some wtx →
      wallet.isSpendNews wtx txin.prevout.n = false := by
  intro wtx hlook
  by_contra hnews
  rw [Bool.not_eq_false] at hnews
  obtain ⟨hn, hspent⟩ := of_isSpendNews hnews
  unfold updateSpentInput at h
  rw [hlook] at h
  simp only [hnews, if_true] at h
  obtain ⟨wtx', hwtx', hknown⟩ := h.2 txin.prevout.hash (wtx.markSpent txin.prevout.n)
    (by rw [lookup_insert_eq_ite, if_pos rfl])
  obtain rfl : wtx = wtx' := by rw [hlook] at hwtx'; exact Option.some.inj hwtx'
  have := hknown.isSpent _ hn (by rw [wtx.isSpent_markSpent hn hn, if_pos rfl])
  rw [hspent] at this
  cases this

/-- **`WalletUpdateSpent` changes nothing exactly when the inputs are no news**, and it adds
knowledge otherwise. -/
theorem CWallet.walletUpdateSpent_eq (h : wallet.NoSpendNews tx) :
    wallet.walletUpdateSpent tx = wallet := by
  unfold walletUpdateSpent
  unfold NoSpendNews at h
  generalize tx.vin = vin at h
  induction vin with
  | nil => rfl
  | cons txin vin ih =>
    obtain ⟨htxin, hrest⟩ := List.forall_mem_cons.mp h
    rw [List.foldl_cons, updateSpentInput_eq htxin]
    exact ih hrest

theorem CWallet.noSpendNews_of_le (h : wallet.walletUpdateSpent tx ≤ wallet) :
    wallet.NoSpendNews tx := by
  unfold walletUpdateSpent at h
  unfold NoSpendNews
  generalize tx.vin = vin at h
  induction vin with
  | nil => simp
  | cons txin vin ih =>
    rw [List.foldl_cons] at h
    have hfirst := of_updateSpentInput_le
      ((le_foldl_of_inflationary CWallet.le_updateSpentInput vin _).trans h)
    rw [updateSpentInput_eq hfirst] at h
    exact List.forall_mem_cons.mpr ⟨hfirst, ih h⟩

/-! ## One notification -/

/-- What `AddToWalletIfInvolvingMe` makes of a transaction of a block before it adds it. -/
def CWalletTx.placed (P : Params) (block : CBlock) (tx : CTransaction) : CWalletTx :=
  (CWalletTx.ofTx tx).setMerkleBranch P block

/-- One transaction of a block, with the block. -/
abbrev WalletEvent := CBlock × CTransaction

/-- The notifications about the transactions of a list of blocks. -/
def walletEvents (blocks : List CBlock) : List WalletEvent :=
  blocks.flatMap fun block => block.vtx.map fun tx => (block, tx)

/-- One notification. -/
def CWallet.notify (P : Params) (t : ℤ) (wallet : CWallet) (e : WalletEvent) : CWallet :=
  wallet.addToWalletIfInvolvingMe P t e.1 e.2

/-- A transaction is no news to a wallet: the wallet has it, or it neither pays to the wallet nor
spends its coins, and its inputs are no news. -/
def CWallet.NoNews (P : Params) (wallet : CWallet) (tx : CTransaction) : Prop :=
  match wallet.mapWallet.lookup (tx.getHash P) with
  | some wtx => wallet.NoSpendNews wtx.tx
  | none => wallet.isMineTx tx = false ∧ wallet.isFromMe tx = false ∧ wallet.NoSpendNews tx

@[simp] theorem CWalletTx.placed_tx (P : Params) (block : CBlock) (tx : CTransaction) :
    (placed P block tx).tx = tx := by
  unfold placed setMerkleBranch
  split <;> rfl

/-- The block hash that a notification gives to its transaction. -/
def WalletEvent.hashBlock? (P : Params) (e : WalletEvent) : Option Uint256 :=
  if e.1.getHash P = 0 then none else some (e.1.getHash P)

/-- The position in the block and the Merkle branch that a notification gives to its transaction. -/
def WalletEvent.merkle? (P : Params) (e : WalletEvent) : Option (ℤ × List Uint256) :=
  (e.1.txIndex e.2).map fun (n : ℕ) => ((n : ℤ), e.1.getMerkleBranch P n)

/-- A wallet transaction at another place. -/
def CWalletTx.withPlace (wtx : CWalletTx) (hashBlock : Uint256) (merkle : ℤ × List Uint256) :
    CWalletTx :=
  { wtx with hashBlock, nIndex := merkle.1, vMerkleBranch := merkle.2 }

/-- A merge with a notification only touches the place of the transaction. -/
theorem CWalletTx.merge_placed (wtx : CWalletTx) (P : Params) (e : WalletEvent) :
    wtx.merge (placed P e.1 e.2) = wtx.withPlace ((e.hashBlock? P).getD wtx.hashBlock)
      ((e.merkle? P).getD (wtx.nIndex, wtx.vMerkleBranch)) := by
  obtain ⟨tx', hashBlock, vMerkleBranch, nIndex, nTimeReceived, fFromMe, vfSpent⟩ := wtx
  have hmarks : (vfSpent.zipIdx.map fun p => p.1 || ([] : List Bool).getD p.2 false) = vfSpent := by
    simp
  unfold withPlace WalletEvent.hashBlock? WalletEvent.merkle?
  cases hpos : e.1.txIndex e.2 with
  | none =>
    simp only [placed, setMerkleBranch, ofTx, hpos, merge, updateSpent, Option.map_none]
    split_ifs <;> simp_all
  | some n =>
    have hn : (n : ℤ) ≠ -1 := by omega
    simp only [placed, setMerkleBranch, ofTx, hpos, merge, updateSpent, Option.map_some]
    split_ifs <;> simp_all

/-- A merge with a notification leaves the transaction and its marks alone. -/
theorem CWalletTx.knownIn_merge_placed (wtx : CWalletTx) (P : Params) (e : WalletEvent) :
    wtx.KnownIn (wtx.merge (placed P e.1 e.2)) := by
  rw [merge_placed]
  exact ⟨rfl, fun _ _ h => h⟩

/-! ## Wallets with the same knowledge -/

/-- A wallet that knows nothing more has the transaction as well. -/
theorem CWallet.lookup_of_le (h : wallet ≤ wallet') (h' : wallet' ≤ wallet) {hash : Uint256}
    {wtx' : CWalletTx} (hw : wallet'.mapWallet.lookup hash = some wtx') :
    ∃ wtx, wallet.mapWallet.lookup hash = some wtx ∧ wtx.KnownIn wtx' ∧ wtx'.tx = wtx.tx := by
  obtain ⟨wtx, hlook, hknown⟩ := h'.2 hash wtx' hw
  obtain ⟨wtx'', hlook', hknown'⟩ := h.2 hash wtx hlook
  obtain rfl : wtx' = wtx'' := Option.some.inj (hw.symm.trans hlook')
  exact ⟨wtx, hlook, hknown', hknown'.tx_eq⟩

/-- A wallet that knows nothing more has no more transactions. -/
theorem CWallet.lookup_eq_none_of_le (h : wallet' ≤ wallet) {hash : Uint256}
    (hw : wallet.mapWallet.lookup hash = none) : wallet'.mapWallet.lookup hash = none := by
  cases hw' : wallet'.mapWallet.lookup hash with
  | none => rfl
  | some wtx' =>
    obtain ⟨wtx, hlook, -⟩ := h.2 hash wtx' hw'
    rw [hw] at hlook
    cases hlook

/-- What is no news to a wallet is no news to one with the same knowledge. -/
theorem CWallet.NoSpendNews.of_le (h : wallet ≤ wallet') (h' : wallet' ≤ wallet)
    (hnews : wallet.NoSpendNews tx) : wallet'.NoSpendNews tx := by
  intro txin htxin wtx' hw'
  obtain ⟨wtx, hw, hknown, htx⟩ := lookup_of_le h h' hw'
  have hno := hnews txin htxin wtx hw
  by_contra hyes
  rw [Bool.not_eq_false] at hyes
  obtain ⟨hn, hspent⟩ := of_isSpendNews hyes
  rw [htx] at hn
  have hspent' : wtx.isSpent txin.prevout.n = false := by
    by_contra hs
    rw [hknown.isSpent _ hn (Bool.not_eq_false _ ▸ hs)] at hspent
    cases hspent
  rw [isSpendNews, hspent, htx, h.1.1] at hyes
  rw [isSpendNews, hspent', hyes] at hno
  cases hno

/-- Wallets with the same knowledge see the same debits. -/
theorem CWallet.isFromMe_eq_of_le (h : wallet ≤ wallet') (h' : wallet' ≤ wallet) :
    wallet'.isFromMe tx = wallet.isFromMe tx := by
  have hdebit : wallet'.getDebit = wallet.getDebit := by
    funext txin
    unfold getDebit
    cases hw' : wallet'.mapWallet.lookup txin.prevout.hash with
    | none => rw [lookup_eq_none_of_le h hw']
    | some wtx' =>
      obtain ⟨wtx, hw, -, htx⟩ := lookup_of_le h h' hw'
      simp only [hw, htx, h.1.1]
  rw [isFromMe, isFromMe, hdebit]

/-- What is no news to a wallet is no news to one with the same knowledge. -/
theorem CWallet.NoNews.of_le (h : wallet ≤ wallet') (h' : wallet' ≤ wallet)
    (hnews : wallet.NoNews P tx) : wallet'.NoNews P tx := by
  unfold NoNews at hnews ⊢
  cases hw' : wallet'.mapWallet.lookup (tx.getHash P) with
  | none =>
    rw [lookup_eq_none_of_le h hw'] at hnews
    obtain ⟨hmine, hfrom, hspend⟩ := hnews
    refine ⟨?_, (isFromMe_eq_of_le h h').trans hfrom, hspend.of_le h h'⟩
    rw [isMineTx, h.1.1, h.1.2]
    exact hmine
  | some wtx' =>
    obtain ⟨wtx, hw, -, htx⟩ := lookup_of_le h h' hw'
    rw [hw] at hnews
    simp only [htx]
    exact hnews.of_le h h'

/-! ## What a notification does -/

/-- A notification in which there is no news: a transaction that the wallet has is moved to the
block. -/
def CWallet.place (P : Params) (wallet : CWallet) (e : WalletEvent) : CWallet :=
  match wallet.mapWallet.lookup (e.2.getHash P) with
  | none => wallet
  | some wtx => { wallet with
      mapWallet := wallet.mapWallet.insert (e.2.getHash P) (wtx.merge (.placed P e.1 e.2)) }

/-- Moving a transaction neither adds knowledge nor takes it away. -/
theorem CWallet.place_le (P : Params) (wallet : CWallet) (e : WalletEvent) :
    wallet ≤ wallet.place P e ∧ wallet.place P e ≤ wallet := by
  unfold place
  cases hw : wallet.mapWallet.lookup (e.2.getHash P) with
  | none => exact ⟨le_rfl, le_rfl⟩
  | some wtx =>
    constructor
    · refine le_insert fun wtx' hw' => ?_
      obtain rfl : wtx = wtx' := Option.some.inj (hw.symm.trans hw')
      exact wtx.knownIn_merge_placed P e
    · refine ⟨⟨rfl, rfl⟩, fun k wtx' hk => ?_⟩
      simp only [lookup_insert_eq_ite] at hk
      by_cases heq : k = e.2.getHash P
      · rw [if_pos heq, Option.some.injEq] at hk
        refine ⟨wtx, heq ▸ hw, ?_⟩
        rw [← hk, CWalletTx.merge_placed]
        exact ⟨rfl, fun _ _ h => h⟩
      · rw [if_neg heq] at hk
        exact ⟨wtx', hk, rfl, fun _ _ h => h⟩

/-- `AddToWallet` for a transaction the wallet has, and for a new one. -/
theorem CWallet.addToWallet_of_some {wtxIn wtx : CWalletTx}
    (h : wallet.mapWallet.lookup (wtxIn.tx.getHash P) = some wtx) :
    wallet.addToWallet P t wtxIn = CWallet.walletUpdateSpent { wallet with
      mapWallet := wallet.mapWallet.insert (wtxIn.tx.getHash P) (wtx.merge wtxIn) }
        (wtx.merge wtxIn).tx := by
  simp only [addToWallet, h]

theorem CWallet.addToWallet_of_none {wtxIn : CWalletTx}
    (h : wallet.mapWallet.lookup (wtxIn.tx.getHash P) = none) :
    wallet.addToWallet P t wtxIn = CWallet.walletUpdateSpent { wallet with
      mapWallet := wallet.mapWallet.insert (wtxIn.tx.getHash P)
        { wtxIn with nTimeReceived := t } } wtxIn.tx := by
  simp only [addToWallet, h]

/-- A notification about a transaction the wallet has. -/
theorem CWallet.notify_of_some {e : WalletEvent} {wtx : CWalletTx}
    (h : wallet.mapWallet.lookup (e.2.getHash P) = some wtx) :
    wallet.notify P t e = (wallet.place P e).walletUpdateSpent wtx.tx := by
  have hplaced : wallet.mapWallet.lookup ((CWalletTx.placed P e.1 e.2).tx.getHash P) = some wtx := by
    rw [CWalletTx.placed_tx, h]
  rw [notify, addToWalletIfInvolvingMe, if_pos (.inl (Finmap.mem_of_lookup_eq_some h)),
    ← CWalletTx.placed, addToWallet_of_some hplaced, CWalletTx.placed_tx, place]
  simp only [h, (wtx.knownIn_merge_placed P e).tx_eq]

/-- A notification about a transaction that is new to the wallet. -/
theorem CWallet.notify_of_none {e : WalletEvent}
    (h : wallet.mapWallet.lookup (e.2.getHash P) = none) :
    (wallet.isMineTx e.2 = false ∧ wallet.isFromMe e.2 = false ∧
        wallet.notify P t e = wallet.walletUpdateSpent e.2) ∨
      ((wallet.isMineTx e.2 = true ∨ wallet.isFromMe e.2 = true) ∧ ∃ wtx,
        wallet.notify P t e = CWallet.walletUpdateSpent
          { wallet with mapWallet := wallet.mapWallet.insert (e.2.getHash P) wtx } e.2) := by
  have hnew : e.2.getHash P ∉ wallet.mapWallet := Finmap.lookup_eq_none.mp h
  rw [notify, addToWalletIfInvolvingMe]
  by_cases hmine : wallet.isMineTx e.2 = true ∨ wallet.isFromMe e.2 = true
  · have hplaced : wallet.mapWallet.lookup ((CWalletTx.placed P e.1 e.2).tx.getHash P) = none := by
      rw [CWalletTx.placed_tx, h]
    refine .inr ⟨hmine, { CWalletTx.placed P e.1 e.2 with nTimeReceived := t }, ?_⟩
    rw [if_pos (.inr hmine), ← CWalletTx.placed, addToWallet_of_none hplaced]
    simp only [CWalletTx.placed_tx]
  · rw [if_neg (not_or.mpr ⟨hnew, hmine⟩)]
    rw [not_or, Bool.not_eq_true, Bool.not_eq_true] at hmine
    exact .inl ⟨hmine.1, hmine.2, rfl⟩

/-- **A notification only adds knowledge.** -/
theorem CWallet.le_notify (P : Params) (t : ℤ) (wallet : CWallet) (e : WalletEvent) :
    wallet ≤ wallet.notify P t e := by
  cases h : wallet.mapWallet.lookup (e.2.getHash P) with
  | some wtx =>
    rw [notify_of_some h]
    exact (wallet.place_le P e).1.trans (le_walletUpdateSpent _ _)
  | none =>
    rcases notify_of_none (t := t) h with ⟨-, -, hnotify⟩ | ⟨-, wtx, hnotify⟩
    · rw [hnotify]
      exact le_walletUpdateSpent _ _
    · rw [hnotify]
      refine le_trans (le_insert fun wtx' hw' => ?_) (le_walletUpdateSpent _ _)
      rw [h] at hw'
      cases hw'

/-- A notification without news moves the transaction at most. -/
theorem CWallet.NoNews.notify_eq {e : WalletEvent} (h : wallet.NoNews P e.2) :
    wallet.notify P t e = wallet.place P e := by
  unfold NoNews at h
  cases hw : wallet.mapWallet.lookup (e.2.getHash P) with
  | some wtx =>
    rw [hw] at h
    obtain ⟨hle, hge⟩ := wallet.place_le P e
    rw [notify_of_some hw, walletUpdateSpent_eq (NoSpendNews.of_le hle hge h)]
  | none =>
    rw [hw] at h
    obtain ⟨hmine, hfrom, hspend⟩ := h
    rcases notify_of_none (t := t) hw with ⟨-, -, hnotify⟩ | ⟨hyes, -⟩
    · rw [hnotify, walletUpdateSpent_eq hspend, place, hw]
    · simp [hmine, hfrom] at hyes

/-- A notification that adds no knowledge is no news. -/
theorem CWallet.noNews_of_notify_le {e : WalletEvent} (h : wallet.notify P t e ≤ wallet) :
    wallet.NoNews P e.2 := by
  unfold NoNews
  cases hw : wallet.mapWallet.lookup (e.2.getHash P) with
  | some wtx =>
    obtain ⟨hle, hge⟩ := wallet.place_le P e
    rw [notify_of_some hw] at h
    exact (noSpendNews_of_le (h.trans hle)).of_le hge hle
  | none =>
    rcases notify_of_none (t := t) hw with ⟨hmine, hfrom, hnotify⟩ | ⟨-, wtx, hnotify⟩
    · rw [hnotify] at h
      exact ⟨hmine, hfrom, noSpendNews_of_le h⟩
    · rw [hnotify] at h
      obtain ⟨wtx', hw', -⟩ := ((le_walletUpdateSpent _ _).trans h).2 (e.2.getHash P) wtx
        (by rw [lookup_insert_eq_ite, if_pos rfl])
      rw [hw] at hw'
      cases hw'

/-! ## Lists of notifications -/

/-- Notifications that add no knowledge are no news, and without news they only move
transactions. -/
theorem CWallet.foldl_notify_eq {es : List WalletEvent} (h : ∀ e ∈ es, wallet.NoNews P e.2) :
    es.foldl (CWallet.notify P t) wallet = es.foldl (CWallet.place P) wallet := by
  induction es generalizing wallet with
  | nil => rfl
  | cons e es ih =>
    obtain ⟨he, hrest⟩ := List.forall_mem_cons.mp h
    obtain ⟨hle, hge⟩ := wallet.place_le P e
    rw [List.foldl_cons, List.foldl_cons, he.notify_eq]
    exact ih fun e' he' => (hrest e' he').of_le hle hge

theorem CWallet.noNews_of_foldl_le {es : List WalletEvent}
    (h : es.foldl (CWallet.notify P t) wallet ≤ wallet) : ∀ e ∈ es, wallet.NoNews P e.2 := by
  intro e he
  obtain ⟨l, r, hsplit⟩ := List.append_of_mem he
  obtain ⟨hbefore, hstep⟩ := le_of_foldl_le (CWallet.le_notify P t) h hsplit
  have hle := le_foldl_of_inflationary (CWallet.le_notify P t) l wallet
  exact (noNews_of_notify_le (hstep.trans hle)).of_le hbefore hle

/-! ## Where the transactions end up -/

/-- The place of a wallet transaction is the last one that a list of notifications gives. -/
structure CWalletTx.PlacedBy (P : Params) (wtx : CWalletTx) (es : List WalletEvent) : Prop where
  hashBlock : ∀ hash, (es.filterMap (WalletEvent.hashBlock? P)).getLast? = some hash →
    wtx.hashBlock = hash
  merkle : ∀ merkle, (es.filterMap (WalletEvent.merkle? P)).getLast? = some merkle →
    (wtx.nIndex, wtx.vMerkleBranch) = merkle

/-- A list of notifications leaves a transaction at the last place it gives. -/
theorem CWalletTx.foldl_merge (wtx : CWalletTx) (P : Params) (es : List WalletEvent) :
    es.foldl (fun wtx e => wtx.merge (placed P e.1 e.2)) wtx =
      wtx.withPlace ((es.filterMap (WalletEvent.hashBlock? P)).getLast?.getD wtx.hashBlock)
        ((es.filterMap (WalletEvent.merkle? P)).getLast?.getD (wtx.nIndex, wtx.vMerkleBranch)) := by
  induction es using List.reverseRecOn with
  | nil => rfl
  | append_singleton es e ih =>
    have hlast : ∀ {B : Type} (f : WalletEvent → Option B) (b : B),
        ((es ++ [e]).filterMap f).getLast?.getD b = (f e).getD ((es.filterMap f).getLast?.getD b) := by
      intro B f b
      rw [List.filterMap_append, List.getLast?_append]
      cases hf : f e with
      | none => simp [hf]
      | some a => simp [hf]
    rw [List.foldl_append, ih, List.foldl_cons, List.foldl_nil, merge_placed, hlast, hlast]
    rfl

/-- The notifications change nothing exactly when the transaction has its place already. -/
theorem CWalletTx.foldl_merge_eq_self (wtx : CWalletTx) (P : Params) (es : List WalletEvent) :
    es.foldl (fun wtx e => wtx.merge (placed P e.1 e.2)) wtx = wtx ↔ wtx.PlacedBy P es := by
  have hplace : ∀ (hash : Uint256) (merkle : ℤ × List Uint256), wtx.withPlace hash merkle = wtx ↔
      wtx.hashBlock = hash ∧ (wtx.nIndex, wtx.vMerkleBranch) = merkle := by
    intro hash merkle
    constructor
    · intro h
      rw [← h]
      exact ⟨rfl, rfl⟩
    · rintro ⟨rfl, rfl⟩
      rfl
  have hgetD : ∀ {B : Type} (o : Option B) (b : B), b = o.getD b ↔ ∀ a, o = some a → b = a := by
    intro B o b
    cases o with
    | none => simp
    | some a => simp
  rw [foldl_merge, hplace, hgetD, hgetD]
  exact ⟨fun h => ⟨h.1, h.2⟩, fun h => ⟨h.1, h.2⟩⟩

/-- The notifications about one transaction. -/
def eventsOf (P : Params) (hash : Uint256) (es : List WalletEvent) : List WalletEvent :=
  es.filter fun e => e.2.getHash P = hash

/-- The transactions of a wallet after notifications without news. -/
theorem CWallet.lookup_foldl_place (P : Params) (es : List WalletEvent) (wallet : CWallet)
    (hash : Uint256) : (es.foldl (CWallet.place P) wallet).mapWallet.lookup hash =
      (wallet.mapWallet.lookup hash).map fun wtx =>
        (eventsOf P hash es).foldl (fun wtx e => wtx.merge (.placed P e.1 e.2)) wtx := by
  induction es generalizing wallet with
  | nil => simp [eventsOf]
  | cons e es ih =>
    rw [List.foldl_cons, ih, eventsOf, eventsOf, List.filter_cons, place]
    by_cases heq : e.2.getHash P = hash
    · subst heq
      rw [if_pos (by simp)]
      cases hw : wallet.mapWallet.lookup (e.2.getHash P) with
      | none => simp [hw]
      | some wtx => simp only [lookup_insert_eq_ite, if_true, Option.map_some, List.foldl_cons]
    · rw [if_neg (by simpa using heq)]
      cases hw : wallet.mapWallet.lookup (e.2.getHash P) with
      | none => rfl
      | some wtx => simp only [lookup_insert_eq_ite, if_neg (Ne.symm heq)]

/-- **A wallet that a list of notifications tells nothing**: none of the transactions is news, and
each one that the wallet has is at the place that the last notification about it gives. -/
structure CWallet.Ignores (P : Params) (wallet : CWallet) (es : List WalletEvent) : Prop where
  noNews : ∀ e ∈ es, wallet.NoNews P e.2
  placed : ∀ hash wtx, wallet.mapWallet.lookup hash = some wtx → wtx.PlacedBy P (eventsOf P hash es)

/-- Moving transactions leaves the keys of a wallet alone. -/
theorem CWallet.foldl_place_keys (P : Params) (es : List WalletEvent) (wallet : CWallet) :
    (es.foldl (CWallet.place P) wallet).isMine = wallet.isMine ∧
      (es.foldl (CWallet.place P) wallet).nMinimumInputValue = wallet.nMinimumInputValue :=
  (le_foldl_of_inflationary (fun w e => (w.place_le P e).1) es wallet).1

/-- **Notifications leave a wallet as it is exactly when they tell it nothing.** -/
theorem CWallet.foldl_notify_eq_self {es : List WalletEvent} :
    es.foldl (CWallet.notify P t) wallet = wallet ↔ wallet.Ignores P es := by
  have hplaced : es.foldl (CWallet.place P) wallet = wallet ↔ ∀ hash wtx,
      wallet.mapWallet.lookup hash = some wtx → wtx.PlacedBy P (eventsOf P hash es) := by
    constructor
    · intro h hash wtx hw
      have hlook := lookup_foldl_place P es wallet hash
      rw [h, hw, Option.map_some, Option.some.injEq] at hlook
      exact (wtx.foldl_merge_eq_self P _).mp hlook.symm
    · intro h
      obtain ⟨hmine, hmin⟩ := foldl_place_keys P es wallet
      have hmap : (es.foldl (CWallet.place P) wallet).mapWallet = wallet.mapWallet := by
        refine Finmap.ext_lookup fun hash => ?_
        rw [lookup_foldl_place]
        cases hw : wallet.mapWallet.lookup hash with
        | none => rfl
        | some wtx => rw [Option.map_some, (wtx.foldl_merge_eq_self P _).mpr (h hash wtx hw)]
      generalize es.foldl (CWallet.place P) wallet = wallet' at hmine hmin hmap
      obtain ⟨mapWallet, isMine, nMinimumInputValue⟩ := wallet'
      obtain rfl : isMine = wallet.isMine := hmine
      obtain rfl : nMinimumInputValue = wallet.nMinimumInputValue := hmin
      obtain rfl : mapWallet = wallet.mapWallet := hmap
      rfl
  constructor
  · intro h
    have hnews := noNews_of_foldl_le h.le
    rw [foldl_notify_eq hnews] at h
    exact ⟨hnews, hplaced.mp h⟩
  · intro h
    rw [foldl_notify_eq h.noNews]
    exact hplaced.mpr h.placed

/-! ## A failed switch -/

/-- The wallets after the blocks of a list are connected one after the other. -/
theorem foldl_syncWithWallets (P : Params) (t : ℤ) (blocks : List CBlock) (wallets : List CWallet) :
    blocks.foldl (fun wallets block => syncWithWallets P t block wallets) wallets =
      wallets.map fun wallet => (walletEvents blocks).foldl (CWallet.notify P t) wallet := by
  induction blocks generalizing wallets with
  | nil => simp [walletEvents]
  | cons block blocks ih =>
    rw [List.foldl_cons, ih, syncWithWallets, List.map_map]
    refine List.map_congr_left fun wallet _ => ?_
    rw [Function.comp_apply, walletEvents, walletEvents, List.flatMap_cons, List.foldl_append,
      List.foldl_map]
    rfl

/-- The wallets are the same exactly when the blocks tell none of them anything. -/
theorem foldl_syncWithWallets_eq_self (P : Params) (t : ℤ) (blocks : List CBlock)
    (wallets : List CWallet) :
    blocks.foldl (fun wallets block => syncWithWallets P t block wallets) wallets = wallets ↔
      ∀ wallet ∈ wallets, wallet.Ignores P (walletEvents blocks) := by
  rw [foldl_syncWithWallets]
  constructor
  · intro h wallet hmem
    have heq := List.map_inj_left.mp (h.trans (List.map_id wallets).symm) wallet hmem
    exact CWallet.foldl_notify_eq_self.mp heq
  · intro h
    conv_rhs => rw [← List.map_id wallets]
    exact List.map_congr_left fun wallet hmem => CWallet.foldl_notify_eq_self.mpr (h wallet hmem)

/-- The blocks of a branch that connect, up to the first one that does not. -/
def connectedPrefix (P : Params) (v : ChainView) (io : Io) : CTxDB → List IndexWalk → List CBlock
  | _, [] => []
  | txdb, w :: ws =>
    match connectStep P v io txdb w with
    | .error _ => []
    | .ok (block, txdb) => block :: connectedPrefix P v io txdb ws

/-- The wallets that the connect loop leaves have been told about every block that connects. -/
theorem connectLoop_wallets (P : Params) (v : ChainView) (io : Io) (txdb : CTxDB)
    (vConnected : List CBlock) (wallets : List CWallet) (vConnect : List IndexWalk) :
    (connectLoop P v io txdb vConnected wallets vConnect).2 =
      (connectedPrefix P v io txdb vConnect).foldl
        (fun wallets block => syncWithWallets P v.nAdjustedTime block wallets) wallets := by
  induction vConnect generalizing txdb vConnected wallets with
  | nil => rfl
  | cons w ws ih =>
    rw [connectLoop, connectedPrefix]
    cases connectStep P v io txdb w with
    | error r => rfl
    | ok p => exact ih p.2 _ _

/-- The blocks that a reorganisation connects, up to the first failure. -/
def NodeState.connectedBlocks (P : Params) (env : Env) (s : NodeState) (pindexNew : CBlockIndex) :
    List CBlock :=
  match s.branches pindexNew with
  | .error _ => []
  | .ok (vDisconnect, vConnect) =>
    match vDisconnect.foldlM (disconnectStep P env.io s.files) (s.txdb, []) with
    | .error _ => []
    | .ok (txdb, _) => connectedPrefix P (s.view env) env.io txdb vConnect

/-- A reorganisation tells the wallets about every block it connects, whether it succeeds or not. -/
theorem NodeState.wallets_reorganize (P : Params) (env : Env) (s : NodeState) (p : CBlockIndex) :
    (s.reorganize P env p).2.setpwalletRegistered = (s.connectedBlocks P env p).foldl
      (fun wallets block => syncWithWallets P env.nAdjustedTime block wallets)
      s.setpwalletRegistered := by
  unfold reorganize connectedBlocks
  cases s.branches p with
  | error r => rfl
  | ok q =>
    obtain ⟨vDisconnect, vConnect⟩ := q
    simp only
    cases vDisconnect.foldlM (disconnectStep P env.io s.files) (s.txdb, []) with
    | error r => rfl
    | ok q =>
      simp only
      have hwallets := connectLoop_wallets P (s.view env) env.io q.1 [] s.setpwalletRegistered
        vConnect
      cases hloop : connectLoop P (s.view env) env.io q.1 [] s.setpwalletRegistered vConnect with
      | mk result wallets =>
      rw [hloop] at hwallets
      cases result with
      | error r => exact hwallets
      | ok q =>
        simp only
        split_ifs
        · exact hwallets
        · exact hwallets
        · exact hwallets

/-- `SetBestChainInner` tells the wallets about the block when it connects. -/
theorem NodeState.wallets_setBestChainInner (P : Params) (env : Env) (s : NodeState)
    (block : CBlock) (p : CBlockIndex) :
    (s.setBestChainInner P env block p).2.setpwalletRegistered =
      if (block.connectBlock P (s.view env) env.io s.txdb p (s.vPrev p)).isOk then
        syncWithWallets P env.nAdjustedTime block s.setpwalletRegistered
      else s.setpwalletRegistered := by
  have hinvalid : ∀ s : NodeState, (s.invalidChainFound p).setpwalletRegistered =
      s.setpwalletRegistered := by
    intro s
    unfold invalidChainFound
    split_ifs <;> rfl
  unfold setBestChainInner
  cases block.connectBlock P (s.view env) env.io s.txdb p (s.vPrev p) with
  | error r => exact hinvalid s
  | ok txdb =>
    rw [if_pos (show (Except.ok txdb : Result CTxDB).isOk = true from rfl)]
    simp only
    split_ifs
    · exact hinvalid _
    · rfl
    · split <;> rfl

/-- **A failed switch leaves the wallets as they are exactly when the blocks it had connected told
them nothing.** For `Reorganize` these are the blocks of the new branch up to the first failure; for
`SetBestChainInner` it is the block, when it connects and the commit fails. -/
theorem NodeState.wallets_of_failed_switch (P : Params) (env : Env) (s : NodeState) :
    (∀ (p : CBlockIndex) r s', s.reorganize P env p = (.error r, s') →
        (s'.setpwalletRegistered = s.setpwalletRegistered ↔
          ∀ wallet ∈ s.setpwalletRegistered,
            wallet.Ignores P (walletEvents (s.connectedBlocks P env p)))) ∧
      ∀ (block : CBlock) (p : CBlockIndex) r s',
        s.setBestChainInner P env block p = (.error r, s') →
        (s'.setpwalletRegistered = s.setpwalletRegistered ↔
          ((block.connectBlock P (s.view env) env.io s.txdb p (s.vPrev p)).isOk = true →
            ∀ wallet ∈ s.setpwalletRegistered, wallet.Ignores P (walletEvents [block]))) := by
  constructor
  · intro p r s' h
    have hwallets := s.wallets_reorganize P env p
    rw [h] at hwallets
    rw [hwallets]
    exact foldl_syncWithWallets_eq_self P env.nAdjustedTime _ _
  · intro block p r s' h
    have hwallets := s.wallets_setBestChainInner P env block p
    rw [h] at hwallets
    rw [hwallets]
    split_ifs with hok
    · simp only [hok, forall_const]
      exact foldl_syncWithWallets_eq_self P env.nAdjustedTime [block] s.setpwalletRegistered
    · simp [hok]

/-! ## A worked example -/

/-- An empty wallet that has the keys to every script, or to none. -/
def exampleWallet (fMine : Bool) : CWallet := ⟨∅, fun _ => fMine, 0⟩

/-- The second block of the other branch, with a coinbase that claims too much. -/
def badB2 : CBlock := exampleBlock 22 21 1400000600 [exampleCoinbase 4 [maxMoney]]

/-- A node with its tip on the first branch that has stored two blocks of the other one. -/
def rollbackNode (fMine : Bool) : NodeState :=
  ((genesisNode [exampleWallet fMine]).processBlocks
    [(exampleEnv, blockA1), (exampleEnv, blockB1)]).storeBlock exampleParams exampleEnv badB2

/-- The node of the example is reached. -/
theorem reachable_rollbackNode : Reachable (nodeSystem exampleParams) (rollbackNode true) := by
  have hgenesis : (genesisNode [exampleWallet true]).Loaded exampleParams :=
    loaded_genesisNode (by decide +kernel)
  have horphans : (genesisNode [exampleWallet true]).OrphansChecked exampleParams := by
    rw [NodeState.OrphansChecked,
      show (genesisNode [exampleWallet true]).mapOrphanBlocksByPrev = [] by decide +kernel]
    simp
  obtain ⟨u, hu⟩ := exists_of_isOk (x := badB2.checkBlock exampleParams 1400009000)
    (by decide +kernel)
  exact reachable_next (reachable_processBlocks (.start hgenesis) horphans)
    (.store exampleEnv badB2) ⟨_, u, hu⟩

/-- **A rolled-back block can stay in a wallet.** The second block of the longer branch is invalid
and the reorganisation fails, but a wallet keeps the coinbase of the first block of that branch. -/
theorem not_forall_wallets_unchanged : ¬∀ s, Reachable (nodeSystem exampleParams) s →
    ∀ env (p : CBlockIndex) r s', p.In s.mapBlockIndex →
      s.reorganize exampleParams env p = (.error r, s') →
      s'.setpwalletRegistered = s.setpwalletRegistered := by
  intro hall
  have herr : ((rollbackNode true).reorganize exampleParams exampleEnv
      ((rollbackNode true).indexOf 22)).1.isOk = false := by decide +kernel
  have hbefore : ((rollbackNode true).setpwalletRegistered.map fun wallet =>
      decide (exampleHash 3 ∈ wallet.mapWallet)) = [false] := by decide +kernel
  have hafter : (((rollbackNode true).reorganize exampleParams exampleEnv
      ((rollbackNode true).indexOf 22)).2.setpwalletRegistered.map fun wallet =>
        decide (exampleHash 3 ∈ wallet.mapWallet)) = [true] := by decide +kernel
  generalize hout : (rollbackNode true).reorganize exampleParams exampleEnv
    ((rollbackNode true).indexOf 22) = out at herr hafter
  obtain ⟨result, s'⟩ := out
  cases result with
  | ok u => cases herr
  | error r =>
    have hsame := hall _ reachable_rollbackNode exampleEnv _ r s' (by decide +kernel) hout
    rw [hsame, hbefore] at hafter
    cases hafter

/-- An environment in which the commits of `SetBestChainInner` and `Reorganize` fail. -/
def commitFails : Env := ⟨fun op => match op with | .txnCommit _ => false | _ => true, 1400009000⟩

/-- An empty wallet without keys learns nothing from a coinbase. -/
theorem ignores_coinbase (block : CBlock) {tag : UInt8} {values : List ℤ}
    (hvtx : block.vtx = [exampleCoinbase tag values])
    (h : wallet.mapWallet = ∅ ∧ wallet.isMine [] = false) :
    wallet.Ignores exampleParams (walletEvents [block]) := by
  refine ⟨fun e he => ?_, fun hash wtx hlook => ?_⟩
  · simp only [walletEvents, List.flatMap_cons, hvtx, List.map_cons, List.map_nil, List.flatMap_nil,
      List.append_nil, List.mem_singleton] at he
    subst he
    rw [CWallet.NoNews, h.1, Finmap.lookup_empty]
    refine ⟨?_, ?_, fun txin _ wtx hlook => ?_⟩
    · simp [CWallet.isMineTx, exampleCoinbase, exampleTx, h.2]
    · simp [CWallet.isFromMe, CWallet.getDebit, exampleCoinbase, exampleTx, h.1]
    · simp [h.1] at hlook
  · simp [h.1] at hlook

/-- The node without keys that has stored a block on top of the genesis block. -/
def keylessNode : NodeState :=
  (genesisNode [exampleWallet false]).storeBlock exampleParams exampleEnv blockA1

/-- A wallet without keys is the same after a failed reorganisation, and after a block whose commit
has failed. -/
theorem wallets_rollbackNode :
    (∃ r s', (rollbackNode false).reorganize exampleParams exampleEnv
        ((rollbackNode false).indexOf 22) = (.error r, s') ∧
      s'.setpwalletRegistered = (rollbackNode false).setpwalletRegistered) ∧
    ∃ r s', keylessNode.setBestChainInner exampleParams commitFails blockA1
        (keylessNode.indexOf 11) = (.error r, s') ∧
      s'.setpwalletRegistered = keylessNode.setpwalletRegistered := by
  constructor
  · have herr : ((rollbackNode false).reorganize exampleParams exampleEnv
        ((rollbackNode false).indexOf 22)).1.isOk = false := by decide +kernel
    cases hout : (rollbackNode false).reorganize exampleParams exampleEnv
      ((rollbackNode false).indexOf 22) with
    | mk result s' =>
    rw [hout] at herr
    cases result with
    | ok u => cases herr
    | error r =>
      refine ⟨r, s', rfl, ((NodeState.wallets_of_failed_switch _ _ _).1 _ r s' hout).mpr ?_⟩
      have hempty : ∀ wallet ∈ (rollbackNode false).setpwalletRegistered,
          wallet.mapWallet = ∅ ∧ wallet.isMine [] = false := by decide +kernel
      rw [show (rollbackNode false).connectedBlocks exampleParams exampleEnv
        ((rollbackNode false).indexOf 22) = [blockB1] by decide +kernel]
      exact fun wallet hmem => ignores_coinbase blockB1 rfl (hempty wallet hmem)
  · have herr : (keylessNode.setBestChainInner exampleParams commitFails blockA1
        (keylessNode.indexOf 11)).1.isOk = false := by decide +kernel
    cases hout : keylessNode.setBestChainInner exampleParams commitFails blockA1
      (keylessNode.indexOf 11) with
    | mk result s' =>
    rw [hout] at herr
    cases result with
    | ok u => cases herr
    | error r =>
      refine ⟨r, s', rfl, ((NodeState.wallets_of_failed_switch _ _ _).2 _ _ r s' hout).mpr ?_⟩
      have hempty : ∀ wallet ∈ keylessNode.setpwalletRegistered,
          wallet.mapWallet = ∅ ∧ wallet.isMine [] = false := by decide +kernel
      exact fun _ wallet hmem =>
        ignores_coinbase blockA1 rfl (hempty wallet hmem)

end FoxCoin
