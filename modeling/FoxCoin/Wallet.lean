import FoxCoin.Block

/-! # Wallets

A wallet keeps the transactions that pay to it or spend its coins, with the block each was last seen
in and the outputs it knows to be spent. `SyncWithWallets` tells the registered wallets about every
transaction of a block that `ConnectBlock` has connected. -/

namespace FoxCoin

/-! ## Wallet transactions -/

/-- `CWalletTx`, as far as a block changes it. -/
structure CWalletTx where
  tx : CTransaction
  hashBlock : Uint256
  vMerkleBranch : List Uint256
  nIndex : ℤ
  nTimeReceived : ℤ
  fFromMe : Bool
  vfSpent : List Bool
  deriving DecidableEq

/-- `CWalletTx(pwallet, tx)`. -/
def CWalletTx.ofTx (tx : CTransaction) : CWalletTx := ⟨tx, 0, [], -1, 0, false, []⟩

/-- The position of the first transaction of a block that equals `tx`. -/
def CBlock.txIndex (block : CBlock) (tx : CTransaction) : Option ℕ :=
  block.vtx.findIdx? (· == tx)

/-- `CMerkleTx::SetMerkleBranch(pblock)`. -/
def CWalletTx.setMerkleBranch (P : Params) (wtx : CWalletTx) (block : CBlock) : CWalletTx :=
  match block.txIndex wtx.tx with
  | some nIndex => { wtx with
      hashBlock := block.getHash P
      nIndex := nIndex
      vMerkleBranch := block.getMerkleBranch P nIndex }
  | none => { wtx with hashBlock := block.getHash P, nIndex := -1, vMerkleBranch := [] }

/-- `CWalletTx::IsSpent`. -/
def CWalletTx.isSpent (wtx : CWalletTx) (nOut : ℕ) : Bool := wtx.vfSpent.getD nOut false

/-- `vfSpent.resize(vout.size())`: cut or fill with `false`. -/
def resizeSpent (vfSpent : List Bool) (nSize : ℕ) : List Bool :=
  vfSpent.take nSize ++ List.replicate (nSize - vfSpent.length) false

/-- `CWalletTx::MarkSpent`. -/
def CWalletTx.markSpent (wtx : CWalletTx) (nOut : ℕ) : CWalletTx :=
  { wtx with vfSpent := (resizeSpent wtx.vfSpent wtx.tx.vout.length).set nOut true }

/-- `CWalletTx::UpdateSpent`: outputs that `vfNewSpent` marks are marked, as far as both reach. -/
def CWalletTx.updateSpent (wtx : CWalletTx) (vfNewSpent : List Bool) : CWalletTx :=
  { wtx with vfSpent := wtx.vfSpent.zipIdx.map fun p => p.1 || vfNewSpent.getD p.2 false }

/-- The merge of `AddToWallet` into a transaction the wallet has already. -/
def CWalletTx.merge (wtx wtxIn : CWalletTx) : CWalletTx :=
  let wtx := if wtxIn.hashBlock ≠ 0 ∧ wtxIn.hashBlock ≠ wtx.hashBlock then
    { wtx with hashBlock := wtxIn.hashBlock } else wtx
  let wtx := if wtxIn.nIndex ≠ -1 ∧
      (wtxIn.vMerkleBranch ≠ wtx.vMerkleBranch ∨ wtxIn.nIndex ≠ wtx.nIndex) then
    { wtx with vMerkleBranch := wtxIn.vMerkleBranch, nIndex := wtxIn.nIndex } else wtx
  let wtx := if wtxIn.fFromMe = true ∧ wtxIn.fFromMe ≠ wtx.fFromMe then
    { wtx with fFromMe := wtxIn.fFromMe } else wtx
  wtx.updateSpent wtxIn.vfSpent

/-! ## Wallets -/

/-- `CWallet`: its transactions, the scripts its keys can satisfy, and the smallest amount it takes
notice of. -/
structure CWallet where
  mapWallet : StdMap Uint256 CWalletTx
  isMine : CScript → Bool
  nMinimumInputValue : ℤ

/-- `CWallet::IsMine(tx)`. -/
def CWallet.isMineTx (wallet : CWallet) (tx : CTransaction) : Bool :=
  tx.vout.any fun txout => wallet.isMine txout.scriptPubKey &&
    decide (wallet.nMinimumInputValue ≤ txout.nValue)

/-- `CWallet::GetDebit(txin)`. -/
def CWallet.getDebit (wallet : CWallet) (txin : CTxIn) : ℤ :=
  match wallet.mapWallet.lookup txin.prevout.hash with
  | none => 0
  | some prev =>
    match prev.tx.vout[txin.prevout.n]? with
    | none => 0
    | some txout => if wallet.isMine txout.scriptPubKey then txout.nValue else 0

/-- `CWallet::IsFromMe`. -/
def CWallet.isFromMe (wallet : CWallet) (tx : CTransaction) : Bool :=
  decide (0 < (tx.vin.map wallet.getDebit).sum)

/-- The test of `WalletUpdateSpent`: the output is the wallet's and not known to be spent. -/
def CWallet.isSpendNews (wallet : CWallet) (wtx : CWalletTx) (nOut : ℕ) : Bool :=
  !wtx.isSpent nOut && (wtx.tx.vout[nOut]?).any fun txout => wallet.isMine txout.scriptPubKey

/-- One round of the loop of `WalletUpdateSpent`. -/
def CWallet.updateSpentInput (wallet : CWallet) (txin : CTxIn) : CWallet :=
  match wallet.mapWallet.lookup txin.prevout.hash with
  | none => wallet
  | some wtx =>
    if wallet.isSpendNews wtx txin.prevout.n then
      { wallet with
        mapWallet := wallet.mapWallet.insert txin.prevout.hash (wtx.markSpent txin.prevout.n) }
    else wallet

/-- `CWallet::WalletUpdateSpent`. -/
def CWallet.walletUpdateSpent (wallet : CWallet) (tx : CTransaction) : CWallet :=
  tx.vin.foldl CWallet.updateSpentInput wallet

/-- `CWallet::AddToWallet`. -/
def CWallet.addToWallet (P : Params) (nAdjustedTime : ℤ) (wallet : CWallet) (wtxIn : CWalletTx) :
    CWallet :=
  let hash := wtxIn.tx.getHash P
  let wtx := match wallet.mapWallet.lookup hash with
    | none => { wtxIn with nTimeReceived := nAdjustedTime }
    | some wtx => wtx.merge wtxIn
  CWallet.walletUpdateSpent { wallet with mapWallet := wallet.mapWallet.insert hash wtx } wtx.tx

/-- `CWallet::AddToWalletIfInvolvingMe` for a transaction of a block, with `fUpdate` set. -/
def CWallet.addToWalletIfInvolvingMe (P : Params) (nAdjustedTime : ℤ) (block : CBlock)
    (wallet : CWallet) (tx : CTransaction) : CWallet :=
  if tx.getHash P ∈ wallet.mapWallet ∨ wallet.isMineTx tx = true ∨ wallet.isFromMe tx = true then
    wallet.addToWallet P nAdjustedTime ((CWalletTx.ofTx tx).setMerkleBranch P block)
  else wallet.walletUpdateSpent tx

/-- The notification at the end of `ConnectBlock`: one wallet learns about every transaction. -/
def CWallet.syncWithBlock (P : Params) (nAdjustedTime : ℤ) (wallet : CWallet) (block : CBlock) :
    CWallet := block.vtx.foldl (CWallet.addToWalletIfInvolvingMe P nAdjustedTime block) wallet

/-- `SyncWithWallets` for every transaction of a block. The wallets are independent of each
other. -/
def syncWithWallets (P : Params) (nAdjustedTime : ℤ) (block : CBlock) (wallets : List CWallet) :
    List CWallet := wallets.map fun wallet => wallet.syncWithBlock P nAdjustedTime block

end FoxCoin
