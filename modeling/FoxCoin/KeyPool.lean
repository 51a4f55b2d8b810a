import FoxCoin.KeyStore
import Mathlib.Data.Finset.Max

/-! # The key pool

A wallet generates keys ahead of their use. The indexes of the unused ones are in `setKeyPool`,
their public keys in records of the wallet file. A holder reserves the oldest index, and then keeps
the key or returns it. -/

namespace FoxCoin

open Checked

/-! ## The wallet -/

/-- What key generation and the configuration give: the `n`-th key that is generated, the hash that
identifies a key, and `-keypool`. -/
structure KeyPoolParams where
  newKey : ℕ → Valtype
  getID : Valtype → Valtype
  nKeypool : ℤ

/-- Which operations on the wallet file succeed: storing the `n`-th generated key, and reading,
writing and erasing a pool record. -/
structure KeyPoolIo where
  addKey : ℕ → Bool
  readPool : ℤ → Bool
  writePool : ℤ → Bool
  erasePool : ℤ → Bool

/-- `CWallet`, as far as the key pool needs it. `pool` holds the pool records of the wallet file,
less their times; `mapKeys` the identifiers of the keys in the key store; `nGenerated` counts the
keys that were generated. -/
structure KeyPoolWallet where
  fLocked : Bool
  setKeyPool : Finset ℤ
  pool : StdMap ℤ Valtype
  mapKeys : Finset Valtype
  vchDefaultKey : Valtype
  nGenerated : ℕ

/-- `CReserveKey`: the index it has reserved, or `-1`, and its key. -/
structure CReserveKey where
  nIndex : ℤ
  vchPubKey : Valtype

/-- `CReserveKey::CReserveKey`. -/
def CReserveKey.new : CReserveKey := ⟨-1, []⟩

/-- `CPubKey::IsValid`. -/
def validPubKey (vchPubKey : Valtype) : Bool :=
  vchPubKey.length == 33 || vchPubKey.length == 65

variable (K : KeyPoolParams) (io : KeyPoolIo)

namespace KeyPoolWallet

/-- `CWalletDB::WritePool`: whether it succeeds, and the wallet after it. -/
def writePool (w : KeyPoolWallet) (nPool : ℤ) (vchPubKey : Valtype) : Bool × KeyPoolWallet :=
  if io.writePool nPool then (true, { w with pool := w.pool.insert nPool vchPubKey })
  else (false, w)

/-- `CWalletDB::ErasePool`. -/
def erasePool (w : KeyPoolWallet) (nPool : ℤ) : KeyPoolWallet :=
  if io.erasePool nPool then { w with pool := w.pool.erase nPool } else w

/-- `CWalletDB::ReadPool`. -/
def readPool (w : KeyPoolWallet) (nPool : ℤ) : Option Valtype :=
  if io.readPool nPool then w.pool.lookup nPool else none

/-- `CWallet::GenerateNewKey`. -/
def generateNewKey (w : KeyPoolWallet) : Except String Valtype × KeyPoolWallet :=
  let vchPubKey := K.newKey w.nGenerated
  if io.addKey w.nGenerated then
    (.ok vchPubKey, { w with
      nGenerated := w.nGenerated + 1
      mapKeys := insert (K.getID vchPubKey) w.mapKeys })
  else (.error "CWallet::GenerateNewKey() : AddKey failed",
    { w with nGenerated := w.nGenerated + 1 })

/-! ## Filling the pool -/

/-- The loop of `NewKeyPool` from `i`, with `n` keys to go. A record that cannot be written is not
noticed. -/
def newKeyPoolLoop : ℕ → ℕ → KeyPoolWallet → Except String Bool × KeyPoolWallet
  | 0, _, w => (.ok true, w)
  | n + 1, i, w =>
    match w.generateNewKey K io with
    | (.error e, w) => (.error e, w)
    | (.ok vchPubKey, w) =>
      let nIndex : ℤ := i + 1
      let (_, w) := w.writePool io nIndex vchPubKey
      newKeyPoolLoop n (i + 1) { w with setKeyPool := insert nIndex w.setKeyPool }

/-- `max(GetArg("-keypool", 100), 0)`. -/
def nKeys : ℕ := K.nKeypool.toNat

/-- `CWallet::NewKeyPool`. -/
def newKeyPool (w : KeyPoolWallet) : Except String Bool × KeyPoolWallet :=
  let w := (idsInOrder w.setKeyPool).foldl (erasePool io) w
  let w := { w with setKeyPool := ∅ }
  if w.fLocked then (.ok false, w) else newKeyPoolLoop K io (nKeys K) 0 w

/-- The index `TopUpKeyPool` gives to its next key. -/
def nEnd (w : KeyPoolWallet) : ℤ :=
  if h : w.setKeyPool.Nonempty then w.setKeyPool.max' h + 1 else 1

/-- The loop of `TopUpKeyPool`. Every round adds an index, so the number of missing ones is enough
fuel. -/
def topUpLoop (nTarget : ℕ) : ℕ → KeyPoolWallet → Except String Bool × KeyPoolWallet
  | 0, w => (.ok true, w)
  | nFuel + 1, w =>
    if w.setKeyPool.card < nTarget then
      match w.generateNewKey K io with
      | (.error e, w) => (.error e, w)
      | (.ok vchPubKey, w) =>
        match w.writePool io w.nEnd vchPubKey with
        | (false, w) => (.error "TopUpKeyPool() : writing generated key failed", w)
        | (true, w) => topUpLoop nTarget nFuel { w with setKeyPool := insert w.nEnd w.setKeyPool }
    else (.ok true, w)

/-- How many keys `TopUpKeyPool` wants. The target and its successor are `unsigned int`s. -/
def nTarget : ℕ := (nKeys K % 2 ^ 32 + 1) % 2 ^ 32

/-- `CWallet::TopUpKeyPool`. -/
def topUpKeyPool (w : KeyPoolWallet) : Except String Bool × KeyPoolWallet :=
  if w.fLocked then (.ok false, w)
  else topUpLoop K io (nTarget K) (nTarget K - w.setKeyPool.card) w

/-! ## Reservations -/

/-- `CWallet::ReserveKeyFromKeyPool`. It writes the index and the key to its references also when it
throws. A failed assertion ends the process, which is a throw here. -/
def reserveKeyFromKeyPool (w : KeyPoolWallet) : Except String Unit × CReserveKey × KeyPoolWallet :=
  match if w.fLocked then (.ok false, w) else w.topUpKeyPool K io with
  | (.error e, w) => (.error e, ⟨-1, []⟩, w)
  | (.ok _, w) =>
    if h : w.setKeyPool.Nonempty then
      let nIndex := w.setKeyPool.min' h
      let w := { w with setKeyPool := w.setKeyPool.erase nIndex }
      match w.readPool io nIndex with
      | none => (.error "ReserveKeyFromKeyPool() : read failed", ⟨nIndex, []⟩, w)
      | some vchPubKey =>
        if K.getID vchPubKey ∉ w.mapKeys then
          (.error "ReserveKeyFromKeyPool() : unknown key in key pool", ⟨nIndex, vchPubKey⟩, w)
        else if validPubKey vchPubKey then (.ok (), ⟨nIndex, vchPubKey⟩, w)
        else (.error "assert(keypool.vchPubKey.IsValid())", ⟨nIndex, vchPubKey⟩, w)
    else (.ok (), ⟨-1, []⟩, w)

/-- `CWallet::KeepKey`. -/
def keepKey (w : KeyPoolWallet) (nIndex : ℤ) : KeyPoolWallet := w.erasePool io nIndex

/-- `CWallet::ReturnKey`. -/
def returnKey (w : KeyPoolWallet) (nIndex : ℤ) : KeyPoolWallet :=
  { w with setKeyPool := insert nIndex w.setKeyPool }

/-- `CWallet::GetKeyFromPool`: whether it succeeds, with its result, and the index the key came
from. -/
def getKeyFromPool (w : KeyPoolWallet) (fAllowReuse : Bool) :
    Except String (Option CReserveKey) × KeyPoolWallet :=
  match w.reserveKeyFromKeyPool K io with
  | (.error e, _, w) => (.error e, w)
  | (.ok (), keypool, w) =>
    if keypool.nIndex = -1 then
      if fAllowReuse && validPubKey w.vchDefaultKey then (.ok (some ⟨-1, w.vchDefaultKey⟩), w)
      else if w.fLocked then (.ok none, w)
      else
        match w.generateNewKey K io with
        | (.error e, w) => (.error e, w)
        | (.ok vchPubKey, w) => (.ok (some ⟨-1, vchPubKey⟩), w)
    else (.ok (some keypool), w.keepKey io keypool.nIndex)

end KeyPoolWallet

namespace CReserveKey

/-- `CReserveKey::GetReservedKey`. A throw leaves the reserved index in place. -/
def getReservedKey (holder : CReserveKey) (w : KeyPoolWallet) :
    Except String Valtype × CReserveKey × KeyPoolWallet :=
  if holder.nIndex = -1 then
    match w.reserveKeyFromKeyPool K io with
    | (.error e, keypool, w) => (.error e, { holder with nIndex := keypool.nIndex }, w)
    | (.ok (), keypool, w) =>
      let holder : CReserveKey := if keypool.nIndex ≠ -1 then keypool else ⟨-1, w.vchDefaultKey⟩
      (if validPubKey holder.vchPubKey then .ok holder.vchPubKey
        else .error "assert(vchPubKey.IsValid())", holder, w)
  else
    (if validPubKey holder.vchPubKey then .ok holder.vchPubKey
      else .error "assert(vchPubKey.IsValid())", holder, w)

/-- `CReserveKey::KeepKey`. -/
def keepKey (holder : CReserveKey) (w : KeyPoolWallet) : CReserveKey × KeyPoolWallet :=
  (.new, if holder.nIndex ≠ -1 then w.keepKey io holder.nIndex else w)

/-- `CReserveKey::ReturnKey`, which the destructor calls too. -/
def returnKey (holder : CReserveKey) (w : KeyPoolWallet) : CReserveKey × KeyPoolWallet :=
  (.new, if holder.nIndex ≠ -1 then w.returnKey holder.nIndex else w)

end CReserveKey

end FoxCoin
