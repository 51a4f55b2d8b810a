import FoxCoin.DataModel

/-! # Keys

`CKey` wraps a key of the elliptic curve library. That a public key is compressed is kept twice: in
the library's key as the form that points are written in, and in `fCompressedPubKey`. The library is
a parameter. -/

namespace FoxCoin

/-! ## The curve library -/

/-- A serialized public key. -/
abbrev CPubKey := List UInt8

/-- The bytes of a secret parameter. -/
abbrev CSecret := List UInt8

/-- `POINT_CONVERSION_COMPRESSED`. -/
def pointConversionCompressed : UInt8 := 2

/-- `POINT_CONVERSION_UNCOMPRESSED`. -/
def pointConversionUncompressed : UInt8 := 4

/-- `EC_KEY`: the secret parameter, the point of the public key, and the form it is written in. -/
structure ECKey (Point : Type) where
  priv : Option (Vector UInt8 32)
  pub : Option Point
  convForm : UInt8
  deriving DecidableEq

/-- The functions of the curve library. -/
structure ECOps (Point : Type) where
  /-- `EC_POINT_mul`: the public key of a secret. -/
  mul : Vector UInt8 32 → Point
  /-- `EC_POINT_oct2point`. -/
  oct2point : CPubKey → Option Point
  /-- `EC_POINT_point2oct`. -/
  point2oct : Point → UInt8 → CPubKey
  /-- `d2i_ECPrivateKey`: whether it succeeds, and the key it leaves. -/
  d2i : ECKey Point → List UInt8 → Bool × ECKey Point
  /-- `ECDSA_SIG_recover_key_GFp` for a hash, the two numbers of a signature, and the recovery
  id. -/
  recover : Uint256 → List UInt8 → ℕ → Option Point

/-- The form that octets are in: `o2i_ECPublicKey` takes it from the first one. -/
def convFormOf (vchPubKey : CPubKey) : UInt8 := vchPubKey.headD 0 &&& 0xfe

/-- What the documentation of the library says about octets: a point is read from the octets that it
is written as, which are a single zero for the point at infinity, and 33 octets are the compressed
form. -/
structure ECOps.Lawful {Point : Type} (ops : ECOps Point) : Prop where
  oct2point_compressed : ∀ p, ops.oct2point (ops.point2oct p pointConversionCompressed) = some p
  oct2point_uncompressed : ∀ p, ops.oct2point (ops.point2oct p pointConversionUncompressed) = some p
  octets : ∀ p, (ops.point2oct p pointConversionCompressed = [0] ∧
      ops.point2oct p pointConversionUncompressed = [0]) ∨
    ((ops.point2oct p pointConversionCompressed).length = 33 ∧
      (ops.point2oct p pointConversionUncompressed).length = 65)
  compressed_of_length : ∀ p form, (ops.point2oct p form).length = 33 →
    form = pointConversionCompressed
  convForm_of_length : ∀ v p, ops.oct2point v = some p →
    (convFormOf v = pointConversionCompressed ↔ v.length = 33)

theorem ECOps.Lawful.length_compressed {Point : Type} {ops : ECOps Point} (hops : ops.Lawful)
    (p : Point) : (ops.point2oct p pointConversionCompressed).length = 1 ∨
      (ops.point2oct p pointConversionCompressed).length = 33 := by
  obtain ⟨h, -⟩ | ⟨h, -⟩ := hops.octets p
  · exact .inl (by rw [h]; rfl)
  · exact .inr h

/-! ## Keys -/

/-- `CKey`. -/
structure CKey (Point : Type) where
  pkey : ECKey Point
  fSet : Bool
  fCompressedPubKey : Bool
  deriving DecidableEq

variable {Point : Type}

/-- `EC_KEY_new_by_curve_name`. -/
def ECKey.new : ECKey Point := ⟨none, none, pointConversionUncompressed⟩

namespace CKey

/-- `SetCompressedPubKey`. -/
def setCompressedPubKey (key : CKey Point) : CKey Point :=
  { key with
    pkey := { key.pkey with convForm := pointConversionCompressed }
    fCompressedPubKey := true }

/-- `Reset`, which is also the constructor. -/
def reset : CKey Point := ⟨ECKey.new, false, false⟩

/-- The copy constructor. It leaves `fCompressedPubKey` as the memory of the new object was. -/
def copy (b : CKey Point) (fUninitialized : Bool) : CKey Point := ⟨b.pkey, b.fSet, fUninitialized⟩

/-- `operator=`. -/
def assign (key b : CKey Point) : CKey Point := { key with pkey := b.pkey, fSet := b.fSet }

variable (ops : ECOps Point)

/-- `MakeNewKey`, with the secret that the library generates. -/
def makeNewKey (key : CKey Point) (fCompressed : Bool) (secret : Vector UInt8 32) : CKey Point :=
  let key := { key with pkey := ⟨some secret, some (ops.mul secret), key.pkey.convForm⟩ }
  let key := if fCompressed then key.setCompressedPubKey else key
  { key with fSet := true }

/-- `SetPrivKey`: whether it succeeds, and the key after it. -/
def setPrivKey (key : CKey Point) (vchPrivKey : List UInt8) : Bool × CKey Point :=
  let (fRead, pkey) := ops.d2i key.pkey vchPrivKey
  (fRead, { key with pkey := pkey, fSet := fRead || key.fSet })

/-- `SetSecret`: whether it succeeds, and the key after it. It throws for a secret of another size,
when the old key is gone. -/
def setSecret (key : CKey Point) (vchSecret : CSecret) (fCompressed : Bool) : Bool × CKey Point :=
  let key := { key with pkey := ECKey.new }
  if h : vchSecret.length = 32 then
    let secret : Vector UInt8 32 := ⟨vchSecret.toArray, h⟩
    let key := { key with
      pkey := { key.pkey with priv := some secret, pub := some (ops.mul secret) }
      fSet := true }
    (true, if fCompressed || key.fCompressedPubKey then key.setCompressedPubKey else key)
  else (false, key)

/-- `GetSecret`. It throws when there is no secret. -/
def getSecret (key : CKey Point) : Option (CSecret × Bool) :=
  key.pkey.priv.map fun secret => (secret.toList, key.fCompressedPubKey)

/-- `SetPubKey`: whether it succeeds, and the key after it. -/
def setPubKey (key : CKey Point) (vchPubKey : CPubKey) : Bool × CKey Point :=
  match ops.oct2point vchPubKey with
  | none => (false, key)
  | some point =>
    let key := { key with
      pkey := { key.pkey with pub := some point, convForm := convFormOf vchPubKey }
      fSet := true }
    (true, if vchPubKey.length = 33 then key.setCompressedPubKey else key)

/-- `GetPubKey`. It throws when there is no public key. -/
def getPubKey (key : CKey Point) : Option CPubKey :=
  key.pkey.pub.map fun point => ops.point2oct point key.pkey.convForm

/-- `SetCompactSignature`: whether it succeeds, and the key after it. -/
def setCompactSignature (key : CKey Point) (hash : Uint256) (vchSig : List UInt8) :
    Bool × CKey Point :=
  let nV := (vchSig.headD 0).toNat
  if vchSig.length ≠ 65 then (false, key)
  else if nV < 27 ∨ 35 ≤ nV then (false, key)
  else
    let key := { key with pkey := ECKey.new }
    let (key, nV) := if 31 ≤ nV then (key.setCompressedPubKey, nV - 4) else (key, nV)
    match ops.recover hash vchSig.tail (nV - 27) with
    | none => (false, key)
    | some point => (true, { key with pkey := { key.pkey with pub := some point }, fSet := true })

/-- `IsCompressed`. -/
def isCompressed (key : CKey Point) : Bool := key.fCompressedPubKey

/-- `IsValid`. -/
def isValid (key : CKey Point) : Bool :=
  if !key.fSet then false
  else
    match key.getSecret with
    | none => false
    | some (secret, fCompr) =>
      let key2 := (reset.setSecret ops secret fCompr).2
      key.getPubKey ops == key2.getPubKey ops

/-! ## The two places of the compressed form -/

/-- The flag says what the form of the library's key is. -/
def Agrees (key : CKey Point) : Prop :=
  key.fCompressedPubKey = true ↔ key.pkey.convForm = pointConversionCompressed

theorem agrees_reset : (reset : CKey Point).Agrees := by simp [Agrees, reset, ECKey.new]; decide

theorem agrees_setCompressedPubKey (key : CKey Point) : key.setCompressedPubKey.Agrees := by
  simp [Agrees, setCompressedPubKey]

theorem agrees_copy_iff {b : CKey Point} (h : b.Agrees) (fUninitialized : Bool) :
    (b.copy fUninitialized).Agrees ↔ fUninitialized = b.fCompressedPubKey := by
  show (fUninitialized = true ↔ b.pkey.convForm = pointConversionCompressed) ↔ _
  unfold Agrees at h
  rw [← h]
  exact Bool.eq_iff_iff.symm

theorem agrees_assign_iff {key b : CKey Point} (h : b.Agrees) :
    (key.assign b).Agrees ↔ key.fCompressedPubKey = b.fCompressedPubKey := by
  show (key.fCompressedPubKey = true ↔ b.pkey.convForm = pointConversionCompressed) ↔ _
  unfold Agrees at h
  rw [← h]
  exact Bool.eq_iff_iff.symm

variable {ops}

theorem Agrees.makeNewKey {key : CKey Point} (h : key.Agrees) (fCompressed : Bool)
    (secret : Vector UInt8 32) : (key.makeNewKey ops fCompressed secret).Agrees := by
  cases fCompressed with
  | false => exact h
  | true => exact agrees_setCompressedPubKey key

theorem agrees_setPrivKey_iff (key : CKey Point) (vchPrivKey : List UInt8) :
    (key.setPrivKey ops vchPrivKey).2.Agrees ↔
      (key.fCompressedPubKey = true ↔
        (ops.d2i key.pkey vchPrivKey).2.convForm = pointConversionCompressed) := Iff.rfl

/-- A new key of the library, under a flag that is kept. -/
theorem agrees_newKey_iff (key : CKey Point) (priv : Option (Vector UInt8 32)) (pub : Option Point)
    (fSet : Bool) :
    (⟨⟨priv, pub, pointConversionUncompressed⟩, fSet, key.fCompressedPubKey⟩ : CKey Point).Agrees ↔
      key.fCompressedPubKey = false := by
  have hne : pointConversionUncompressed ≠ pointConversionCompressed := by decide
  simp [Agrees, hne]

theorem agrees_setSecret_iff (key : CKey Point) (vchSecret : CSecret) (fCompressed : Bool) :
    (key.setSecret ops vchSecret fCompressed).2.Agrees ↔
      vchSecret.length = 32 ∨ key.fCompressedPubKey = false := by
  rw [setSecret]
  split
  next h =>
    refine iff_of_true ?_ (.inl h)
    dsimp only
    split
    next => exact agrees_setCompressedPubKey _
    next hflag =>
      rw [Bool.or_eq_true, not_or, Bool.not_eq_true, Bool.not_eq_true] at hflag
      exact (agrees_newKey_iff key _ _ _).mpr hflag.2
  next h =>
    rw [or_iff_right h]
    exact agrees_newKey_iff key none none key.fSet

theorem agrees_setPubKey_iff (hops : ops.Lawful) {key : CKey Point} (h : key.Agrees)
    (vchPubKey : CPubKey) :
    (key.setPubKey ops vchPubKey).2.Agrees ↔
      ops.oct2point vchPubKey = none ∨ vchPubKey.length = 33 ∨ key.fCompressedPubKey = false := by
  rw [setPubKey]
  cases hpoint : ops.oct2point vchPubKey with
  | none => exact iff_of_true h (.inl rfl)
  | some point =>
    have hform := hops.convForm_of_length vchPubKey point hpoint
    dsimp only
    split
    next hlen => exact iff_of_true (agrees_setCompressedPubKey _) (.inr (.inl hlen))
    next hlen =>
      simp only [Agrees, hform, hlen, iff_false, Bool.not_eq_true, reduceCtorEq, false_or]

theorem agrees_setCompactSignature_iff {key : CKey Point} (h : key.Agrees) (hash : Uint256)
    (vchSig : List UInt8) :
    (key.setCompactSignature ops hash vchSig).2.Agrees ↔
      vchSig.length ≠ 65 ∨ (vchSig.headD 0).toNat < 27 ∨ 31 ≤ (vchSig.headD 0).toNat ∨
        key.fCompressedPubKey = false := by
  obtain ⟨nV, hnV⟩ : ∃ nV, nV = (vchSig.headD 0).toNat := ⟨_, rfl⟩
  rw [setCompactSignature]
  simp only [← hnV]
  split
  next hlen => exact iff_of_true h (.inl hlen)
  next hlen =>
    split
    next hrange => exact iff_of_true h (by omega)
    next hrange =>
      by_cases hcompressed : 31 ≤ nV
      · refine iff_of_true ?_ (by omega)
        simp only [if_pos hcompressed]
        split
        next => exact agrees_setCompressedPubKey _
        next => simp [Agrees, setCompressedPubKey]
      · have hright : (vchSig.length ≠ 65 ∨ nV < 27 ∨ 31 ≤ nV ∨ key.fCompressedPubKey = false) ↔
            key.fCompressedPubKey = false := by
          constructor
          · rintro (h | h | h | h)
            · exact absurd h hlen
            · omega
            · omega
            · exact h
          · exact fun h => .inr (.inr (.inr h))
        rw [hright]
        simp only [if_neg hcompressed]
        cases ops.recover hash vchSig.tail (nV - 27) with
        | none => exact agrees_newKey_iff key none none key.fSet
        | some point => exact agrees_newKey_iff key none (some point) true

/-- The flag tells how long a public key is. -/
theorem Agrees.isCompressed_iff (hops : ops.Lawful) {key : CKey Point} (h : key.Agrees)
    {vchPubKey : CPubKey} (hpub : key.getPubKey ops = some vchPubKey)
    (hvalid : vchPubKey.length = 33 ∨ vchPubKey.length = 65) :
    key.isCompressed = true ↔ vchPubKey.length = 33 := by
  obtain ⟨point, -, rfl⟩ := Option.map_eq_some_iff.mp hpub
  refine ⟨fun hflag => ?_, fun hlen => h.mpr (hops.compressed_of_length point _ hlen)⟩
  have hlength := hops.length_compressed point
  rw [← h.mp hflag] at hlength
  omega

/-! ## Secrets and public keys -/

/-- The form of the points of a key whose public key is or is not compressed. -/
def convForm (fCompressed : Bool) : UInt8 :=
  if fCompressed then pointConversionCompressed else pointConversionUncompressed

/-- `SetSecret` does not look at the old key of the library. -/
theorem setSecret_eq (key : CKey Point) {vchSecret : CSecret} (h : vchSecret.length = 32)
    (fCompressed : Bool) :
    key.setSecret ops vchSecret fCompressed =
      (true, ⟨⟨some ⟨vchSecret.toArray, h⟩, some (ops.mul ⟨vchSecret.toArray, h⟩),
        convForm (fCompressed || key.fCompressedPubKey)⟩, true,
        fCompressed || key.fCompressedPubKey⟩) := by
  rw [setSecret, dif_pos h]
  cases hflag : fCompressed || key.fCompressedPubKey with
  | false =>
    rw [Bool.or_eq_false_iff] at hflag
    simp [hflag.1, hflag.2, convForm, ECKey.new]
  | true =>
    simp only [hflag, if_true, convForm, setCompressedPubKey, ECKey.new]

variable (ops) in
/-- The public key of a secret. -/
def pubKeyOf (vchSecret : CSecret) (fCompressed : Bool) : Option CPubKey :=
  ((reset : CKey Point).setSecret ops vchSecret fCompressed).2.getPubKey ops

theorem pubKeyOf_eq {vchSecret : CSecret} (h : vchSecret.length = 32) (fCompressed : Bool) :
    pubKeyOf ops vchSecret fCompressed =
      some (ops.point2oct (ops.mul ⟨vchSecret.toArray, h⟩) (convForm fCompressed)) := by
  rw [pubKeyOf, setSecret_eq _ h]
  simp [getPubKey, reset]

/-- The octets of a public key are read, and their length is that of their form. -/
theorem oct2point_of_pubKeyOf (hops : ops.Lawful) {vchSecret : CSecret} {fCompressed : Bool}
    {vchPubKey : CPubKey} (hlen : vchSecret.length = 32)
    (hpub : pubKeyOf ops vchSecret fCompressed = some vchPubKey) :
    ops.oct2point vchPubKey = some (ops.mul ⟨vchSecret.toArray, hlen⟩) ∧
      (vchPubKey.length = 33 ∨ vchPubKey.length = 65 →
        (vchPubKey.length = 33 ↔ fCompressed = true)) := by
  rw [pubKeyOf_eq hlen, Option.some.injEq] at hpub
  subst hpub
  cases fCompressed with
  | false =>
    refine ⟨hops.oct2point_uncompressed _, fun _ => iff_of_false (fun hlength => ?_) (by simp)⟩
    have hform := hops.compressed_of_length _ _ hlength
    exact absurd hform (by decide)
  | true =>
    refine ⟨hops.oct2point_compressed _, fun hvalid => iff_of_true ?_ rfl⟩
    have hlength := hops.length_compressed (ops.mul ⟨vchSecret.toArray, hlen⟩)
    simp only [convForm, if_true] at hvalid ⊢
    omega

theorem fCompressedPubKey_setPubKey (key : CKey Point) {vchPubKey : CPubKey} {point : Point}
    (h : ops.oct2point vchPubKey = some point) :
    (key.setPubKey ops vchPubKey).2.fCompressedPubKey =
      (decide (vchPubKey.length = 33) || key.fCompressedPubKey) := by
  rw [setPubKey, h]
  by_cases hlen : vchPubKey.length = 33
  · simp [hlen, setCompressedPubKey]
  · simp [hlen]

/-- A key that is set from its public key and its secret. -/
theorem setPubKey_setSecret (hops : ops.Lawful) (keyOut : CKey Point) {vchSecret : CSecret}
    {fCompressed : Bool} {vchPubKey : CPubKey} (hlen : vchSecret.length = 32)
    (hpub : pubKeyOf ops vchSecret fCompressed = some vchPubKey)
    (hvalid : vchPubKey.length = 33 ∨ vchPubKey.length = 65) :
    (keyOut.setPubKey ops vchPubKey).2.setSecret ops vchSecret false =
      (reset : CKey Point).setSecret ops vchSecret (fCompressed || keyOut.fCompressedPubKey) := by
  obtain ⟨hpoint, hform⟩ := oct2point_of_pubKeyOf hops hlen hpub
  have hflag : (keyOut.setPubKey ops vchPubKey).2.fCompressedPubKey =
      (fCompressed || keyOut.fCompressedPubKey) := by
    have hdecide : decide (vchPubKey.length = 33) = fCompressed := by
      rw [Bool.eq_iff_iff, decide_eq_true_eq]
      exact hform hvalid
    rw [fCompressedPubKey_setPubKey keyOut hpoint, hdecide]
  rw [setSecret_eq _ hlen, setSecret_eq _ hlen, hflag]
  simp [reset]

variable (ops) in
/-- A key that `CKey::IsValid` accepts, with a public key that `CPubKey::IsValid` accepts. -/
def Proper (key : CKey Point) : Prop :=
  key.isValid ops = true ∧ ∃ vchPubKey, key.getPubKey ops = some vchPubKey ∧
    (vchPubKey.length = 33 ∨ vchPubKey.length = 65)

theorem Proper.spec {key : CKey Point} (h : key.Proper ops) :
    ∃ secret fCompressed vchPubKey, key.getSecret = some (secret, fCompressed) ∧
      key.getPubKey ops = some vchPubKey ∧ secret.length = 32 ∧
      pubKeyOf ops secret fCompressed = some vchPubKey ∧
      (vchPubKey.length = 33 ∨ vchPubKey.length = 65) := by
  obtain ⟨hvalid, vchPubKey, hpub, hlen⟩ := h
  rw [isValid] at hvalid
  split at hvalid
  next => cases hvalid
  next =>
    cases hsecret : key.getSecret with
    | none =>
      rw [hsecret] at hvalid
      cases hvalid
    | some r =>
      obtain ⟨secret, fCompressed⟩ := r
      rw [hsecret] at hvalid
      have heq : key.getPubKey ops = pubKeyOf ops secret fCompressed := eq_of_beq hvalid
      obtain ⟨v, -, hv⟩ := Option.map_eq_some_iff.mp hsecret
      obtain ⟨rfl, -⟩ := Prod.mk.inj hv
      exact ⟨v.toList, fCompressed, vchPubKey, rfl, hpub, Vector.length_toList, heq ▸ hpub, hlen⟩

end CKey

/-! ## The generator of the curve -/

/-- The coordinates of the generator of secp256k1. -/
def generatorX : List UInt8 :=
  [121, 190, 102, 126, 249, 220, 187, 172, 85, 160, 98, 149, 206, 135, 11, 7, 2, 155, 252, 219, 45,
    206, 40, 217, 89, 242, 129, 91, 22, 248, 23, 152]

@[inherit_doc generatorX]
def generatorY : List UInt8 :=
  [72, 58, 218, 119, 38, 163, 196, 101, 93, 164, 251, 252, 14, 17, 8, 168, 253, 23, 180, 72, 166,
    133, 84, 25, 156, 71, 208, 143, 251, 16, 212, 184]

/-- The curve library on the generator alone. -/
def generatorOps : ECOps Unit where
  mul _ := ()
  oct2point v :=
    if v = 2 :: generatorX ∨ v = 4 :: (generatorX ++ generatorY) then some () else none
  point2oct _ form :=
    if form = pointConversionCompressed then 2 :: generatorX else 4 :: (generatorX ++ generatorY)
  d2i pkey _ := (false, pkey)
  recover _ _ _ := none

theorem generatorOps_lawful : generatorOps.Lawful where
  oct2point_compressed := by decide
  oct2point_uncompressed := by decide
  octets := by decide
  compressed_of_length p form h := by
    by_contra hform
    rw [show generatorOps.point2oct p form = 4 :: (generatorX ++ generatorY) from if_neg hform] at h
    exact absurd h (by decide)
  convForm_of_length v p h := by
    rw [generatorOps, ite_eq_iff] at h
    obtain ⟨rfl | rfl, -⟩ | ⟨-, h⟩ := h
    · decide
    · decide
    · cases h

/-- The secret of the generator. -/
def generatorSecret : Vector UInt8 32 := (Vector.replicate 31 0).push 1

end FoxCoin
