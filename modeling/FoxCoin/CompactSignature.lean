import FoxCoin.Key
import FoxCoin.Lib.Positional
import FoxCoin.Lib.Wire
import Mathlib.Data.Nat.Size

/-! # Compact signatures

A compact signature holds the two numbers of a signature and, in its first byte, which of four
candidates the public key is, so that the key is found again from the signature and the hash alone.
`SignCompact` searches the candidate by recovering each one. -/

namespace FoxCoin

open Positional Wire

variable {Point : Type}

/-! ## Numbers and bytes -/

/-- `BN_bin2bn`. -/
def bnBin2bn (bytes : List UInt8) : ℕ := value 256 (bytes.map UInt8.toNat)

/-- The bytes that `BN_bn2bin` writes. -/
def bnBn2bin (n : ℕ) : List UInt8 := (digits 256 n).map UInt8.ofNat

/-- Bytes that are written into a vector from an index on. -/
def writeAt (v : List UInt8) (i : ℕ) (bytes : List UInt8) : List UInt8 :=
  v.take i ++ bytes ++ v.drop (i + bytes.length)

/-! ## Recovery -/

/-- The functions of the curve library that the recovery of a key calls, besides those of keys. -/
structure RecoverOps (Point : Type) where
  keys : ECOps Point
  /-- `EC_GROUP_get_order`. -/
  order : ℕ
  /-- The prime of `EC_GROUP_get_curve_GFp`. -/
  field : ℕ
  /-- `EC_GROUP_get_degree`. -/
  degree : ℕ
  /-- `EC_POINT_set_compressed_coordinates_GFp`. -/
  setCompressedCoordinates : ℕ → ℕ → Option Point
  /-- `EC_POINT_mul`, whose factor of the generator may be missing. -/
  pointMul : Option ℕ → Point → ℕ → Point
  /-- `EC_POINT_is_at_infinity`. -/
  isAtInfinity : Point → Bool
  /-- `BN_mod_inverse`. -/
  modInverse : ℕ → ℕ → Option ℕ

namespace RecoverOps

variable (lib : RecoverOps Point)

/-- `ECDSA_SIG_recover_key_GFp`: the point of the public key it sets when it returns `1`, or what it
returns otherwise. -/
def recoverKeyGFp (r s : ℕ) (msg : List UInt8) (recid : ℕ) (check : Bool) : Except ℤ Point :=
  let i := recid / 2
  let x := lib.order * i + r
  if lib.field ≤ x then .error 0
  else
    match lib.setCompressedCoordinates x (recid % 2) with
    | none => .error 0
    | some R =>
      if check && !lib.isAtInfinity (lib.pointMul none R lib.order) then .error 0
      else
        let n := lib.degree
        let e := bnBin2bn msg
        -- a longer hash would be cut to the size of the field
        let e := if n < 8 * msg.length then e >>> (8 - n % 8) else e
        let e := ((0 - (e : ℤ)) % lib.order).toNat
        match lib.modInverse r lib.order with
        | none => .error (-1)
        | some rr =>
          let sor := s * rr % lib.order
          let eor := e * rr % lib.order
          .ok (lib.pointMul (some eor) R sor)

/-- The curve library with this recovery, as `SetCompactSignature` calls it. -/
def ecOps : ECOps Point :=
  { lib.keys with
    recover := fun hash sig recid =>
      (lib.recoverKeyGFp (bnBin2bn (sig.take 32)) (bnBin2bn ((sig.drop 32).take 32))
        (leBytes 32 hash) recid false).toOption }

end RecoverOps

namespace CKey

variable (lib : RecoverOps Point)

/-- The loop of `SignCompact` over the candidates; `none` when it throws or finds none, on which
`SignCompact` throws. -/
def recIdLoop (key : CKey Point) (hash : Uint256) (r s : ℕ) : List ℕ → Option ℕ
  | [] => none
  | i :: is =>
    let keyRec : CKey Point := { (reset : CKey Point) with fSet := true }
    let keyRec := if key.fCompressedPubKey then keyRec.setCompressedPubKey else keyRec
    match lib.recoverKeyGFp r s (leBytes 32 hash) i true with
    -- only a candidate that is recovered is compared
    | .error _ => recIdLoop key hash r s is
    | .ok point => do
      let keyRec := { keyRec with pkey := { keyRec.pkey with pub := some point } }
      let vchRec ← keyRec.getPubKey lib.ecOps
      let vchPubKey ← key.getPubKey lib.ecOps
      if vchRec = vchPubKey then some i else recIdLoop key hash r s is

/-- `SignCompact` with what `ECDSA_do_sign` returns: its result and the signature after it, or `none`
when it throws. -/
def signCompact (key : CKey Point) (hash : Uint256) (sig : Option (ℕ × ℕ)) (vchSig : List UInt8) :
    Option (Bool × List UInt8) :=
  match sig with
  | none => some (false, vchSig)
  | some (r, s) =>
    let vchSig := List.replicate 65 0
    let nBitsR := r.size
    let nBitsS := s.size
    if nBitsR ≤ 256 ∧ nBitsS ≤ 256 then do
      let nRecId ← key.recIdLoop lib hash r s [0, 1, 2, 3]
      let vchSig := vchSig.set 0
        (UInt8.ofNat (nRecId + 27 + if key.fCompressedPubKey then 4 else 0))
      let vchSig := writeAt vchSig (33 - (nBitsR + 7) / 8) (bnBn2bin r)
      let vchSig := writeAt vchSig (65 - (nBitsS + 7) / 8) (bnBn2bin s)
      some (true, vchSig)
    -- the vector has been resized already
    else some (false, vchSig)

/-- `VerifyCompact`; `none` when it throws. -/
def verifyCompact (key : CKey Point) (hash : Uint256) (vchSig : List UInt8) : Option Bool :=
  let (fSet, keyRec) := (reset : CKey Point).setCompactSignature lib.ecOps hash vchSig
  if !fSet then some false
  else do
    let vchPubKey ← key.getPubKey lib.ecOps
    let vchRec ← keyRec.getPubKey lib.ecOps
    if vchPubKey ≠ vchRec then some false else some true

end CKey

/-! ## Padding -/

theorem bnBn2bin_map_toNat (n : ℕ) : (bnBn2bin n).map UInt8.toNat = digits 256 n := by
  rw [bnBn2bin, List.map_map]
  refine (List.map_congr_left fun d hd => ?_).trans (List.map_id _)
  exact UInt8.toNat_ofNat_of_lt' (digits_lt (by norm_num) d hd)

/-- `BN_num_bytes`. -/
theorem length_bnBn2bin (n : ℕ) : (bnBn2bin n).length = (n.size + 7) / 8 := by
  rw [bnBn2bin, List.length_map, digits, List.length_reverse]
  have hle : ∀ k, (Nat.digits 256 n).length ≤ k ↔ (n.size + 7) / 8 ≤ k := by
    intro k
    have hpow : 256 ^ k = 2 ^ (8 * k) := by rw [pow_mul]; rfl
    rw [Nat.digits_length_le_iff (by norm_num), hpow, ← Nat.size_le]
    omega
  exact le_antisymm ((hle _).mpr le_rfl) ((hle _).mp le_rfl)

/-- A number in 32 bytes, with zeros before it. -/
def padded (n : ℕ) : List UInt8 := List.replicate (32 - (bnBn2bin n).length) 0 ++ bnBn2bin n

theorem length_bnBn2bin_le {n : ℕ} (h : n < 2 ^ 256) : (bnBn2bin n).length ≤ 32 := by
  have hsize := Nat.size_le.mpr h
  rw [length_bnBn2bin]
  omega

theorem length_padded {n : ℕ} (h : n < 2 ^ 256) : (padded n).length = 32 := by
  have hlen := length_bnBn2bin_le h
  rw [padded, List.length_append, List.length_replicate]
  omega

/-- **The zeros before a number do not count.** -/
theorem bnBin2bn_padded (n : ℕ) : bnBin2bn (padded n) = n := by
  rw [bnBin2bn, padded, List.map_append, List.map_replicate, bnBn2bin_map_toNat]
  exact (value_replicate_append 256 _ _).trans (value_digits 256 n)

/-- What is written takes the place of as many bytes. -/
theorem writeAt_append {a b c bytes : List UInt8} {i : ℕ} (hi : a.length = i)
    (h : b.length = bytes.length) : writeAt (a ++ b ++ c) i bytes = a ++ bytes ++ c := by
  have htake : (a ++ b ++ c).take i = a := by rw [← hi, List.append_assoc, List.take_left]
  have hdrop : (a ++ b ++ c).drop (i + bytes.length) = c := by
    rw [← hi, ← h, ← List.length_append, List.drop_left]
  rw [writeAt, htake, hdrop]

/-- A number is written behind the zeros that are there. -/
theorem writeAt_padded {n : ℕ} (h : n < 2 ^ 256) (a c : List UInt8) :
    writeAt (a ++ List.replicate 32 0 ++ c) (a.length + 32 - (n.size + 7) / 8) (bnBn2bin n) =
      a ++ padded n ++ c := by
  have hlen := length_bnBn2bin_le h
  have hzeros : List.replicate 32 (0 : UInt8) = List.replicate (32 - (bnBn2bin n).length) 0 ++
      List.replicate (bnBn2bin n).length 0 := by
    rw [List.replicate_append_replicate, Nat.sub_add_cancel hlen]
  -- the number covers the last of the zeros
  rw [hzeros, ← List.append_assoc, writeAt_append, padded, ← List.append_assoc]
  · rw [List.length_append, List.length_replicate, ← length_bnBn2bin]
    omega
  · rw [List.length_replicate]

/-! ## Signing and recovering -/

variable {lib : RecoverOps Point} {r s : ℕ} {msg : List UInt8} {recid : ℕ} {point : Point}
  {hash : Uint256}

/-- The further checks only make the recovery fail. -/
theorem RecoverOps.recoverKeyGFp_of_check (h : lib.recoverKeyGFp r s msg recid true = .ok point) :
    lib.recoverKeyGFp r s msg recid false = .ok point := by
  rw [recoverKeyGFp] at h ⊢
  dsimp only at h ⊢
  by_cases hfield : lib.field ≤ lib.order * (recid / 2) + r
  · rw [if_pos hfield] at h
    cases h
  rw [if_neg hfield] at h ⊢
  cases hR : lib.setCompressedCoordinates (lib.order * (recid / 2) + r) (recid % 2) with
  | none =>
    rw [hR] at h
    cases h
  | some R =>
    rw [hR] at h
    dsimp only at h ⊢
    by_cases hcheck : (true && !lib.isAtInfinity (lib.pointMul none R lib.order)) = true
    · rw [if_pos hcheck] at h
      cases h
    rw [if_neg hcheck] at h
    rw [Bool.false_and, if_neg Bool.false_ne_true]
    exact h

/-- The bytes of a compact signature. -/
def compactBytes (nRecId : ℕ) (fCompressed : Bool) (r s : ℕ) : List UInt8 :=
  UInt8.ofNat (nRecId + 27 + if fCompressed then 4 else 0) :: (padded r ++ padded s)

theorem length_compactBytes (nRecId : ℕ) (fCompressed : Bool) (hr : r < 2 ^ 256) (hs : s < 2 ^ 256) :
    (compactBytes nRecId fCompressed r s).length = 65 := by
  rw [compactBytes, List.length_cons, List.length_append, length_padded hr, length_padded hs]

namespace CKey

variable {key : CKey Point}

/-- **What `SignCompact` writes** when its search finds a candidate. -/
theorem signCompact_eq (hr : r < 2 ^ 256) (hs : s < 2 ^ 256)
    (hrec : key.recIdLoop lib hash r s [0, 1, 2, 3] = some recid) (vchSig : List UInt8) :
    key.signCompact lib hash (some (r, s)) vchSig =
      some (true, compactBytes recid key.fCompressedPubKey r s) := by
  obtain ⟨b, hb⟩ : ∃ b, b = UInt8.ofNat (recid + 27 + if key.fCompressedPubKey then 4 else 0) :=
    ⟨_, rfl⟩
  have hbits : r.size ≤ 256 ∧ s.size ≤ 256 := ⟨Nat.size_le.mpr hr, Nat.size_le.mpr hs⟩
  have hstart : (List.replicate 65 (0 : UInt8)).set 0 b =
      [b] ++ List.replicate 32 0 ++ List.replicate 32 0 := rfl
  -- `r` goes into the first half behind the byte, then `s` into the second
  have hfirst := writeAt_padded hr [b] (List.replicate 32 0)
  have hsecond := writeAt_padded hs ([b] ++ padded r) []
  rw [List.append_nil, List.append_nil, List.length_append, length_padded hr] at hsecond
  have hwritten : writeAt (writeAt ((List.replicate 65 (0 : UInt8)).set 0 b) (33 - (r.size + 7) / 8)
      (bnBn2bin r)) (65 - (s.size + 7) / 8) (bnBn2bin s) = b :: (padded r ++ padded s) := by
    rw [hstart]
    exact (congrArg (fun v => writeAt v (65 - (s.size + 7) / 8) (bnBn2bin s)) hfirst).trans hsecond
  simp only [signCompact, if_pos hbits, hrec, Option.bind_eq_bind, Option.bind_some, ← hb, hwritten,
    compactBytes]

/-- The candidate that `SignCompact` compares its key with. -/
theorem getPubKey_candidate (ops : ECOps Point) (fCompressed : Bool) (point : Point) :
    let keyRec : CKey Point := { (reset : CKey Point) with fSet := true }
    let keyRec := if fCompressed then keyRec.setCompressedPubKey else keyRec
    ({ keyRec with pkey := { keyRec.pkey with pub := some point } } : CKey Point).getPubKey ops =
      some (ops.point2oct point (convForm fCompressed)) := by
  cases fCompressed <;> rfl

/-- The octets of a key whose form is that of its flag. -/
theorem getPubKey_of_form (ops : ECOps Point) (hpub : key.pkey.pub = some point)
    (hform : key.pkey.convForm = convForm key.fCompressedPubKey) :
    key.getPubKey ops = some (ops.point2oct point (convForm key.fCompressedPubKey)) := by
  rw [getPubKey, hpub, hform]
  rfl

/-- A round of the search. -/
theorem recIdLoop_cons (hpub : key.pkey.pub = some point)
    (hform : key.pkey.convForm = convForm key.fCompressedPubKey) (i : ℕ) (is : List ℕ) :
    key.recIdLoop lib hash r s (i :: is) =
      match lib.recoverKeyGFp r s (leBytes 32 hash) i true with
      | .error _ => key.recIdLoop lib hash r s is
      | .ok point' =>
        if lib.keys.point2oct point' (convForm key.fCompressedPubKey) =
            lib.keys.point2oct point (convForm key.fCompressedPubKey) then some i
        else key.recIdLoop lib hash r s is := by
  have hkey := getPubKey_of_form lib.ecOps hpub hform
  rw [recIdLoop]
  cases lib.recoverKeyGFp r s (leBytes 32 hash) i true with
  | error _ => rfl
  | ok point' =>
    simp only [getPubKey_candidate, hkey, Option.bind_eq_bind, Option.bind_some]
    rfl

/-- **The search finds a candidate** whose octets are those of the key, if the point of the key is
one. -/
theorem recIdLoop_spec (hpub : key.pkey.pub = some point)
    (hform : key.pkey.convForm = convForm key.fCompressedPubKey) (is : List ℕ)
    (h : ∃ i ∈ is, lib.recoverKeyGFp r s (leBytes 32 hash) i true = .ok point) :
    ∃ i ∈ is, ∃ point', key.recIdLoop lib hash r s is = some i ∧
      lib.recoverKeyGFp r s (leBytes 32 hash) i true = .ok point' ∧
      lib.keys.point2oct point' (convForm key.fCompressedPubKey) =
        lib.keys.point2oct point (convForm key.fCompressedPubKey) := by
  induction is with
  | nil =>
    obtain ⟨i, hi, -⟩ := h
    cases hi
  | cons i is ih =>
    rw [recIdLoop_cons hpub hform]
    -- the candidates after this one, when it is not the point
    have hrest : (lib.recoverKeyGFp r s (leBytes 32 hash) i true ≠ .ok point) →
        ∃ j ∈ i :: is, ∃ point', key.recIdLoop lib hash r s is = some j ∧
          lib.recoverKeyGFp r s (leBytes 32 hash) j true = .ok point' ∧
          lib.keys.point2oct point' (convForm key.fCompressedPubKey) =
            lib.keys.point2oct point (convForm key.fCompressedPubKey) := by
      intro hne
      obtain ⟨j, hj, hpoint⟩ := h
      obtain rfl | hj := List.mem_cons.mp hj
      · exact absurd hpoint hne
      · obtain ⟨k, hk, hfound⟩ := ih ⟨j, hj, hpoint⟩
        exact ⟨k, List.mem_cons_of_mem i hk, hfound⟩
    cases hcandidate : lib.recoverKeyGFp r s (leBytes 32 hash) i true with
    | error _ => exact hrest (by rw [hcandidate]; exact nofun)
    | ok point' =>
      dsimp only
      split_ifs with hoctets
      · exact ⟨i, List.mem_cons_self, point', rfl, hcandidate, hoctets⟩
      · refine hrest fun heq => hoctets ?_
        obtain rfl : point' = point := Except.ok.inj (hcandidate.symm.trans heq)
        rfl

/-- **What `SetCompactSignature` makes of the bytes.** -/
theorem setCompactSignature_compactBytes (hr : r < 2 ^ 256) (hs : s < 2 ^ 256) (hrecid : recid < 4)
    (hpoint : lib.recoverKeyGFp r s (leBytes 32 hash) recid false = .ok point) (fCompressed : Bool) :
    (reset : CKey Point).setCompactSignature lib.ecOps hash (compactBytes recid fCompressed r s) =
      (true, ⟨⟨none, some point, convForm fCompressed⟩, true, fCompressed⟩) := by
  have hfirst : ((padded r ++ padded s).take 32) = padded r := by
    rw [← length_padded hr, List.take_left]
  have hsecond : ((padded r ++ padded s).drop 32).take 32 = padded s := by
    have hdrop : (padded r ++ padded s).drop 32 = padded s := by
      rw [← length_padded hr, List.drop_left]
    rw [hdrop, List.take_of_length_le (length_padded hs).le]
  have hrecover : lib.ecOps.recover hash (padded r ++ padded s) recid = some point := by
    simp only [RecoverOps.ecOps, hfirst, hsecond, bnBin2bn_padded, hpoint]
    rfl
  obtain ⟨nV, hnV⟩ : ∃ nV, nV = ((compactBytes recid fCompressed r s).headD 0).toNat := ⟨_, rfl⟩
  have hhead : nV = recid + 27 + if fCompressed then 4 else 0 := by
    have hlt : (recid + 27 + if fCompressed then 4 else 0) < UInt8.size := by
      split_ifs
      · exact Nat.lt_of_lt_of_le (show recid + 27 + 4 < 35 by omega) (by decide)
      · exact Nat.lt_of_lt_of_le (show recid + 27 + 0 < 35 by omega) (by decide)
    rw [hnV, compactBytes, List.headD_cons, UInt8.toNat_ofNat_of_lt' hlt]
  -- the first byte tells the candidate and the form again
  have htail : (compactBytes recid fCompressed r s).tail = padded r ++ padded s := rfl
  have hlen := length_compactBytes recid fCompressed hr hs
  rw [setCompactSignature]
  simp only [hlen, ← hnV, htail, ne_eq, not_true_eq_false, if_false]
  cases fCompressed with
  | false =>
    obtain rfl : nV = recid + 27 := hhead
    simp only [if_neg (show ¬(recid + 27 < 27 ∨ 35 ≤ recid + 27) by omega),
      if_neg (show ¬31 ≤ recid + 27 by omega), Nat.add_sub_cancel, hrecover]
    rfl
  | true =>
    obtain rfl : nV = recid + 27 + 4 := hhead
    simp only [if_neg (show ¬(recid + 27 + 4 < 27 ∨ 35 ≤ recid + 27 + 4) by omega),
      if_pos (show 31 ≤ recid + 27 + 4 by omega), Nat.add_sub_cancel, hrecover]
    rfl

/-- **Bytes of another length or with another first byte are rejected**, and leave the key alone. -/
theorem setCompactSignature_reject {vchSig : List UInt8}
    (h : vchSig.length ≠ 65 ∨ (vchSig.headD 0).toNat < 27 ∨ 34 < (vchSig.headD 0).toNat)
    (ops : ECOps Point) (key : CKey Point) (hash : Uint256) :
    key.setCompactSignature ops hash vchSig = (false, key) := by
  rw [setCompactSignature]
  dsimp only
  by_cases hlen : vchSig.length ≠ 65
  · rw [if_pos hlen]
  · have hrange := h.resolve_left hlen
    rw [if_neg hlen, if_pos (by omega)]

/-! ## Signatures that are read back -/

/-- A compact signature is made, it recovers a key with the same public key, and `VerifyCompact`
accepts it. -/
def CompactRoundTrips (lib : RecoverOps Point) (key : CKey Point) (hash : Uint256) (r s : ℕ)
    (vchSig : List UInt8) : Prop :=
  ∃ vchSig', key.signCompact lib hash (some (r, s)) vchSig = some (true, vchSig') ∧
    ((reset : CKey Point).setCompactSignature lib.ecOps hash vchSig').1 = true ∧
    ((reset : CKey Point).setCompactSignature lib.ecOps hash vchSig').2.getPubKey lib.ecOps =
      key.getPubKey lib.ecOps ∧
    key.verifyCompact lib hash vchSig' = some true

theorem mem_recIds {i : ℕ} : i ∈ [0, 1, 2, 3] ↔ i < 4 := by
  simp only [List.mem_cons, List.not_mem_nil, or_false]
  omega

/-- Numbers of more than 256 bits are not signed with. -/
theorem signCompact_of_large (h : ¬(r < 2 ^ 256 ∧ s < 2 ^ 256)) (vchSig : List UInt8) :
    key.signCompact lib hash (some (r, s)) vchSig = some (false, List.replicate 65 0) := by
  rw [← Nat.size_le, ← Nat.size_le] at h
  simp only [signCompact, if_neg h]

/-- **Compact signatures**: for a key whose form is that of its flag, and a signature of which one
candidate at least is the point of the key, what `SignCompact` makes is accepted; it makes nothing of
numbers that have more than 256 bits. Bytes of another shape are rejected. -/
theorem compactSignature_spec (lib : RecoverOps Point) :
    (∀ (key : CKey Point) (point : Point) (hash : Uint256) (r s : ℕ) (vchSig : List UInt8),
      key.pkey.pub = some point → key.pkey.convForm = convForm key.fCompressedPubKey →
      (∃ recid < 4, lib.recoverKeyGFp r s (leBytes 32 hash) recid true = .ok point) →
      if r < 2 ^ 256 ∧ s < 2 ^ 256 then CompactRoundTrips lib key hash r s vchSig
      else key.signCompact lib hash (some (r, s)) vchSig = some (false, List.replicate 65 0)) ∧
    ∀ (key : CKey Point) (hash : Uint256) (vchSig : List UInt8),
      vchSig.length ≠ 65 ∨ (vchSig.headD 0).toNat < 27 ∨ 34 < (vchSig.headD 0).toNat →
      key.setCompactSignature lib.ecOps hash vchSig = (false, key) ∧
        key.verifyCompact lib hash vchSig = some false := by
  constructor
  · intro key point hash r s vchSig hpub hform hrec
    split_ifs with hsizes
    swap
    · exact signCompact_of_large hsizes vchSig
    obtain ⟨hr, hs⟩ := hsizes
    obtain ⟨recid, hlt, hpoint⟩ := hrec
    obtain ⟨nRecId, hmem, point', hloop, hrecovered, hoctets⟩ :=
      recIdLoop_spec hpub hform [0, 1, 2, 3]
        ⟨recid, mem_recIds.mpr hlt, hpoint⟩
    have hlt' := mem_recIds.mp hmem
    -- what is recovered has the octets of the key, which is all that is compared
    have hset := setCompactSignature_compactBytes hr hs hlt'
      (RecoverOps.recoverKeyGFp_of_check hrecovered) key.fCompressedPubKey
    have hkey : key.getPubKey lib.ecOps =
        some (lib.keys.point2oct point (convForm key.fCompressedPubKey)) :=
      getPubKey_of_form lib.ecOps hpub hform
    have hrec' : (⟨⟨none, some point', convForm key.fCompressedPubKey⟩, true,
        key.fCompressedPubKey⟩ : CKey Point).getPubKey lib.ecOps = key.getPubKey lib.ecOps := by
      rw [hkey, ← hoctets]
      rfl
    refine ⟨_, signCompact_eq hr hs hloop vchSig, ?_, ?_, ?_⟩
    · rw [hset]
    · rw [hset]
      exact hrec'
    · rw [verifyCompact, hset]
      simp only [Bool.not_true, Bool.false_eq_true, if_false, hrec', hkey, Option.bind_eq_bind,
        Option.bind_some, ne_eq, not_true_eq_false]
  · intro key hash vchSig h
    refine ⟨setCompactSignature_reject h _ key hash, ?_⟩
    rw [verifyCompact, setCompactSignature_reject h]
    rfl

end CKey

/-! ## A signature of the generator -/

/-- The order of secp256k1, and its prime. -/
def secp256k1Order : ℕ :=
  0xfffffffffffffffffffffffffffffffebaaedce6af48a03bbfd25e8cd0364141

@[inherit_doc secp256k1Order]
def secp256k1Field : ℕ := 2 ^ 256 - 2 ^ 32 - 977

/-- The curve library on the multiples of the generator, which stand for their factor. It knows the
coordinates, the octets and the inverse of the generator alone. -/
def generatorLib : RecoverOps ℕ where
  keys := {
    mul := fun secret => bnBin2bn secret.toList
    oct2point := fun v => if v = 2 :: generatorX ∨ v = 4 :: (generatorX ++ generatorY) then some 1
      else none
    point2oct := fun point form =>
      if point ≠ 1 then [0]
      else if form = pointConversionCompressed then 2 :: generatorX
      else 4 :: (generatorX ++ generatorY)
    d2i := fun pkey _ => (false, pkey)
    recover := fun _ _ _ => none }
  order := secp256k1Order
  field := secp256k1Field
  degree := 256
  setCompressedCoordinates x y :=
    if x = bnBin2bn generatorX then some (if y = 0 then 1 else secp256k1Order - 1) else none
  pointMul n q m := (n.getD 0 + q * m) % secp256k1Order
  isAtInfinity point := point = 0
  modInverse a n :=
    if a = bnBin2bn generatorX ∧ n = secp256k1Order then
      some 13499648161236477938760301359943791721062504425530739546045302818736391397630
    else none

/-- The key whose secret is one. -/
def generatorKey : CKey ℕ :=
  ⟨⟨some generatorSecret, some 1, pointConversionCompressed⟩, true, true⟩

/-- The signature of the hash one by the secret one, with the random number one. -/
theorem compactSignature_spec_generatorKey :
    CKey.CompactRoundTrips generatorLib generatorKey (2 ^ 248) (bnBin2bn generatorX)
        (bnBin2bn generatorX + 1) [] ∧
      generatorKey.verifyCompact generatorLib (2 ^ 248) [27] = some false := by
  have hrec : generatorLib.recoverKeyGFp (bnBin2bn generatorX) (bnBin2bn generatorX + 1)
      (leBytes 32 (2 ^ 248)) 0 true = .ok 1 := by
    decide +kernel
  have hspec := (CKey.compactSignature_spec generatorLib).1 generatorKey 1 (2 ^ 248)
    (bnBin2bn generatorX) (bnBin2bn generatorX + 1) [] rfl rfl ⟨0, by norm_num, hrec⟩
  have hsizes : bnBin2bn generatorX < 2 ^ 256 ∧ bnBin2bn generatorX + 1 < 2 ^ 256 := by
    decide +kernel
  rw [if_pos hsizes] at hspec
  exact ⟨hspec, ((CKey.compactSignature_spec generatorLib).2 generatorKey (2 ^ 248) [27]
    (.inl (by decide))).2⟩

end FoxCoin
