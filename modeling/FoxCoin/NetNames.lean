import FoxCoin.NetAddr

/-! # Names of addresses

`ToStringIP` writes an address and `SetSpecial` reads the names of Tor and I2P addresses. It gives an
I2P name the prefix of Tor, and does not ask the decoder of base 32 whether the name was valid. -/

namespace FoxCoin

open Positional

/-- `getnameinfo` with `NI_NUMERICHOST` of the socket address: `none` when there is no such address or
the call fails. -/
abbrev NumericHost := CNetAddr → Option StdString

/-- `%x`. -/
def hexadecimal (n : ℕ) : StdString :=
  if n = 0 then [48]
  else (digits 16 n).map fun d => UInt8.ofNat (if d < 10 then 48 + d else 87 + d)

namespace CNetAddr

/-! ## The code -/

/-- The bytes of an IPv4 address in decimal, with points. -/
def dotted (a : CNetAddr) : StdString :=
  decimal (a.getByte 3).toNat ++ literal "." ++ decimal (a.getByte 2).toNat ++ literal "." ++
    decimal (a.getByte 1).toNat ++ literal "." ++ decimal (a.getByte 0).toNat

/-- `GetByte(n) << 8 | GetByte(n - 1)` in hexadecimal. -/
def hexPair (a : CNetAddr) (n : ℕ) : StdString :=
  hexadecimal ((a.getByte n).toNat <<< 8 ||| (a.getByte (n - 1)).toNat)

/-- `ToStringIP`. -/
def toStringIP (numericHost : NumericHost) (a : CNetAddr) : StdString :=
  if a.isTor then encodeBase32 ((a.ip.toList.drop 6).take 10) ++ literal ".onion"
  else if a.isI2P then encodeBase32 ((a.ip.toList.drop 6).take 10) ++ literal ".oc.b32.i2p"
  else
    match numericHost a with
    | some name => name
    | none =>
      if a.isIPv4 then a.dotted
      else
        a.hexPair 15 ++ literal ":" ++ a.hexPair 13 ++ literal ":" ++ a.hexPair 11 ++ literal ":" ++
          a.hexPair 9 ++ literal ":" ++ a.hexPair 7 ++ literal ":" ++ a.hexPair 5 ++ literal ":" ++
          a.hexPair 3 ++ literal ":" ++ a.hexPair 1

/-- The address of a prefix and the bytes behind it, of which there have to be as many as it lacks. -/
def ofPrefix (pch vchAddr : List UInt8) : Option CNetAddr :=
  if h : (pch ++ vchAddr).length = 16 then some ⟨⟨(pch ++ vchAddr).toArray, h⟩⟩ else none

/-- `SetSpecial`: the address after it, or `none` for `false`, which leaves it. -/
def setSpecial (strName : StdString) : Option CNetAddr :=
  let nSize := strName.length
  if 6 < nSize ∧ strName.drop (nSize - 6) = literal ".onion" then
    let vchAddr := (decodeBase32 (cStr (strName.take (nSize - 6)))).1
    ofPrefix pchOnionCat vchAddr
  else if 11 < nSize ∧ strName.drop (nSize - 11) = literal ".oc.b32.i2p" then
    let vchAddr := (decodeBase32 (cStr (strName.take (nSize - 11)))).1
    -- the prefix of Tor, not `pchGarliCat`
    ofPrefix pchOnionCat vchAddr
  else none

end CNetAddr

/-! ## Base 32 of ten bytes -/

/-- A byte that is no character of base 32 does not occur. -/
theorem notMem_encodeBase32 {c : UInt8} (hchar : ∀ d < 32, base32Char d ≠ c) (hpad : 61 ≠ c)
    (vch : List UInt8) : c ∉ encodeBase32 vch := by
  obtain ⟨ds, p, -, hpadded, hstr⟩ := encodeBase32_writtenAs vch
  rw [hstr]
  intro hmem
  rcases List.mem_append.mp hmem with h | h
  · obtain ⟨d, hd, hdigit⟩ := List.mem_map.mp h
    exact hchar d (hpadded.outs_lt d hd) hdigit
  · exact hpad (List.eq_of_mem_replicate h).symm

theorem encodeBase32_char_ne_zero (vch : List UInt8) : 0 ∉ encodeBase32 vch :=
  notMem_encodeBase32 (by decide) (by decide) vch

/-- Ten bytes are sixteen characters. -/
theorem length_encodeBase32 {vch : List UInt8} (h : vch.length = 10) :
    (encodeBase32 vch).length = 16 := by
  obtain ⟨ds, p, hp, hpadded, hstr⟩ := encodeBase32_writtenAs vch
  have hbits := hpadded.bits
  rw [List.length_map, h] at hbits
  obtain rfl : p = 0 := by omega
  have hlen : ds.length = 16 := by omega
  rw [hstr, List.length_append, List.length_map, hlen]
  rfl

/-- **When a decoded string is written as it was**: ten bytes that are read from any string are
written as that string in lower case exactly when it has sixteen characters. -/
theorem encodeBase32_decodeBase32_iff {stem : StdString}
    (h : (decodeBase32 (cStr stem)).1.length = 10) :
    encodeBase32 (decodeBase32 (cStr stem)).1 = stem.map tolower ↔ stem.length = 16 := by
  constructor
  · intro heq
    have hlen := congrArg List.length heq
    rw [length_encodeBase32 h, List.length_map] at hlen
    exact hlen.symm
  · intro hlen
    obtain ⟨ds, q, rest, hp, hq, hds, hrest, hloop⟩ :=
      @Alphabet.decodeLoop_spec _ alphabet32 _ decode32Step ⟨0, 0, []⟩ (cStr stem)
    obtain ⟨k, acc, hregroup, hk, -⟩ := decodeBase32_readAs hds hloop hrest
    have hbits := hregroup.bits
    rw [List.length_map, h] at hbits
    -- sixteen digits are all there is
    have hqlen : q.length = ds.length := by simpa using congrArg List.length hq
    have hprefix : cStr stem <+: stem := List.takeWhile_prefix _
    have hshort := hprefix.length_le
    have hparts := congrArg List.length hp
    rw [List.length_append] at hparts
    obtain rfl : k = 0 := by omega
    have hacc : acc = 0 := by simpa using hregroup.acc_lt
    subst hacc
    obtain rfl : rest = [] := List.eq_nil_of_length_eq_zero (by omega)
    have hwhole : cStr stem = stem := hprefix.eq_of_length (by rw [hparts, hqlen]; simp; omega)
    obtain ⟨ds', k', hk', hpadded, hstr⟩ := encodeBase32_writtenAs (decodeBase32 (cStr stem)).1
    obtain rfl := (hregroup.padded hds).unique hpadded (by decide) hk'
    have hbits' := hpadded.bits
    rw [List.length_map, h] at hbits'
    obtain rfl : k' = 0 := by omega
    rw [List.append_nil] at hp
    rw [hstr, ← hwhole, hp]
    exact (List.append_nil _).trans hq.symm

namespace CNetAddr

variable {a b : CNetAddr} {strName : StdString} {vch : List UInt8}

/-! ## Names that are read -/

theorem ofPrefix_eq_some (h : ofPrefix pchOnionCat vch = some b) :
    vch.length = 10 ∧ b.ip.toList = pchOnionCat ++ vch := by
  unfold ofPrefix at h
  split_ifs at h with hlen
  obtain rfl := Option.some.inj h
  rw [List.length_append, show pchOnionCat.length = 6 from rfl] at hlen
  exact ⟨by omega, rfl⟩

theorem ofPrefix_drop (h : a.ip.toList.take 6 = pchOnionCat) :
    ofPrefix pchOnionCat ((a.ip.toList.drop 6).take 10) = some a := by
  obtain ⟨ip⟩ := a
  have htake : (ip.toList.drop 6).take 10 = ip.toList.drop 6 := List.take_of_length_le (by simp)
  have hwhole : pchOnionCat ++ (ip.toList.drop 6).take 10 = ip.toList := by
    rw [htake, ← h, List.take_append_drop]
  have hlen : (pchOnionCat ++ (ip.toList.drop 6).take 10).length = 16 := by
    rw [hwhole, Vector.length_toList]
  rw [ofPrefix, dif_pos hlen]
  congr 2
  exact Vector.toList_inj.mp hwhole

/-- What `SetSpecial` makes of a name of Tor. -/
theorem setSpecial_onion (hne : vch ≠ []) : setSpecial (vch ++ literal ".onion") =
    ofPrefix pchOnionCat (decodeBase32 (cStr vch)).1 := by
  have hpos := List.length_pos_iff.mpr hne
  have hsuffix : (literal ".onion").length = 6 := by decide
  have hlen : (vch ++ literal ".onion").length - 6 = vch.length := by
    rw [List.length_append, hsuffix, Nat.add_sub_cancel]
  have hsize : 6 < (vch ++ literal ".onion").length := by
    rw [List.length_append, hsuffix]
    omega
  rw [setSpecial]
  dsimp only
  rw [hlen, List.drop_left, List.take_left, if_pos ⟨hsize, rfl⟩]

/-- What `SetSpecial` makes of a name of I2P. -/
theorem setSpecial_i2p (hne : vch ≠ []) : setSpecial (vch ++ literal ".oc.b32.i2p") =
    ofPrefix pchOnionCat (decodeBase32 (cStr vch)).1 := by
  have hpos := List.length_pos_iff.mpr hne
  have hsuffix : (literal ".oc.b32.i2p").length = 11 := by decide
  have hlen : (vch ++ literal ".oc.b32.i2p").length - 11 = vch.length := by
    rw [List.length_append, hsuffix, Nat.add_sub_cancel]
  have hlen' : (vch ++ literal ".oc.b32.i2p").length - 6 = vch.length + 5 := by
    rw [List.length_append, hsuffix]
    rfl
  have hsize : 11 < (vch ++ literal ".oc.b32.i2p").length := by
    rw [List.length_append, hsuffix]
    omega
  have hother : (vch ++ literal ".oc.b32.i2p").drop (vch.length + 5) ≠ literal ".onion" := by
    rw [List.drop_append, List.drop_of_length_le (by omega), List.nil_append,
      Nat.add_sub_cancel_left]
    decide
  rw [setSpecial]
  dsimp only
  rw [hlen, hlen', List.drop_left, List.take_left, if_neg fun h => hother h.2, if_pos ⟨hsize, rfl⟩]

/-- The names that `SetSpecial` takes. -/
theorem setSpecial_cases (h : setSpecial strName = some b) : ∃ stem,
    (strName = stem ++ literal ".onion" ∨ strName = stem ++ literal ".oc.b32.i2p") ∧
    (decodeBase32 (cStr stem)).1.length = 10 ∧
    b.ip.toList = pchOnionCat ++ (decodeBase32 (cStr stem)).1 := by
  unfold setSpecial at h
  dsimp only at h
  split_ifs at h with honion hi2p
  · obtain ⟨hlen, hip⟩ := ofPrefix_eq_some h
    refine ⟨_, .inl ?_, hlen, hip⟩
    rw [← honion.2, List.take_append_drop]
  · obtain ⟨hlen, hip⟩ := ofPrefix_eq_some h
    refine ⟨_, .inr ?_, hlen, hip⟩
    rw [← hi2p.2, List.take_append_drop]

/-! ## Names that are written -/

theorem take_of_isTor (h : a.isTor = true) : a.ip.toList.take 6 = pchOnionCat := eq_of_beq h

/-- No address is one of Tor as well as one of I2P. -/
theorem isTor_of_isI2P (h : a.isI2P = true) : a.isTor = false := by
  rw [Bool.eq_false_iff]
  intro htor
  have hi2p : a.ip.toList.take 6 = pchGarliCat := eq_of_beq h
  rw [take_of_isTor htor] at hi2p
  exact absurd hi2p (by decide)

variable (numericHost : NumericHost)

/-- The name of an address has characters before its ending. -/
theorem encodeBase32_ne_nil (a : CNetAddr) : encodeBase32 ((a.ip.toList.drop 6).take 10) ≠ [] := by
  intro hnil
  have hlen := length_encodeBase32 (show ((a.ip.toList.drop 6).take 10).length = 10 by simp)
  rw [hnil] at hlen
  cases hlen

/-- **The name of a Tor address is read back.** -/
theorem setSpecial_toStringIP_of_isTor (h : a.isTor = true) :
    setSpecial (a.toStringIP numericHost) = some a := by
  have hback : decodeBase32 (encodeBase32 ((a.ip.toList.drop 6).take 10)) = _ :=
    codec32.decode_encode _
  rw [toStringIP, if_pos h, setSpecial_onion a.encodeBase32_ne_nil,
    cStr_eq_self (encodeBase32_char_ne_zero _), hback]
  exact ofPrefix_drop (take_of_isTor h)

/-- **The name of an I2P address is read as that of a Tor address.** -/
theorem setSpecial_toStringIP_of_isI2P (h : a.isI2P = true) :
    setSpecial (a.toStringIP numericHost) ≠ some a := by
  rw [toStringIP, isTor_of_isI2P h, if_neg Bool.false_ne_true, if_pos h,
    setSpecial_i2p a.encodeBase32_ne_nil]
  intro hread
  have hip := (ofPrefix_eq_some hread).2
  have htor : a.isTor = true := by
    rw [isTor, startsWith, hip]
    rfl
  rw [isTor_of_isI2P h] at htor
  cases htor

/-- **When a name that is read is written as it was**: it is a name of Tor with sixteen characters. -/
theorem toStringIP_setSpecial_iff (h : setSpecial strName = some b) :
    b.toStringIP numericHost = strName.map tolower ↔
      ∃ stem, stem.length = 16 ∧ strName = stem ++ literal ".onion" := by
  obtain ⟨stem, hname, hlen, hip⟩ := setSpecial_cases h
  have htor : b.isTor = true := by
    rw [isTor, startsWith, hip]
    rfl
  have hwrite : b.toStringIP numericHost =
      encodeBase32 (decodeBase32 (cStr stem)).1 ++ literal ".onion" := by
    have hdrop : b.ip.toList.drop 6 = (decodeBase32 (cStr stem)).1 := by
      rw [hip]
      rfl
    rw [toStringIP, if_pos htor, hdrop, List.take_of_length_le hlen.le]
  rw [hwrite]
  rcases hname with rfl | rfl
  · have hlower : (literal ".onion").map tolower = literal ".onion" := by decide
    rw [List.map_append, hlower, List.append_left_inj, encodeBase32_decodeBase32_iff hlen]
    constructor
    · exact fun hstem => ⟨stem, hstem, rfl⟩
    · rintro ⟨stem', hstem', heq⟩
      rwa [(List.append_left_inj _).mp heq]
  · have hlast : ∀ s t : StdString, s ++ literal ".onion" ≠ t ++ literal ".oc.b32.i2p" := by
      intro s t heq
      have hend := congrArg List.getLast? heq
      rw [List.getLast?_append, List.getLast?_append,
        show (literal ".onion").getLast? = some 110 by decide,
        show (literal ".oc.b32.i2p").getLast? = some 112 by decide] at hend
      cases hend
    refine iff_of_false (fun heq => ?_) ?_
    · have hlower : (literal ".oc.b32.i2p").map tolower = literal ".oc.b32.i2p" := by decide
      rw [List.map_append, hlower] at heq
      exact hlast _ _ heq
    · rintro ⟨stem', -, heq⟩
      exact hlast _ _ heq.symm

/-- **When names and addresses correspond**: of the addresses of Tor and I2P, just those of Tor are
read back from their names, and of the names that are accepted, just those of Tor with sixteen
characters are written back in lower case. -/
theorem specialNames_iff (numericHost : NumericHost) :
    (∀ a : CNetAddr, (a.isTor || a.isI2P) = true →
      (setSpecial (a.toStringIP numericHost) = some a ↔ a.isTor = true)) ∧
    ∀ strName b, setSpecial strName = some b →
      (b.toStringIP numericHost = strName.map tolower ↔
        ∃ stem, stem.length = 16 ∧ strName = stem ++ literal ".onion") := by
  refine ⟨fun a h => ?_, fun strName b h => toStringIP_setSpecial_iff numericHost h⟩
  cases htor : a.isTor with
  | true => exact iff_of_true (setSpecial_toStringIP_of_isTor numericHost htor) rfl
  | false =>
    rw [htor, Bool.false_or] at h
    exact iff_of_false (setSpecial_toStringIP_of_isI2P numericHost h) Bool.false_ne_true

/-- The first address of I2P is read back as one of Tor, and so is its name. -/
theorem not_setSpecial_toStringIP : ¬∀ (numericHost : NumericHost) (a : CNetAddr),
    (a.isTor || a.isI2P) = true → setSpecial (a.toStringIP numericHost) = some a := by
  intro h
  have hread := h (fun _ => none) ⟨#v[0xFD, 0x60, 0xDB, 0x4D, 0xDD, 0xB5, 0, 0, 0, 0, 0, 0, 0, 0, 0, 0]⟩
    (by decide)
  exact setSpecial_toStringIP_of_isI2P _ (by decide) hread

end CNetAddr

end FoxCoin
