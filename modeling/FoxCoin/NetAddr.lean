import FoxCoin.AddrMan
import FoxCoin.Base64
import FoxCoin.Decimal

/-! # Network addresses

`CNetAddr` holds addresses of IPv4, IPv6, Tor and I2P in 16 bytes, told apart by what they begin
with. An IPv4 address lies in the same group under every form it can take in IPv6. The names of Tor
and I2P addresses are their last ten bytes in base 32; the names of I2P are read back as those of
Tor. -/

namespace FoxCoin

/-! ## The code -/

/-- `enum Network`. -/
inductive Network
  | unroutable
  | ipv4
  | ipv6
  | tor
  | i2p
  deriving DecidableEq

/-- The number of a network. -/
def Network.toByte : Network → UInt8
  | .unroutable => 0
  | .ipv4 => 1
  | .ipv6 => 2
  | .tor => 3
  | .i2p => 4

/-- `pchIPv4`. -/
def pchIPv4 : List UInt8 := [0, 0, 0, 0, 0, 0, 0, 0, 0, 0, 0xff, 0xff]
/-- `pchOnionCat`. -/
def pchOnionCat : List UInt8 := [0xFD, 0x87, 0xD8, 0x7E, 0xEB, 0x43]
/-- `pchGarliCat`. -/
def pchGarliCat : List UInt8 := [0xFD, 0x60, 0xDB, 0x4D, 0xDD, 0xB5]
/-- `pchRFC6052`. -/
def pchRFC6052 : List UInt8 := [0, 0x64, 0xFF, 0x9B, 0, 0, 0, 0, 0, 0, 0, 0]
/-- `pchRFC4862`. -/
def pchRFC4862 : List UInt8 := [0xFE, 0x80, 0, 0, 0, 0, 0, 0]
/-- `pchRFC6145`. -/
def pchRFC6145 : List UInt8 := [0, 0, 0, 0, 0, 0, 0, 0, 0xFF, 0xFF, 0, 0]
/-- `pchLocal`. -/
def pchLocal : List UInt8 := [0, 0, 0, 0, 0, 0, 0, 0, 0, 0, 0, 0, 0, 0, 0, 1]

namespace CNetAddr

variable (a : CNetAddr)

/-- `GetByte`: the bytes are counted from the last one. -/
def getByte (n : ℕ) : UInt8 := a.ip.toList.getD (15 - n) 0

/-- `memcmp(ip, pch, sizeof(pch)) == 0`. -/
def startsWith (pch : List UInt8) : Bool := a.ip.toList.take pch.length == pch

/-- `IsIPv4`. -/
def isIPv4 : Bool := a.startsWith pchIPv4

/-- `IsTor`. -/
def isTor : Bool := a.startsWith pchOnionCat

/-- `IsI2P`. -/
def isI2P : Bool := a.startsWith pchGarliCat

/-- `IsIPv6`. -/
def isIPv6 : Bool := !a.isIPv4 && !a.isTor && !a.isI2P

/-- `IsRFC1918`. -/
def isRFC1918 : Bool :=
  a.isIPv4 && (a.getByte 3 == 10 || (a.getByte 3 == 192 && a.getByte 2 == 168) ||
    (a.getByte 3 == 172 && (a.getByte 2 ≥ 16 && a.getByte 2 ≤ 31)))

/-- `IsRFC3927`. -/
def isRFC3927 : Bool := a.isIPv4 && (a.getByte 3 == 169 && a.getByte 2 == 254)

/-- `IsRFC3849`. -/
def isRFC3849 : Bool :=
  a.getByte 15 == 0x20 && a.getByte 14 == 0x01 && a.getByte 13 == 0x0D && a.getByte 12 == 0xB8

/-- `IsRFC3964`. -/
def isRFC3964 : Bool := a.getByte 15 == 0x20 && a.getByte 14 == 0x02

/-- `IsRFC6052`. -/
def isRFC6052 : Bool := a.startsWith pchRFC6052

/-- `IsRFC4380`. -/
def isRFC4380 : Bool :=
  a.getByte 15 == 0x20 && a.getByte 14 == 0x01 && a.getByte 13 == 0 && a.getByte 12 == 0

/-- `IsRFC4862`. -/
def isRFC4862 : Bool := a.startsWith pchRFC4862

/-- `IsRFC4193`. -/
def isRFC4193 : Bool := a.getByte 15 &&& 0xFE == 0xFC

/-- `IsRFC6145`. -/
def isRFC6145 : Bool := a.startsWith pchRFC6145

/-- `IsRFC4843`. -/
def isRFC4843 : Bool :=
  a.getByte 15 == 0x20 && a.getByte 14 == 0x01 && a.getByte 13 == 0x00 &&
    a.getByte 12 &&& 0xF0 == 0x10

/-- `IsLocal`. -/
def isLocal : Bool :=
  (a.isIPv4 && (a.getByte 3 == 127 || a.getByte 3 == 0)) || a.startsWith pchLocal

/-- `IsValid`. -/
def isValid : Bool :=
  if a.startsWith (pchIPv4.drop 3) then false
  else if a.startsWith (List.replicate 16 0) then false
  else if a.isRFC3849 then false
  else if a.isIPv4 then
    if a.ip.toList.drop 12 == [0xff, 0xff, 0xff, 0xff] then false
    else if a.ip.toList.drop 12 == [0, 0, 0, 0] then false
    else true
  else true

/-- `IsRoutable`. -/
def isRoutable : Bool :=
  a.isValid && !(a.isRFC1918 || a.isRFC3927 || a.isRFC4862 ||
    (a.isRFC4193 && !a.isTor && !a.isI2P) || a.isRFC4843 || a.isLocal)

/-- The end of `GetGroup`: `nBits` bits of the bytes from `nStartByte` on. -/
def pushBits (nStartByte nBits : ℕ) : List UInt8 :=
  if 8 ≤ nBits then a.getByte (15 - nStartByte) :: pushBits (nStartByte + 1) (nBits - 8)
  else if 0 < nBits then [a.getByte (15 - nStartByte) ||| UInt8.ofNat (1 <<< nBits - 1)]
  else []
termination_by nBits

/-- `GetGroup`. -/
def getGroup : List UInt8 :=
  -- all local addresses belong to the same group
  let (nClass, nBits) : UInt8 × ℕ := if a.isLocal then (255, 0) else (Network.ipv6.toByte, 16)
  -- all unroutable addresses belong to the same group
  if !a.isRoutable then Network.unroutable.toByte :: a.pushBits 0 0
  else if a.isIPv4 || a.isRFC6145 || a.isRFC6052 then
    Network.ipv4.toByte :: a.pushBits 12 nBits
  else if a.isRFC3964 then Network.ipv4.toByte :: a.pushBits 2 nBits
  else if a.isRFC4380 then
    [Network.ipv4.toByte, a.getByte 3 ^^^ 0xFF, a.getByte 2 ^^^ 0xFF]
  else if a.isTor then Network.tor.toByte :: a.pushBits 6 4
  else if a.isI2P then Network.i2p.toByte :: a.pushBits 6 4
  else if a.getByte 15 == 0x20 && a.getByte 14 == 0x11 && a.getByte 13 == 0x04 &&
      a.getByte 12 == 0x70 then nClass :: a.pushBits 0 36
  else nClass :: a.pushBits 0 32

/-! ## The group of an IPv4 address -/

/-- The address of an `in_addr`. -/
def ofIPv4 (v : Vector UInt8 4) : CNetAddr := ⟨⟨(pchIPv4 ++ v.toList).toArray, by simp [pchIPv4]⟩⟩

variable {a}

/-- An address is a form of an IPv4 address: it is the address itself, its translated form (RFC 6145),
its form under the well-known prefix (RFC 6052), a 6to4 address of it (RFC 3964), or a Teredo address
of it (RFC 4380), which holds the inverted bytes. -/
inductive Embeds (a : CNetAddr) (v : Vector UInt8 4) : Prop
  | mapped (h : a.isIPv4 = true) (hv : a.ip.toList.drop 12 = v.toList)
  | rfc6145 (h : a.isRFC6145 = true) (hv : a.ip.toList.drop 12 = v.toList)
  | rfc6052 (h : a.isRFC6052 = true) (hv : a.ip.toList.drop 12 = v.toList)
  | rfc3964 (h : a.isRFC3964 = true) (hv : (a.ip.toList.drop 2).take 4 = v.toList)
  | rfc4380 (h : a.isRFC4380 = true) (hv : (a.ip.toList.drop 12).map (· ^^^ 0xFF) = v.toList)

theorem embeds_ofIPv4 (v : Vector UInt8 4) : (ofIPv4 v).Embeds v := by
  refine .mapped ?_ ?_
  · simp [isIPv4, startsWith, ofIPv4, pchIPv4]
  · simp [ofIPv4, pchIPv4]

/-- The forms, with the bytes that are free in them. -/
inductive Form
  | rfc6145
  | rfc6052
  | rfc3964 (rest : Vector UInt8 10)
  | rfc4380 (rest : Vector UInt8 8)

/-- The form of an IPv4 address. -/
def Form.embed (v : Vector UInt8 4) : Form → CNetAddr
  | .rfc6145 => ⟨⟨(pchRFC6145 ++ v.toList).toArray, by simp [pchRFC6145]⟩⟩
  | .rfc6052 => ⟨⟨(pchRFC6052 ++ v.toList).toArray, by simp [pchRFC6052]⟩⟩
  | .rfc3964 rest => ⟨⟨([0x20, 0x02] ++ v.toList ++ rest.toList).toArray, by simp⟩⟩
  | .rfc4380 rest => ⟨⟨([0x20, 0x01, 0, 0] ++ rest.toList ++ v.toList.map (· ^^^ 0xFF)).toArray,
      by simp⟩⟩

/-- Every form is recognised. -/
theorem embeds_embed (v : Vector UInt8 4) (f : Form) : (f.embed v).Embeds v := by
  cases f with
  | rfc6145 =>
    refine .rfc6145 ?_ ?_
    · simp [isRFC6145, startsWith, Form.embed, pchRFC6145]
    · simp [Form.embed, pchRFC6145]
  | rfc6052 =>
    refine .rfc6052 ?_ ?_
    · simp [isRFC6052, startsWith, Form.embed, pchRFC6052]
    · simp [Form.embed, pchRFC6052]
  | rfc3964 rest =>
    refine .rfc3964 ?_ ?_
    · simp [isRFC3964, getByte, Form.embed]
    · have hlen : v.toList.length = 4 := Vector.length_toList
      simp only [Form.embed, Vector.toList_mk, List.append_assoc]
      exact List.take_left' hlen
  | rfc4380 rest =>
    refine .rfc4380 ?_ ?_
    · simp [isRFC4380, getByte, Form.embed]
    · have hlen : ([0x20, 0x01, 0, 0] ++ rest.toList).length = 12 := by simp
      simp only [Form.embed, Vector.toList_mk]
      rw [List.drop_left' hlen, List.map_map]
      refine (List.map_congr_left fun b _ => ?_).trans (List.map_id _)
      show (b ^^^ 0xFF) ^^^ 0xFF = b
      rw [UInt8.xor_assoc, UInt8.xor_self, UInt8.xor_zero]

/-- What an address starts with tells its first byte. -/
theorem getByte_of_startsWith {b : UInt8} {pch : List UInt8} (h : a.startsWith (b :: pch) = true) :
    a.getByte 15 = b := by
  rw [startsWith, beq_iff_eq, List.length_cons] at h
  rw [getByte, Nat.sub_self]
  cases hip : a.ip.toList with
  | nil => simp [hip] at h
  | cons c l =>
    rw [hip, List.take_succ_cons] at h
    exact (List.cons.inj h).1

/-- Local addresses are not routable. -/
theorem isLocal_of_isRoutable (h : a.isRoutable = true) : a.isLocal = false := by
  rw [isRoutable, Bool.and_eq_true, Bool.not_eq_true', Bool.or_eq_false_iff] at h
  exact h.2.2

theorem pushBits_two (n : ℕ) : a.pushBits n 16 = [a.getByte (15 - n), a.getByte (15 - (n + 1))] := by
  rw [pushBits, if_pos (by decide), pushBits, if_pos (by decide), pushBits, if_neg (by decide),
    if_neg (by decide)]

/-- Two bytes of a part of an address. -/
theorem getByte_of_drop {v : List UInt8} {n : ℕ} (hn : n ≤ 15) (h : a.ip.toList.drop n = v) (i : ℕ)
    (hi : i ≤ 15 - n) : a.getByte (15 - (n + i)) = v.getD i 0 := by
  rw [getByte, ← h, List.getD_eq_getElem?_getD, List.getD_eq_getElem?_getD, List.getElem?_drop,
    show 15 - (15 - (n + i)) = n + i by omega]

/-- The classes of routable addresses, in the order of `GetGroup`. -/
theorem getGroup_of_isRoutable (h : a.isRoutable = true) : a.getGroup =
    if a.isIPv4 || a.isRFC6145 || a.isRFC6052 then Network.ipv4.toByte :: a.pushBits 12 16
    else if a.isRFC3964 then Network.ipv4.toByte :: a.pushBits 2 16
    else if a.isRFC4380 then
      [Network.ipv4.toByte, a.getByte 3 ^^^ 0xFF, a.getByte 2 ^^^ 0xFF]
    else if a.isTor then Network.tor.toByte :: a.pushBits 6 4
    else if a.isI2P then Network.i2p.toByte :: a.pushBits 6 4
    else if a.getByte 15 == 0x20 && a.getByte 14 == 0x11 && a.getByte 13 == 0x04 &&
        a.getByte 12 == 0x70 then Network.ipv6.toByte :: a.pushBits 0 36
    else Network.ipv6.toByte :: a.pushBits 0 32 := by
  rw [getGroup, isLocal_of_isRoutable h, h]
  rfl

/-- **The group of a form of an IPv4 address** is made of the first two bytes of that address. -/
theorem Embeds.getGroup_eq {v : Vector UInt8 4} (h : a.Embeds v) (hroutable : a.isRoutable = true) :
    a.getGroup = [Network.ipv4.toByte, v.toList.getD 0 0, v.toList.getD 1 0] := by
  rw [getGroup_of_isRoutable hroutable]
  -- the forms that begin with zeros, and those that do not
  have hlow : (a.isIPv4 || a.isRFC6145 || a.isRFC6052) = true → a.ip.toList.drop 12 = v.toList →
      Network.ipv4.toByte :: a.pushBits 12 16 =
        [Network.ipv4.toByte, v.toList.getD 0 0, v.toList.getD 1 0] := by
    intro _ hv
    rw [pushBits_two, ← getByte_of_drop (by decide) hv 0 (by decide),
      ← getByte_of_drop (by decide) hv 1 (by decide)]
  have hhigh : a.getByte 15 = 0x20 → (a.isIPv4 || a.isRFC6145 || a.isRFC6052) = false := by
    intro hbyte
    rw [Bool.or_eq_false_iff, Bool.or_eq_false_iff]
    refine ⟨⟨?_, ?_⟩, ?_⟩ <;>
      · rw [Bool.eq_false_iff]
        intro hstart
        have hzero := getByte_of_startsWith hstart
        rw [hbyte] at hzero
        cases hzero
  cases h with
  | mapped h hv =>
    have hflag : (a.isIPv4 || a.isRFC6145 || a.isRFC6052) = true := by rw [h]; rfl
    rw [if_pos hflag, hlow hflag hv]
  | rfc6145 h hv =>
    have hflag : (a.isIPv4 || a.isRFC6145 || a.isRFC6052) = true := by rw [h, Bool.or_true]; rfl
    rw [if_pos hflag, hlow hflag hv]
  | rfc6052 h hv =>
    have hflag : (a.isIPv4 || a.isRFC6145 || a.isRFC6052) = true := by rw [h, Bool.or_true]
    rw [if_pos hflag, hlow hflag hv]
  | rfc3964 h hv =>
    have hbyte : a.getByte 15 = 0x20 := eq_of_beq (Bool.and_eq_true_iff.mp h).1
    have htake : ∀ i < 4, v.toList.getD i 0 = (a.ip.toList.drop 2).getD i 0 := by
      intro i hi
      rw [← hv, List.getD_eq_getElem?_getD, List.getElem?_take_of_lt hi,
        List.getD_eq_getElem?_getD]
    rw [hhigh hbyte, if_neg Bool.false_ne_true, if_pos h, pushBits_two, htake 0 (by decide),
      htake 1 (by decide), ← getByte_of_drop (by decide) rfl 0 (by decide),
      ← getByte_of_drop (by decide) rfl 1 (by decide)]
  | rfc4380 h hv =>
    have h' := h
    simp only [isRFC4380, Bool.and_eq_true, beq_iff_eq] at h'
    obtain ⟨⟨⟨hbyte, hsecond⟩, -⟩, -⟩ := h'
    have h3964 : a.isRFC3964 = false := by
      rw [isRFC3964, hsecond]
      exact Bool.and_false _
    have hlen : (a.ip.toList.drop 12).length = 4 := by simp
    have hmap : ∀ i < 4, v.toList.getD i 0 = (a.ip.toList.drop 12).getD i 0 ^^^ 0xFF := by
      intro i hi
      rw [← hv, List.getD_eq_getElem?_getD, List.getElem?_map, List.getD_eq_getElem?_getD,
        List.getElem?_eq_getElem (by omega)]
      rfl
    rw [hhigh hbyte, if_neg Bool.false_ne_true, h3964, if_neg Bool.false_ne_true, if_pos h,
      hmap 0 (by decide), hmap 1 (by decide), ← getByte_of_drop (by decide) rfl 0 (by decide),
      ← getByte_of_drop (by decide) rfl 1 (by decide)]

/-- **An IPv4 address has one group** under all its routable forms, and every form is recognised as
one. -/
theorem getGroup_eq_of_embeds :
    (∀ (v : Vector UInt8 4) (f : Form), (f.embed v).Embeds v) ∧
    ∀ (a : CNetAddr) (v : Vector UInt8 4), a.Embeds v → a.isRoutable = true →
      (ofIPv4 v).isRoutable = true → a.getGroup = (ofIPv4 v).getGroup := by
  refine ⟨embeds_embed, fun a v h hroutable hv => ?_⟩
  rw [h.getGroup_eq hroutable, (embeds_ofIPv4 v).getGroup_eq hv]

/-- The Teredo address of 8.8.8.8 is in its group. -/
theorem getGroup_teredo :
    (Form.embed #v[8, 8, 8, 8] (.rfc4380 (Vector.replicate 8 1))).getGroup = [1, 8, 8] ∧
      (Form.embed #v[8, 8, 8, 8] (.rfc4380 (Vector.replicate 8 1))).getGroup =
        (ofIPv4 #v[8, 8, 8, 8]).getGroup := by
  have hroutable : (ofIPv4 #v[8, 8, 8, 8]).isRoutable = true := by decide
  have h := getGroup_eq_of_embeds.2 _ _
    (getGroup_eq_of_embeds.1 #v[8, 8, 8, 8] (.rfc4380 (Vector.replicate 8 1))) (by decide) hroutable
  refine ⟨h.trans ?_, h⟩
  exact (embeds_ofIPv4 _).getGroup_eq hroutable

end CNetAddr

end FoxCoin
