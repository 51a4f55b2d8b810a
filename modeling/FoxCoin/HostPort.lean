import FoxCoin.NetNames

/-! # Hosts and ports

`ToStringIPPort` writes a service, and `SplitHostPort` looks for a port behind the last colon. It
reads the port with `strtol`, which skips blanks, takes a sign and stops at a NUL, and keeps the low
32 bits of the number. -/

namespace FoxCoin

/-! ## The code -/

/-- `find_last_of` for one character. -/
def findLastOf (c : UInt8) : StdString → Option ℕ
  | [] => none
  | d :: s =>
    match findLastOf c s with
    | some i => some (i + 1)
    | none => if d = c then some 0 else none

/-- The host without brackets around it. -/
def unbracket (s : StdString) : StdString :=
  if 0 < s.length ∧ s.getD 0 0 = 91 ∧ s.getD (s.length - 1) 0 = 93 then
    (s.drop 1).take (s.length - 2)
  else s

/-- `SplitHostPort`: `portOut`, which it is given, and `hostOut`. -/
def splitHostPort (strIn : StdString) (portOut : ℤ) : ℤ × StdString :=
  match findLastOf 58 strIn with
  | none => (portOut, unbracket strIn)
  | some colon =>
    let fBracketed : Bool := strIn.getD 0 0 = 91 && strIn.getD (colon - 1) 0 = 93
    -- for a colon at the start, `colon - 1` is `npos`
    let fMultiColon := (findLastOf 58 (if colon = 0 then strIn else strIn.take colon)).isSome
    if colon = 0 || fBracketed || !fMultiColon then
      let (value, endp) := strtol (cStr (strIn.drop (colon + 1)))
      let n := int32 value
      if endp = [] ∧ 0 ≤ n then
        (if 0 < n ∧ n < 0x10000 then n else portOut, unbracket (strIn.take colon))
      else (portOut, unbracket strIn)
    else (portOut, unbracket strIn)

/-- `CService::ToStringIPPort`. -/
def CService.toStringIPPort (numericHost : NumericHost) (service : CService) : StdString :=
  let strPort := decimal service.port.toNat
  if service.addr.isIPv4 || service.addr.isTor || service.addr.isI2P then
    service.addr.toStringIP numericHost ++ literal ":" ++ strPort
  else literal "[" ++ service.addr.toStringIP numericHost ++ literal "]:" ++ strPort

/-! ## The separating colon -/

theorem findLastOf_eq_none {c : UInt8} {s : StdString} : findLastOf c s = none ↔ c ∉ s := by
  induction s with
  | nil => simp [findLastOf]
  | cons d s ih =>
    rw [findLastOf, List.mem_cons, not_or, ← ih, eq_comm]
    cases hrest : findLastOf c s with
    | none => simp [eq_comm]
    | some i => simp

/-- The last place of a character is found. -/
theorem findLastOf_append {c : UInt8} {u : StdString} (hu : c ∉ u) (t : StdString) :
    findLastOf c (t ++ c :: u) = some t.length := by
  induction t with
  | nil => rw [List.nil_append, findLastOf, findLastOf_eq_none.mpr hu, if_pos rfl]; rfl
  | cons d t ih => rw [List.cons_append, findLastOf, ih, List.length_cons]

/-- A place that is found is the last one. -/
theorem exists_of_findLastOf {c : UInt8} {s : StdString} {i : ℕ} (h : findLastOf c s = some i) :
    ∃ t u, s = t ++ c :: u ∧ t.length = i ∧ c ∉ u := by
  induction s generalizing i with
  | nil => cases h
  | cons d s ih =>
    rw [findLastOf] at h
    cases hrest : findLastOf c s with
    | some j =>
      rw [hrest] at h
      obtain ⟨t, u, rfl, rfl, hu⟩ := ih hrest
      exact ⟨d :: t, u, rfl, Option.some.inj h, hu⟩
    | none =>
      rw [hrest] at h
      dsimp only at h
      split_ifs at h with hd
      obtain rfl := Option.some.inj h
      exact ⟨[], s, by rw [hd]; rfl, rfl, findLastOf_eq_none.mp hrest⟩

/-- **A string is split by a separating colon**: its last colon, if that is the first character, or
behind brackets, or the only colon. -/
structure SeparatedAt (strIn host text : StdString) : Prop where
  eq : strIn = host ++ 58 :: text
  notMem : 58 ∉ text
  separates : host = [] ∨ (host.getD 0 0 = 91 ∧ host.getD (host.length - 1) 0 = 93) ∨ 58 ∉ host

theorem SeparatedAt.unique {strIn host text host' text' : StdString}
    (h : SeparatedAt strIn host text) (h' : SeparatedAt strIn host' text') :
    host = host' ∧ text = text' := by
  have hlen := findLastOf_append h.notMem host
  rw [← h.eq, h'.eq, findLastOf_append h'.notMem] at hlen
  have heq := h.eq.symm.trans h'.eq
  obtain ⟨hhost, hrest⟩ := List.append_inj heq (Option.some.inj hlen).symm
  exact ⟨hhost, (List.cons.inj hrest).2⟩

/-- The test of the code for a separating colon. -/
theorem separates_iff (host text : StdString) :
    (host.length = 0 || ((host ++ 58 :: text).getD 0 0 = 91 &&
        (host ++ 58 :: text).getD (host.length - 1) 0 = 93 : Bool) ||
      !(findLastOf 58 (if host.length = 0 then host ++ 58 :: text
        else (host ++ 58 :: text).take host.length)).isSome) = true ↔
    host = [] ∨ (host.getD 0 0 = 91 ∧ host.getD (host.length - 1) 0 = 93) ∨ 58 ∉ host := by
  cases host with
  | nil => simp
  | cons c host =>
    have hlast : (c :: host ++ 58 :: text).getD ((c :: host).length - 1) 0 =
        (c :: host).getD ((c :: host).length - 1) 0 := by
      rw [List.getD_eq_getElem?_getD, List.getElem?_append_left (by simp),
        List.getD_eq_getElem?_getD]
    rw [hlast, if_neg (by simp), List.take_left]
    simp only [Bool.or_eq_true, Bool.and_eq_true, decide_eq_true_eq, Bool.not_eq_true',
      Option.isSome_eq_false_iff, Option.isNone_iff_eq_none, findLastOf_eq_none, or_assoc]
    simp

/-- **Splitting at a separating colon** reads the text behind it. -/
theorem SeparatedAt.splitHostPort_eq {strIn host text : StdString} (h : SeparatedAt strIn host text)
    (portOut : ℤ) : splitHostPort strIn portOut =
      if (strtol (cStr text)).2 = [] ∧ 0 ≤ int32 (strtol (cStr text)).1 then
        (if 0 < int32 (strtol (cStr text)).1 ∧ int32 (strtol (cStr text)).1 < 0x10000 then
          int32 (strtol (cStr text)).1 else portOut, unbracket host)
      else (portOut, unbracket strIn) := by
  obtain ⟨rfl, hnot, hsep⟩ := h
  have htext : (host ++ 58 :: text).drop (host.length + 1) = text := by
    rw [List.drop_append, List.drop_of_length_le (by omega), Nat.add_sub_cancel_left]
    rfl
  rw [splitHostPort, findLastOf_append hnot]
  dsimp only
  rw [htext, if_pos ((separates_iff host text).mpr hsep), List.take_left]

/-- Without a separating colon there is no port. -/
theorem splitHostPort_of_not_separated {strIn : StdString}
    (h : ∀ host text, ¬SeparatedAt strIn host text) (portOut : ℤ) :
    splitHostPort strIn portOut = (portOut, unbracket strIn) := by
  rw [splitHostPort]
  cases hcolon : findLastOf 58 strIn with
  | none => rfl
  | some colon =>
    obtain ⟨host, text, rfl, rfl, hnot⟩ := exists_of_findLastOf hcolon
    dsimp only
    rw [if_neg]
    intro hsep
    exact h host text ⟨rfl, hnot, (separates_iff host text).mp hsep⟩

/-! ## Ports -/

/-- The text is exactly a decimal number between 1 and 65535. -/
structure PortText (text : StdString) (n : ℤ) : Prop where
  ne_nil : text ≠ []
  digits : ∀ c ∈ text, isdigit c = true
  eq : (readDecimal text : ℤ) = n
  pos : 1 ≤ n
  le : n ≤ 65535

/-- **The text is no such number and is read as one**: it has blanks or a sign before the digits, or a
NUL behind them, or the number is a larger one whose low 32 bits are a port. -/
def LooseText (text : StdString) : Prop :=
  ∃ blanks sign ds, LongText (cStr text) blanks sign ds ∧
    0 < int32 (clampLong (signedNumber sign ds)) ∧
    int32 (clampLong (signedNumber sign ds)) < 0x10000 ∧
    (blanks ≠ [] ∨ sign ≠ [] ∨ cStr text ≠ text ∨ 65535 < readDecimal ds)

/-- **What splitting should do**: the port is changed only for a text that is exactly a port, and for
each such text it is set and the text is removed from the host. -/
structure SplitsPort (strIn : StdString) : Prop where
  changed : ∀ portOut, (splitHostPort strIn portOut).1 ≠ portOut → ∃ host text,
    SeparatedAt strIn host text ∧ PortText text (splitHostPort strIn portOut).1
  set : ∀ host text n, SeparatedAt strIn host text → PortText text n →
    ∀ portOut, splitHostPort strIn portOut = (n, unbracket host)

theorem int32_clampLong {n : ℤ} (h : 0 ≤ n) (h' : n ≤ 65535) : int32 (clampLong n) = n := by
  have hclamp : clampLong n = n := by
    rw [clampLong, min_eq_left (by omega), max_eq_right (by omega)]
  rw [hclamp, int32_eq_self (by omega) (by omega)]

/-- A port is read. -/
theorem PortText.strtol_eq {text : StdString} {n : ℤ} (h : PortText text n) :
    strtol (cStr text) = (clampLong n, []) := by
  have htext : LongText (cStr text) [] [] text :=
    ⟨cStr_eq_self (zero_notMem_of_isdigit h.digits), by simp, .inl rfl, h.digits, h.ne_nil⟩
  have hsigned : signedNumber [] text = n := h.eq
  rw [htext.strtol_eq, hsigned]

/-- **A text that is a port sets it.** -/
theorem SeparatedAt.splitHostPort_of_portText {strIn host text : StdString} {n : ℤ}
    (h : SeparatedAt strIn host text) (hport : PortText text n) (portOut : ℤ) :
    splitHostPort strIn portOut = (n, unbracket host) := by
  have hpos := hport.pos
  have hle := hport.le
  rw [h.splitHostPort_eq, hport.strtol_eq, int32_clampLong (by omega) hle, if_pos ⟨rfl, by omega⟩,
    if_pos ⟨by omega, by omega⟩]

/-- **What changes the port**: a text that is read to its end as a port. -/
theorem exists_of_changed {strIn : StdString} {portOut : ℤ}
    (h : (splitHostPort strIn portOut).1 ≠ portOut) : ∃ host text blanks sign ds,
      SeparatedAt strIn host text ∧ LongText (cStr text) blanks sign ds ∧
      (splitHostPort strIn portOut).1 = int32 (clampLong (signedNumber sign ds)) ∧
      0 < int32 (clampLong (signedNumber sign ds)) ∧
      int32 (clampLong (signedNumber sign ds)) < 0x10000 := by
  by_cases hsep : ∃ host text, SeparatedAt strIn host text
  · obtain ⟨host, text, hsep⟩ := hsep
    rw [hsep.splitHostPort_eq] at h ⊢
    split_ifs at h ⊢ with hend hrange
    · have hne : (strtol (cStr text)).1 ≠ 0 := by
        intro hzero
        rw [hzero] at hrange
        exact absurd hrange.1 (by decide)
      obtain ⟨blanks, sign, ds, hlong⟩ := exists_longText hend.1 hne
      rw [hlong.strtol_eq] at hrange ⊢
      exact ⟨host, text, blanks, sign, ds, hsep, hlong, rfl, hrange.1, hrange.2⟩
    · exact absurd rfl h
    · exact absurd rfl h
  · rw [splitHostPort_of_not_separated fun host text ht => hsep ⟨host, text, ht⟩] at h
    exact absurd rfl h

/-- A text that is not loose is exactly a port when it is read as one. -/
theorem portText_of_longText {text blanks sign ds : StdString}
    (hlong : LongText (cStr text) blanks sign ds)
    (hpos : 0 < int32 (clampLong (signedNumber sign ds)))
    (hlt : int32 (clampLong (signedNumber sign ds)) < 0x10000) (hloose : ¬LooseText text) :
    PortText text (int32 (clampLong (signedNumber sign ds))) := by
  have hstrict : ¬(blanks ≠ [] ∨ sign ≠ [] ∨ cStr text ≠ text ∨ 65535 < readDecimal ds) :=
    fun h => hloose ⟨blanks, sign, ds, hlong, hpos, hlt, h⟩
  simp only [not_or, not_not, not_lt] at hstrict
  obtain ⟨rfl, rfl, hwhole, hle⟩ := hstrict
  have heq : text = ds := hwhole.symm.trans hlong.eq
  subst heq
  have hsigned : signedNumber [] text = readDecimal text := rfl
  rw [hsigned, int32_clampLong (by omega) (by omega)] at hpos ⊢
  exact ⟨hlong.ne_nil, hlong.digits, rfl, by omega, by omega⟩

/-- A loose text is not exactly a port. -/
theorem LooseText.not_portText {text : StdString} (h : LooseText text) (n : ℤ) :
    ¬PortText text n := by
  intro hport
  obtain ⟨blanks, sign, ds, hlong, -, -, hloose⟩ := h
  have hwhole := cStr_eq_self (zero_notMem_of_isdigit hport.digits)
  have heq := hlong.eq
  rw [hwhole] at heq
  have hall := hport.digits
  rw [heq] at hall
  -- neither a blank nor a sign is a digit
  obtain rfl : blanks = [] := by
    refine List.eq_nil_iff_forall_not_mem.mpr fun c hc => ?_
    have hdigit := isspace_of_isdigit (hall c (by simp [hc]))
    rw [hlong.blanks c hc] at hdigit
    cases hdigit
  obtain rfl : sign = [] := by
    rcases hlong.sign with rfl | rfl | rfl
    · rfl
    · exact absurd (hall 43 (by simp)) (by decide)
    · exact absurd (hall 45 (by simp)) (by decide)
  rw [List.nil_append, List.nil_append] at heq
  subst heq
  have hle := hport.le
  rw [← hport.eq] at hle
  rcases hloose with h | h | h | h
  · exact h rfl
  · exact h rfl
  · exact h hwhole
  · omega

/-- **When a port is split off as it should be**: the text behind the separating colon is not loose. -/
theorem splitsPort_iff (strIn : StdString) :
    SplitsPort strIn ↔ ¬∃ host text, SeparatedAt strIn host text ∧ LooseText text := by
  constructor
  · rintro hsplits ⟨host, text, hsep, hloose⟩
    obtain ⟨blanks, sign, ds, hlong, hpos, hlt, -⟩ := id hloose
    have hset : splitHostPort strIn 0 =
        (int32 (clampLong (signedNumber sign ds)), unbracket host) := by
      rw [hsep.splitHostPort_eq, hlong.strtol_eq, if_pos ⟨rfl, hpos.le⟩, if_pos ⟨hpos, hlt⟩]
    obtain ⟨host', text', hsep', hport⟩ := hsplits.changed 0 (by rw [hset]; exact hpos.ne')
    obtain ⟨rfl, rfl⟩ := hsep.unique hsep'
    exact hloose.not_portText _ hport
  · intro hstrict
    refine ⟨fun portOut hchanged => ?_, fun host text n hsep hport portOut =>
      hsep.splitHostPort_of_portText hport portOut⟩
    obtain ⟨host, text, blanks, sign, ds, hsep, hlong, hport, hpos, hlt⟩ :=
      exists_of_changed hchanged
    rw [hport]
    exact ⟨host, text, hsep, portText_of_longText hlong hpos hlt fun hloose =>
      hstrict ⟨host, text, hsep, hloose⟩⟩

/-! ## Services -/

theorem unbracket_brackets (s : StdString) : unbracket (literal "[" ++ s ++ literal "]") = s := by
  have hlen : (literal "[" ++ s ++ literal "]").length = s.length + 2 := by
    simp [literal]
  have hlast : (literal "[" ++ s ++ literal "]").getD (s.length + 2 - 1) 0 = 93 := by
    rw [List.getD_eq_getElem?_getD, List.getElem?_append_right (by simp [literal])]
    simp [literal]
  rw [unbracket, hlen, if_pos ⟨by omega, rfl, hlast⟩, Nat.add_sub_cancel]
  show (s ++ literal "]").take s.length = s
  exact List.take_left

theorem unbracket_eq_self {s : StdString} (h : 91 ∉ s) : unbracket s = s := by
  rw [unbracket, if_neg]
  rintro ⟨hpos, hopen, -⟩
  cases s with
  | nil => exact absurd hpos (by simp)
  | cons c s =>
    obtain rfl : c = 91 := hopen
    exact h List.mem_cons_self

/-- The port of a service. -/
theorem portText_decimal {port : UInt16} (h : port ≠ 0) : PortText (decimal port.toNat) port.toNat := by
  have hlt := port.toNat_lt
  have hpos : port.toNat ≠ 0 := fun hzero => h (UInt16.toNat_inj.mp hzero)
  exact ⟨decimal_ne_nil _, isdigit_decimal _, by rw [readDecimal_decimal], by omega, by omega⟩

theorem colon_notMem_of_isdigit {s : StdString} (h : ∀ c ∈ s, isdigit c = true) : 58 ∉ s := by
  intro hcolon
  exact absurd (h 58 hcolon) (by decide)

/-- The text of an IPv4 address has digits and points only. -/
theorem CNetAddr.mem_dotted {a : CNetAddr} {c : UInt8} (h : c ∈ a.dotted) :
    isdigit c = true ∨ c = 46 := by
  unfold dotted at h
  simp only [List.mem_append] at h
  have hpoint : c ∈ literal "." → c = 46 := fun hc => List.mem_singleton.mp hc
  rcases h with (((((h | h) | h) | h) | h) | h) | h
  all_goals first | exact .inl (isdigit_decimal _ _ h) | exact .inr (hpoint h)

/-- The hosts that are written without brackets have no colon and do not open one. -/
theorem CNetAddr.notMem_toStringIP {numericHost : NumericHost} {a : CNetAddr} {c : UInt8}
    (hnumeric : a.isIPv4 = true → ∀ name, numericHost a = some name → name = a.dotted)
    (h : (a.isIPv4 || a.isTor || a.isI2P) = true) (hc : c = 58 ∨ c = 91) :
    c ∉ a.toStringIP numericHost := by
  have hbase32 : ∀ vch, c ∉ encodeBase32 vch := by
    rcases hc with rfl | rfl
    · exact notMem_encodeBase32 (by decide) (by decide)
    · exact notMem_encodeBase32 (by decide) (by decide)
  have hdotted : c ∉ a.dotted := by
    intro hmem
    rcases hc with rfl | rfl
    · exact absurd (mem_dotted hmem) (by decide)
    · exact absurd (mem_dotted hmem) (by decide)
  have hsuffix : c ∉ literal ".onion" ∧ c ∉ literal ".oc.b32.i2p" := by
    rcases hc with rfl | rfl
    · decide
    · decide
  rw [toStringIP]
  by_cases htor : a.isTor = true
  · rw [if_pos htor]
    exact fun hmem => (List.mem_append.mp hmem).elim (hbase32 _) hsuffix.1
  rw [if_neg htor]
  by_cases hi2p : a.isI2P = true
  · rw [if_pos hi2p]
    exact fun hmem => (List.mem_append.mp hmem).elim (hbase32 _) hsuffix.2
  rw [if_neg hi2p]
  have hipv4 : a.isIPv4 = true := by simpa [htor, hi2p] using h
  cases hname : numericHost a with
  | none =>
    rw [hipv4]
    exact hdotted
  | some name =>
    rw [hnumeric hipv4 name hname]
    exact hdotted

/-- **A service is split into its host and its port.** -/
theorem splitHostPort_toStringIPPort {numericHost : NumericHost} {service : CService}
    (hnumeric : service.addr.isIPv4 = true → ∀ name, numericHost service.addr = some name →
      name = service.addr.dotted) (hport : service.port ≠ 0) (portOut : ℤ) :
    splitHostPort (service.toStringIPPort numericHost) portOut =
      ((service.port.toNat : ℤ), service.addr.toStringIP numericHost) := by
  have htext := portText_decimal hport
  have hcolon := colon_notMem_of_isdigit htext.digits
  rw [CService.toStringIPPort]
  split_ifs with hplain
  · have hhost := CNetAddr.notMem_toStringIP hnumeric hplain (.inl rfl)
    have hopen := CNetAddr.notMem_toStringIP hnumeric hplain (.inr rfl)
    have hsep : SeparatedAt (service.addr.toStringIP numericHost ++ literal ":" ++
        decimal service.port.toNat) (service.addr.toStringIP numericHost)
        (decimal service.port.toNat) :=
      ⟨by rw [List.append_assoc]; rfl, hcolon, .inr (.inr hhost)⟩
    rw [hsep.splitHostPort_of_portText htext, unbracket_eq_self hopen]
  · have hsep : SeparatedAt (literal "[" ++ service.addr.toStringIP numericHost ++ literal "]:" ++
        decimal service.port.toNat)
        (literal "[" ++ service.addr.toStringIP numericHost ++ literal "]")
        (decimal service.port.toNat) := by
      refine ⟨by simp [literal], hcolon, .inr (.inl ⟨rfl, ?_⟩)⟩
      rw [List.length_append, show (literal "]").length = 1 from rfl, Nat.add_sub_cancel,
        List.getD_eq_getElem?_getD, List.getElem?_append_right le_rfl, Nat.sub_self]
      rfl
    rw [hsep.splitHostPort_of_portText htext, unbracket_brackets]

/-- **When hosts and ports are split as they should be**: every service with a port is split into what
it was written from, and a string is split rightly exactly when the text behind its separating colon
is not loose. -/
theorem splitHostPort_iff {numericHost : NumericHost}
    (hnumeric : ∀ a : CNetAddr, a.isIPv4 = true → ∀ name, numericHost a = some name →
      name = a.dotted) :
    (∀ service : CService, service.port ≠ 0 → ∀ portOut,
      splitHostPort (service.toStringIPPort numericHost) portOut =
        ((service.port.toNat : ℤ), service.addr.toStringIP numericHost)) ∧
    ∀ strIn, SplitsPort strIn ↔ ¬∃ host text, SeparatedAt strIn host text ∧ LooseText text :=
  ⟨fun service hport => splitHostPort_toStringIPPort (hnumeric service.addr) hport, splitsPort_iff⟩

/-- A service at 8.8.8.8 is split. -/
theorem splitHostPort_example :
    splitHostPort ((⟨CNetAddr.ofIPv4 #v[8, 8, 8, 8], 1949⟩ : CService).toStringIPPort
      fun a => some a.dotted) 0 = (1949, (CNetAddr.ofIPv4 #v[8, 8, 8, 8]).toStringIP
        fun a => some a.dotted) :=
  (splitHostPort_iff (fun _ _ _ h => (Option.some.inj h).symm)).1 ⟨_, 1949⟩ (by decide) 0

/-- The text `4294967297` changes the port, to 1. -/
theorem not_splitsPort : ¬∀ strIn, SplitsPort strIn := by
  intro h
  have hsep : SeparatedAt (literal "a:4294967297") (literal "a") (literal "4294967297") :=
    ⟨by decide, by decide, .inr (.inr (by decide))⟩
  refine (splitsPort_iff _).mp (h (literal "a:4294967297")) ⟨_, _, hsep, [], [],
    literal "4294967297", ⟨by decide, by simp, .inl rfl, by decide +kernel, by decide⟩, ?_, ?_,
    .inr (.inr (.inr ?_))⟩
  · decide +kernel
  · decide +kernel
  · decide +kernel

end FoxCoin
