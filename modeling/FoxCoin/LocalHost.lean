import FoxCoin.AddrMan
import FoxCoin.Lib.Runs

/-! # Local addresses

`mapLocalHost` keeps a score and a port for every address the node takes for its own. `AddLocal`
adds an address or raises its score, `SeenLocal` counts a peer's vote for it, and `GetLocalAddress`
advertises the best one for a peer. Adding an address again does not store the port that was passed
but the port after it. -/

namespace FoxCoin

open Runs

/-! ## The map -/

/-- `LocalServiceInfo`. -/
structure LocalServiceInfo where
  nScore : ℤ
  nPort : ℕ
  deriving DecidableEq, Repr

/-- `mapLocalHost`: its entries in the order of their keys. -/
abbrev LocalHostMap := List (CNetAddr × LocalServiceInfo)

/-- `CNetAddr::operator<`: `memcmp` of the bytes. -/
def CNetAddr.less (a b : CNetAddr) : Bool := decide (a.ip.toList < b.ip.toList)

/-- The entry of an address. -/
def LocalHostMap.find (m : LocalHostMap) (addr : CNetAddr) : Option LocalServiceInfo := m.lookup addr

/-- Assign to the entry of an address, which is made at its place when it is not there. -/
def LocalHostMap.assign (addr : CNetAddr) (info : LocalServiceInfo) : LocalHostMap → LocalHostMap
  | [] => [(addr, info)]
  | e :: m =>
    if e.1 = addr then (addr, info) :: m
    else if addr.less e.1 then (addr, info) :: e :: m
    else e :: LocalHostMap.assign addr info m

/-- `LOCAL_MANUAL`, the score of an address that was given on the command line. -/
def localManual : ℤ := 6

/-- What the functions on local addresses read of other parts of the node: whether an address is
routable, and how reachable an address is from a peer. -/
structure LocalParams where
  isRoutable : CNetAddr → Bool
  getReachabilityFrom : CNetAddr → Option CNetAddr → ℤ

variable (L : LocalParams)

/-- `AddLocal`. The flags are `fDiscover` and whether the network of the address is limited. -/
def addLocal (fDiscover fLimited : Bool) (addr : CService) (nScore : ℤ) (mapLocalHost : LocalHostMap) :
    Bool × LocalHostMap :=
  if !L.isRoutable addr.addr then (false, mapLocalHost)
  else if !fDiscover ∧ nScore < localManual then (false, mapLocalHost)
  else if fLimited then (false, mapLocalHost)
  else
    match mapLocalHost.find addr.addr with
    | none => (true, mapLocalHost.assign addr.addr ⟨nScore, addr.port.toNat⟩)
    | some info =>
      if info.nScore ≤ nScore then
        (true, mapLocalHost.assign addr.addr ⟨nScore, addr.port.toNat + 1⟩)
      else (true, mapLocalHost)

/-- `SeenLocal`. -/
def seenLocal (addr : CService) (mapLocalHost : LocalHostMap) : Bool × LocalHostMap :=
  match mapLocalHost.find addr.addr with
  | none => (false, mapLocalHost)
  | some info => (true, mapLocalHost.assign addr.addr { info with nScore := info.nScore + 1 })

/-- The variables of the loop of `GetLocal`. -/
structure BestLocal where
  addr : Option CService
  nBestScore : ℤ
  nBestReachability : ℤ

/-- One round of the loop of `GetLocal`. The port is stored as an `int` and made an `unsigned short`
here. -/
def betterLocal (paddrPeer : Option CNetAddr) (best : BestLocal) (e : CNetAddr × LocalServiceInfo) :
    BestLocal :=
  let nReachability := L.getReachabilityFrom e.1 paddrPeer
  if best.nBestReachability < nReachability ∨
      nReachability = best.nBestReachability ∧ best.nBestScore < e.2.nScore then
    ⟨some ⟨e.1, UInt16.ofNat e.2.nPort⟩, e.2.nScore, nReachability⟩
  else best

/-- `GetLocal`, with the address when it returns `true`. -/
def getLocal (fNoListen : Bool) (paddrPeer : Option CNetAddr) (mapLocalHost : LocalHostMap) :
    Option CService :=
  if fNoListen then none
  else
    let best := mapLocalHost.foldl (betterLocal L paddrPeer) ⟨none, -1, -1⟩
    if 0 ≤ best.nBestScore then best.addr else none

theorem anyAddr_size :
    (#[0, 0, 0, 0, 0, 0, 0, 0, 0, 0, 0xff, 0xff, 0, 0, 0, 0] : Array UInt8).size = 16 := rfl

/-- `0.0.0.0` in 16 bytes. -/
def CNetAddr.any : CNetAddr :=
  ⟨⟨#[0, 0, 0, 0, 0, 0, 0, 0, 0, 0, 0xff, 0xff, 0, 0, 0, 0], anyAddr_size⟩⟩

/-- The service that `GetLocalAddress` advertises: `0.0.0.0:0` when there is no local address. -/
def getLocalAddress (fNoListen : Bool) (paddrPeer : Option CNetAddr) (mapLocalHost : LocalHostMap) :
    CService :=
  (getLocal L fNoListen paddrPeer mapLocalHost).getD ⟨CNetAddr.any, 0⟩

/-! ## Entries -/

variable {L}

theorem LocalHostMap.mem_of_find {m : LocalHostMap} {addr : CNetAddr} {info : LocalServiceInfo}
    (h : m.find addr = some info) : (addr, info) ∈ m := by
  rw [find] at h
  induction m with
  | nil => cases h
  | cons e m ih =>
    rw [List.lookup_cons] at h
    by_cases heq : addr = e.1
    · simp only [beq_iff_eq.mpr heq, Option.some.injEq] at h
      exact List.mem_cons.mpr (.inl (Prod.ext heq h.symm))
    · simp only [beq_eq_false_iff_ne.mpr heq] at h
      exact List.mem_cons_of_mem e (ih h)

/-- What is in the map after an assignment. -/
theorem LocalHostMap.mem_of_assign {m : LocalHostMap} {addr : CNetAddr} {info : LocalServiceInfo}
    {e : CNetAddr × LocalServiceInfo} (h : e ∈ m.assign addr info) : e = (addr, info) ∨ e ∈ m := by
  induction m with
  | nil => exact .inl (List.mem_singleton.mp h)
  | cons e' m ih =>
    rw [assign] at h
    split_ifs at h
    · exact (List.mem_cons.mp h).imp_right (List.mem_cons_of_mem e')
    · exact List.mem_cons.mp h
    · rcases List.mem_cons.mp h with rfl | hrest
      · exact .inr List.mem_cons_self
      · exact (ih hrest).imp_right (List.mem_cons_of_mem e')

/-- An advertised service is an entry of the map. -/
theorem exists_of_getLocal {fNoListen : Bool} {paddrPeer : Option CNetAddr} {m : LocalHostMap}
    {service : CService} (h : getLocal L fNoListen paddrPeer m = some service) :
    ∃ e ∈ m, service = ⟨e.1, UInt16.ofNat e.2.nPort⟩ := by
  have hloop : ∀ (l : LocalHostMap) (best : BestLocal),
      (l.foldl (betterLocal L paddrPeer) best).addr = best.addr ∨
        ∃ e ∈ l, (l.foldl (betterLocal L paddrPeer) best).addr =
          some ⟨e.1, UInt16.ofNat e.2.nPort⟩ := by
    intro l
    induction l with
    | nil => exact fun best => .inl rfl
    | cons e l ih =>
      intro best
      rcases ih (betterLocal L paddrPeer best e) with hsame | ⟨e', he', hlater⟩
      · rw [List.foldl_cons, hsame, betterLocal]
        split_ifs
        · exact .inr ⟨e, List.mem_cons_self, rfl⟩
        · exact .inl rfl
      · exact .inr ⟨e', List.mem_cons_of_mem e he', hlater⟩
  unfold getLocal at h
  rw [Option.ite_none_left_eq_some, Option.ite_none_right_eq_some] at h
  obtain ⟨-, -, hbest⟩ := h
  rcases hloop m ⟨none, -1, -1⟩ with hsame | ⟨e, he, hentry⟩
  · rw [hsame] at hbest
    cases hbest
  · rw [hentry, Option.some.injEq] at hbest
    exact ⟨e, he, hbest.symm⟩

/-! ## Runs -/

/-- The local addresses of a node, with the services that were passed to `AddLocal`. -/
structure LocalHost where
  mapLocalHost : LocalHostMap
  passed : List CService

/-- A call that changes the local addresses. -/
inductive LocalCall
  | addLocal (fDiscover fLimited : Bool) (addr : CService) (nScore : ℤ)
  | seenLocal (addr : CService)

/-- The effect of a call. -/
def LocalHost.next (L : LocalParams) (s : LocalHost) : LocalCall → LocalHost
  | .addLocal fDiscover fLimited addr nScore =>
    ⟨(FoxCoin.addLocal L fDiscover fLimited addr nScore s.mapLocalHost).2, addr :: s.passed⟩
  | .seenLocal addr => { s with mapLocalHost := (FoxCoin.seenLocal addr s.mapLocalHost).2 }

/-- A node that starts without local addresses. -/
def localSystem (L : LocalParams) : System LocalHost LocalCall where
  start := fun s => s = ⟨[], []⟩
  legal := fun _ _ => True
  next := LocalHost.next L

/-- Whatever the node advertises to a peer was passed to `AddLocal`, address and port. -/
def LocalHost.AdvertisesPassed (L : LocalParams) (s : LocalHost) : Prop :=
  ∀ fNoListen paddrPeer service, getLocal L fNoListen paddrPeer s.mapLocalHost = some service →
    service ∈ s.passed

/-- The call does not give an address of the map a new score, or the port after the one it passes
has been passed for the address as well. -/
def LocalCall.KeepsPort (L : LocalParams) (s : LocalHost) : LocalCall → Prop
  | .addLocal fDiscover fLimited addr nScore => L.isRoutable addr.addr = true →
      (fDiscover = true ∨ localManual ≤ nScore) → fLimited = false →
      ∀ info, s.mapLocalHost.find addr.addr = some info → info.nScore ≤ nScore →
        ⟨addr.addr, UInt16.ofNat (addr.port.toNat + 1)⟩ ∈ s.passed
  | .seenLocal _ => True

/-- The ports of the map were passed for their addresses. -/
def LocalHost.PortsPassed (s : LocalHost) : Prop :=
  ∀ e ∈ s.mapLocalHost, (⟨e.1, UInt16.ofNat e.2.nPort⟩ : CService) ∈ s.passed

/-- What is passed stays passed. -/
theorem LocalHost.PortsPassed.cons {s : LocalHost} (h : s.PortsPassed) (addr : CService) :
    (⟨s.mapLocalHost, addr :: s.passed⟩ : LocalHost).PortsPassed :=
  fun e he => List.mem_cons_of_mem addr (h e he)

/-- An assignment with a port that was passed. -/
theorem LocalHost.PortsPassed.assign {s : LocalHost} (h : s.PortsPassed) {addr : CNetAddr}
    (info : LocalServiceInfo) (hpassed : (⟨addr, UInt16.ofNat info.nPort⟩ : CService) ∈ s.passed) :
    (⟨s.mapLocalHost.assign addr info, s.passed⟩ : LocalHost).PortsPassed := by
  intro e he
  rcases LocalHostMap.mem_of_assign he with rfl | hold
  · exact hpassed
  · exact h e hold

/-- **One call** that keeps the ports keeps them passed. -/
theorem LocalHost.PortsPassed.next {s : LocalHost} {call : LocalCall} (h : s.PortsPassed)
    (hkeeps : call.KeepsPort L s) : (s.next L call).PortsPassed := by
  cases call with
  | addLocal fDiscover fLimited addr nScore =>
    unfold LocalHost.next FoxCoin.addLocal
    by_cases hroutable : L.isRoutable addr.addr = true
    · by_cases hdiscover : fDiscover = true ∨ localManual ≤ nScore
      · have hmanual : ¬((!fDiscover) = true ∧ nScore < localManual) := by
          rintro ⟨hoff, hlow⟩
          rcases hdiscover with rfl | hhigh
          · cases hoff
          · omega
        cases fLimited with
        | true => simpa [hroutable, hmanual] using h.cons addr
        | false =>
          simp only [hroutable, Bool.not_true, Bool.false_eq_true, if_false, if_neg hmanual]
          cases hfind : s.mapLocalHost.find addr.addr with
          | none =>
            refine (h.cons addr).assign ⟨nScore, addr.port.toNat⟩ ?_
            simp
          | some info =>
            simp only
            split_ifs with hscore
            · refine (h.cons addr).assign ⟨nScore, addr.port.toNat + 1⟩ ?_
              exact List.mem_cons_of_mem addr (hkeeps hroutable hdiscover rfl info hfind hscore)
            · exact h.cons addr
      · obtain ⟨hoff, hlow⟩ := not_or.mp hdiscover
        have hmanual : (!fDiscover) = true ∧ nScore < localManual :=
          ⟨by simpa using hoff, not_le.mp hlow⟩
        simpa [hroutable, hmanual] using h.cons addr
    · simpa [hroutable] using h.cons addr
  | seenLocal addr =>
    show LocalHost.PortsPassed ⟨(FoxCoin.seenLocal addr s.mapLocalHost).2, s.passed⟩
    unfold FoxCoin.seenLocal
    cases hfind : s.mapLocalHost.find addr.addr with
    | none => exact h
    | some info =>
      exact h.assign { info with nScore := info.nScore + 1 }
        (h _ (LocalHostMap.mem_of_find hfind))

theorem exampleAddr_size :
    (#[0, 0, 0, 0, 0, 0, 0, 0, 0, 0, 0xff, 0xff, 1, 2, 3, 4] : Array UInt8).size = 16 := rfl

/-- An address of the example. -/
def exampleAddr : CNetAddr :=
  ⟨⟨#[0, 0, 0, 0, 0, 0, 0, 0, 0, 0, 0xff, 0xff, 1, 2, 3, 4], exampleAddr_size⟩⟩

/-- Every address is routable and equally reachable. -/
def exampleLocalParams : LocalParams := ⟨fun _ => true, fun _ _ => 1⟩

/-- The node that has added an address once, with the port 9333. -/
def addedOnce : LocalHost :=
  LocalHost.next exampleLocalParams ⟨[], []⟩ (.addLocal true false ⟨exampleAddr, 9333⟩ 1)

end FoxCoin
