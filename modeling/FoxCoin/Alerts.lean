import FoxCoin.Unserialize
import FoxCoin.Lib.Runs

/-! # Alerts

`CAlert::ProcessAlert` keeps the alerts that are in effect in `mapAlerts`. A new alert takes the
ones it cancels out of the map, and is not kept itself when one that stays cancels it. The clock is
read again for every question whether an alert is in effect, so an alert can expire while another is
processed. -/

namespace FoxCoin

open Runs Wire

/-! ## Reading an alert -/

/-- `CUnsignedAlert`. -/
structure CUnsignedAlert where
  nVersion : ℤ
  nRelayUntil : ℤ
  nExpiration : ℤ
  nID : ℤ
  nCancel : ℤ
  setCancel : Finset ℤ
  nMinVer : ℤ
  nMaxVer : ℤ
  setSubVer : Finset (List UInt8)
  nPriority : ℤ
  strComment : List UInt8
  strStatusBar : List UInt8
  strReserved : List UInt8
  deriving DecidableEq

/-- `Unserialize` of a string. -/
def readString : Reader (List UInt8) := do
  let nSize ← readCompactSize
  readBytes nSize

/-- `Unserialize` of a set. -/
def readSet {K : Type} [DecidableEq K] (read : Reader K) : Reader (Finset K) := do
  let nSize ← readCompactSize
  (List.range nSize).foldlM (fun m _ => (fun key => insert key m) <$> read) ∅

/-- `Unserialize` of an alert. -/
def CUnsignedAlert.read : Reader CUnsignedAlert := do
  let nVersion ← readInt 4
  let nRelayUntil ← readInt 8
  let nExpiration ← readInt 8
  let nID ← readInt 4
  let nCancel ← readInt 4
  let setCancel ← readSet (readInt 4)
  let nMinVer ← readInt 4
  let nMaxVer ← readInt 4
  let setSubVer ← readSet readString
  let nPriority ← readInt 4
  let strComment ← readString
  let strStatusBar ← readString
  let strReserved ← readString
  return ⟨nVersion, nRelayUntil, nExpiration, nID, nCancel, setCancel, nMinVer, nMaxVer, setSubVer,
    nPriority, strComment, strStatusBar, strReserved⟩

/-- `CAlert`: an alert with the bytes it was read from and their signature. -/
structure CAlert extends CUnsignedAlert where
  vchMsg : List UInt8
  vchSig : List UInt8
  deriving DecidableEq

/-- What the functions on alerts call: the verification of a signature of the hash of some bytes
with the alert key, and the hash of the serialization of the two byte vectors of an alert. -/
structure AlertParams where
  verify : List UInt8 → List UInt8 → Bool
  serializeHash : List UInt8 → List UInt8 → Uint256

/-- `CAlert::CheckSignature`, with the alert that is read when it returns `true`. Bytes that are too
short make it throw. -/
def AlertParams.checkSignature (A : AlertParams) (vchMsg vchSig : List UInt8) : Option CAlert :=
  if A.verify vchMsg vchSig then
    (CUnsignedAlert.read vchMsg).map fun r => ⟨r.1, vchMsg, vchSig⟩
  else none

/-- `CAlert::GetHash`. -/
def CAlert.getHash (A : AlertParams) (alert : CAlert) : Uint256 :=
  A.serializeHash alert.vchMsg alert.vchSig

/-- `CAlert::IsInEffect` at a reading of the clock. -/
def CAlert.isInEffect (nTime : ℤ) (alert : CAlert) : Bool := decide (nTime < alert.nExpiration)

/-- `CAlert::Cancels` at a reading of the clock. -/
def CAlert.cancels (nTime : ℤ) (self alert : CAlert) : Bool :=
  if !self.isInEffect nTime then false
  else decide (alert.nID ≤ self.nCancel) || decide (alert.nID ∈ self.setCancel)

/-! ## Processing an alert -/

/-- `mapAlerts`: its entries in the order of their keys. -/
abbrev AlertMap := List (Uint256 × CAlert)

/-- `map::insert`, which leaves an entry alone that is there. -/
def AlertMap.insertAlert (hash : Uint256) (alert : CAlert) : AlertMap → AlertMap
  | [] => [(hash, alert)]
  | e :: m =>
    if hash < e.1 then (hash, alert) :: e :: m
    else if hash = e.1 then e :: m
    else e :: AlertMap.insertAlert hash alert m

variable (clock : ℕ → ℤ)

/-- The loop of `ProcessAlert` that takes out the alerts that are cancelled or have expired, with
the number of the next reading of the clock. -/
def cancelAlerts (self : CAlert) : ℕ → AlertMap → ℕ × AlertMap
  | n, [] => (n, [])
  | n, e :: m =>
    if self.cancels (clock n) e.2 then cancelAlerts self (n + 1) m
    else if !e.2.isInEffect (clock (n + 1)) then cancelAlerts self (n + 2) m
    else ((cancelAlerts self (n + 2) m).1, e :: (cancelAlerts self (n + 2) m).2)

/-- The loop of `ProcessAlert` that looks for an alert that cancels the new one. -/
def isCancelled (self : CAlert) : ℕ → AlertMap → ℕ × Bool
  | n, [] => (n, false)
  | n, e :: m => if e.2.cancels (clock n) self then (n + 1, true) else isCancelled self (n + 1) m

/-- The alerts of a node, the number of readings of its clock so far, and every correctly signed
alert it has received. -/
structure AlertNode where
  mapAlerts : AlertMap
  nReadings : ℕ
  received : List CAlert

variable (A : AlertParams)

/-- `CAlert::ProcessAlert` after the check of the signature. -/
def AlertNode.processAlert (s : AlertNode) (alert : CAlert) : AlertNode :=
  if !alert.isInEffect (clock s.nReadings) then { s with nReadings := s.nReadings + 1 }
  else
    let rest := cancelAlerts clock alert (s.nReadings + 1) s.mapAlerts
    let cancelled := isCancelled clock alert rest.1 rest.2
    { s with
      mapAlerts := if cancelled.2 then rest.2 else rest.2.insertAlert (alert.getHash A) alert
      nReadings := cancelled.1 }

/-- An `alert` message. -/
structure AlertMessage where
  vchMsg : List UInt8
  vchSig : List UInt8

/-- The effect of a message. -/
def AlertNode.next (s : AlertNode) (msg : AlertMessage) : AlertNode :=
  match A.checkSignature msg.vchMsg msg.vchSig with
  | none => s
  | some alert => { s with received := alert :: s.received }.processAlert clock A alert

/-- A node that starts without alerts. -/
def alertSystem : System AlertNode AlertMessage where
  start := fun s => s.mapAlerts = [] ∧ s.received = []
  legal := fun _ _ => True
  next := AlertNode.next clock A

/-! ## The loops -/

variable {clock A}

theorem CAlert.isInEffect_of_le {nTime nTime' : ℤ} {alert : CAlert} (hle : nTime ≤ nTime')
    (h : alert.isInEffect nTime' = true) : alert.isInEffect nTime = true := by
  rw [isInEffect, decide_eq_true_iff] at h ⊢
  exact hle.trans_lt h

theorem CAlert.isInEffect_of_cancels {nTime : ℤ} {self alert : CAlert}
    (h : self.cancels nTime alert = true) : self.isInEffect nTime = true := by
  rw [cancels] at h
  by_contra hexpired
  simp [hexpired] at h

/-- An alert that cancels another one cancels it whenever it is in effect itself. -/
theorem CAlert.cancels_of_isInEffect {nTime nTime' : ℤ} {self alert : CAlert}
    (h : self.cancels nTime alert = true) (heffect : self.isInEffect nTime' = true) :
    self.cancels nTime' alert = true := by
  rw [cancels] at h ⊢
  split_ifs at h
  simpa [heffect] using h

theorem CAlert.cancels_of_le {nTime nTime' : ℤ} {self alert : CAlert} (hle : nTime ≤ nTime')
    (h : self.cancels nTime' alert = true) : self.cancels nTime alert = true :=
  cancels_of_isInEffect h (isInEffect_of_le hle (isInEffect_of_cancels h))

theorem le_cancelAlerts (clock : ℕ → ℤ) (self : CAlert) (n : ℕ) (m : AlertMap) :
    n ≤ (cancelAlerts clock self n m).1 := by
  induction m generalizing n with
  | nil => exact le_rfl
  | cons e m ih =>
    rw [cancelAlerts]
    split_ifs
    · exact (Nat.le_succ n).trans (ih (n + 1))
    · exact (Nat.le_add_right n 2).trans (ih (n + 2))
    · exact (Nat.le_add_right n 2).trans (ih (n + 2))

theorem mem_of_mem_cancelAlerts {self : CAlert} {n : ℕ} {m : AlertMap} {e : Uint256 × CAlert}
    (h : e ∈ (cancelAlerts clock self n m).2) : e ∈ m := by
  induction m generalizing n with
  | nil => exact h
  | cons e' m ih =>
    rw [cancelAlerts] at h
    split_ifs at h
    · exact List.mem_cons_of_mem e' (ih h)
    · exact List.mem_cons_of_mem e' (ih h)
    · rcases List.mem_cons.mp h with rfl | h
      · exact List.mem_cons_self
      · exact List.mem_cons_of_mem e' (ih h)

/-- The alerts that stay are not cancelled, now or later. -/
theorem not_cancels_of_mem_cancelAlerts {self : CAlert} {n : ℕ} {m : AlertMap} {nTime : ℤ}
    (hafter : ∀ k < (cancelAlerts clock self n m).1, clock k ≤ nTime) {e : Uint256 × CAlert}
    (h : e ∈ (cancelAlerts clock self n m).2) : self.cancels nTime e.2 = false := by
  induction m generalizing n with
  | nil => cases h
  | cons e' m ih =>
    rw [cancelAlerts] at h hafter
    split_ifs at h hafter with hcancels hexpired
    · exact ih hafter h
    · exact ih hafter h
    · rcases List.mem_cons.mp h with rfl | h
      · by_contra hlater
        have hn : n < (cancelAlerts clock self (n + 2) m).1 :=
          Nat.lt_of_lt_of_le (by omega) (le_cancelAlerts clock self (n + 2) m)
        exact hcancels (CAlert.cancels_of_le (hafter n hn) (by simpa using hlater))
      · exact ih hafter h

/-- An alert that is taken out has expired or was cancelled. -/
theorem exists_cancels_of_notMem_cancelAlerts {self : CAlert} {n : ℕ} {m : AlertMap} {nTime : ℤ}
    (hafter : ∀ k < (cancelAlerts clock self n m).1, clock k ≤ nTime) {e : Uint256 × CAlert}
    (hmem : e ∈ m) (h : e ∉ (cancelAlerts clock self n m).2) (heffect : e.2.isInEffect nTime = true) :
    ∃ k < (cancelAlerts clock self n m).1, self.cancels (clock k) e.2 = true := by
  induction m generalizing n with
  | nil => cases hmem
  | cons e' m ih =>
    have hread : ∀ d, n + d ≤ (cancelAlerts clock self (n + d) m).1 := fun d => le_cancelAlerts _ _ _ _
    rw [cancelAlerts] at h hafter ⊢
    split_ifs at h hafter ⊢ with hcancels hexpired
    · rcases List.mem_cons.mp hmem with rfl | hmem
      · exact ⟨n, Nat.lt_of_lt_of_le (Nat.lt_succ_self n) (hread 1), hcancels⟩
      · exact ih hafter hmem h
    · rcases List.mem_cons.mp hmem with rfl | hmem
      · have hle := hafter (n + 1) (Nat.lt_of_lt_of_le (by omega) (hread 2))
        simp [CAlert.isInEffect_of_le hle heffect] at hexpired
      · exact ih hafter hmem h
    · obtain ⟨hne, hrest⟩ := not_or.mp (mt List.mem_cons.mpr h)
      exact ih hafter (List.mem_of_ne_of_mem hne hmem) hrest

theorem le_isCancelled (clock : ℕ → ℤ) (self : CAlert) (n : ℕ) (m : AlertMap) :
    n ≤ (isCancelled clock self n m).1 := by
  induction m generalizing n with
  | nil => exact le_rfl
  | cons e m ih =>
    rw [isCancelled]
    split_ifs
    · exact Nat.le_succ n
    · exact (Nat.le_succ n).trans (ih (n + 1))

/-- A new alert is found to be cancelled by an alert of the map. -/
theorem exists_of_isCancelled {self : CAlert} {n : ℕ} {m : AlertMap}
    (h : (isCancelled clock self n m).2 = true) :
    ∃ e ∈ m, ∃ k < (isCancelled clock self n m).1, e.2.cancels (clock k) self = true := by
  induction m generalizing n with
  | nil => cases h
  | cons e m ih =>
    rw [isCancelled] at h ⊢
    split_ifs at h ⊢ with hcancels
    · exact ⟨e, List.mem_cons_self, n, Nat.lt_succ_self n, hcancels⟩
    · obtain ⟨e', he', hread⟩ := ih h
      exact ⟨e', List.mem_cons_of_mem e he', hread⟩

/-- A new alert that is not found to be cancelled is not cancelled later. -/
theorem not_cancels_of_not_isCancelled {self : CAlert} {n : ℕ} {m : AlertMap} {nTime : ℤ}
    (hafter : ∀ k < (isCancelled clock self n m).1, clock k ≤ nTime)
    (h : (isCancelled clock self n m).2 = false) {e : Uint256 × CAlert} (hmem : e ∈ m) :
    e.2.cancels nTime self = false := by
  induction m generalizing n with
  | nil => cases hmem
  | cons e' m ih =>
    rw [isCancelled] at h hafter
    split_ifs at h hafter with hcancels
    rcases List.mem_cons.mp hmem with rfl | hmem
    · by_contra hlater
      have hn : n < (isCancelled clock self (n + 1) m).1 :=
        Nat.lt_of_lt_of_le (Nat.lt_succ_self n) (le_isCancelled clock self (n + 1) m)
      exact hcancels (CAlert.cancels_of_le (hafter n hn) (by simpa using hlater))
    · exact ih hafter h hmem

theorem mem_insertAlert {hash : Uint256} {alert : CAlert} {m : AlertMap} {e : Uint256 × CAlert}
    (h : e ∈ m.insertAlert hash alert) : e = (hash, alert) ∨ e ∈ m := by
  induction m with
  | nil => exact .inl (List.mem_singleton.mp h)
  | cons e' m ih =>
    rw [AlertMap.insertAlert] at h
    split_ifs at h
    · exact List.mem_cons.mp h
    · exact .inr h
    · rcases List.mem_cons.mp h with rfl | h
      · exact .inr List.mem_cons_self
      · exact (ih h).imp_right (List.mem_cons_of_mem e')

theorem mem_insertAlert_of_mem {hash : Uint256} {alert : CAlert} {m : AlertMap}
    {e : Uint256 × CAlert} (h : e ∈ m) : e ∈ m.insertAlert hash alert := by
  induction m with
  | nil => cases h
  | cons e' m ih =>
    rw [AlertMap.insertAlert]
    split_ifs
    · exact List.mem_cons_of_mem _ h
    · exact h
    · rcases List.mem_cons.mp h with rfl | h
      · exact List.mem_cons_self
      · exact List.mem_cons_of_mem e' (ih h)

/-- The key of the alert that is inserted is in the map. -/
theorem exists_mem_insertAlert (hash : Uint256) (alert : CAlert) (m : AlertMap) :
    ∃ e ∈ m.insertAlert hash alert, e.1 = hash := by
  induction m with
  | nil => exact ⟨(hash, alert), List.mem_singleton_self _, rfl⟩
  | cons e m ih =>
    rw [AlertMap.insertAlert]
    split_ifs with hlt heq
    · exact ⟨(hash, alert), List.mem_cons_self, rfl⟩
    · exact ⟨e, List.mem_cons_self, heq.symm⟩
    · obtain ⟨e', he', hkey⟩ := ih
      exact ⟨e', List.mem_cons_of_mem e he', hkey⟩

/-! ## Runs -/

/-- A time that is not before any reading of the clock so far. -/
def AlertNode.After (clock : ℕ → ℤ) (s : AlertNode) (nTime : ℤ) : Prop :=
  ∀ k < s.nReadings, clock k ≤ nTime

/-- No alert in the map is cancelled by another one in it, and a received alert that is in effect is
in the map unless another received alert cancels it. -/
structure AlertNode.Settled (clock : ℕ → ℤ) (A : AlertParams) (s : AlertNode) (nTime : ℤ) : Prop where
  uncancelled : ∀ e ∈ s.mapAlerts, ∀ e' ∈ s.mapAlerts, e ≠ e' → e.2.cancels nTime e'.2 = false
  kept : ∀ alert ∈ s.received, alert.isInEffect nTime = true →
    (alert.getHash A, alert) ∈ s.mapAlerts ∨
      ∃ canceller ∈ s.received, canceller ≠ alert ∧
        ∃ k < s.nReadings, canceller.cancels (clock k) alert = true

/-- The received alerts have different hashes. -/
def AlertNode.Distinct (A : AlertParams) (s : AlertNode) : Prop :=
  ∀ alert ∈ s.received, ∀ alert' ∈ s.received, alert.getHash A = alert'.getHash A → alert = alert'

/-- What every step keeps: the entries are received alerts under their hashes, and the map is
settled at every later time. -/
structure AlertNode.Invariant (clock : ℕ → ℤ) (A : AlertParams) (s : AlertNode) : Prop where
  keyed : ∀ e ∈ s.mapAlerts, e.1 = e.2.getHash A ∧ e.2 ∈ s.received
  settled : s.Distinct A → ∀ nTime, s.After clock nTime → s.Settled clock A nTime

/-- The alerts that were received before have different hashes, too. -/
theorem AlertNode.Distinct.of_cons {s s' : AlertNode} {alert : CAlert}
    (h : s'.Distinct A) (hreceived : s'.received = alert :: s.received) : s.Distinct A := by
  intro a ha a' ha'
  apply h <;> rw [hreceived]
  · exact List.mem_cons_of_mem alert ha
  · exact List.mem_cons_of_mem alert ha'

/-- A received alert that has expired changes no more than the list of the received ones. -/
theorem AlertNode.Invariant.expired {s : AlertNode} (h : s.Invariant clock A) {alert : CAlert}
    (hexpired : alert.isInEffect (clock s.nReadings) = false) :
    AlertNode.Invariant clock A ⟨s.mapAlerts, s.nReadings + 1, alert :: s.received⟩ where
  keyed e he := (h.keyed e he).imp_right (List.mem_cons_of_mem alert)
  settled := by
    intro hdistinct nTime hafter
    have hsettled := h.settled (hdistinct.of_cons rfl) nTime fun k hk => hafter k (Nat.lt_succ_of_lt hk)
    refine ⟨hsettled.uncancelled, fun a ha heffect => ?_⟩
    rcases List.mem_cons.mp ha with rfl | ha
    · have hle := hafter s.nReadings (Nat.lt_succ_self _)
      rw [CAlert.isInEffect_of_le hle heffect] at hexpired
      cases hexpired
    · rcases hsettled.kept a ha heffect with hmem | ⟨canceller, hreceived, hne, k, hk, hcancels⟩
      · exact .inl hmem
      · exact .inr ⟨canceller, List.mem_cons_of_mem alert hreceived, hne, k, Nat.lt_succ_of_lt hk,
          hcancels⟩

/-- What the two loops do for an alert that is in effect: what they leave of the map, whether the
alert is cancelled, and the number of the next reading of the clock. -/
structure AlertNode.Processed (clock : ℕ → ℤ) (s : AlertNode) (alert : CAlert) (rest : AlertMap)
    (cancelled : Bool) (n : ℕ) : Prop where
  later : s.nReadings ≤ n
  old : ∀ e ∈ rest, e ∈ s.mapAlerts
  spared : ∀ nTime, (∀ k < n, clock k ≤ nTime) → ∀ e ∈ rest, alert.cancels nTime e.2 = false
  gone : ∀ nTime, (∀ k < n, clock k ≤ nTime) → ∀ e ∈ s.mapAlerts, e ∉ rest →
    e.2.isInEffect nTime = true → ∃ k < n, alert.cancels (clock k) e.2 = true
  refused : cancelled = true → ∃ e ∈ rest, ∃ k < n, e.2.cancels (clock k) alert = true
  accepted : cancelled = false → ∀ nTime, (∀ k < n, clock k ≤ nTime) →
    ∀ e ∈ rest, e.2.cancels nTime alert = false

theorem processed_loops (s : AlertNode) (alert : CAlert) {rest : ℕ × AlertMap}
    (hrest : cancelAlerts clock alert (s.nReadings + 1) s.mapAlerts = rest) {cancelled : ℕ × Bool}
    (hcancelled : isCancelled clock alert rest.1 rest.2 = cancelled) :
    s.Processed clock alert rest.2 cancelled.2 cancelled.1 := by
  subst hrest hcancelled
  have hfirst := le_cancelAlerts clock alert (s.nReadings + 1) s.mapAlerts
  have hsecond := le_isCancelled clock alert
    (cancelAlerts clock alert (s.nReadings + 1) s.mapAlerts).1
    (cancelAlerts clock alert (s.nReadings + 1) s.mapAlerts).2
  constructor
  case later => exact (Nat.le_succ _).trans (hfirst.trans hsecond)
  case old => exact fun e he => mem_of_mem_cancelAlerts he
  case spared =>
    intro nTime hafter e he
    exact not_cancels_of_mem_cancelAlerts (fun k hk => hafter k (hk.trans_le hsecond)) he
  case gone =>
    intro nTime hafter e he hgone heffect
    obtain ⟨k, hk, hcancels⟩ := exists_cancels_of_notMem_cancelAlerts
      (fun k hk => hafter k (hk.trans_le hsecond)) he hgone heffect
    exact ⟨k, hk.trans_le hsecond, hcancels⟩
  case refused => exact exists_of_isCancelled
  case accepted =>
    intro hflag nTime hafter e he
    exact not_cancels_of_not_isCancelled hafter hflag he

/-- The map after the loops. -/
def AlertNode.settle (A : AlertParams) (s : AlertNode) (alert : CAlert) (rest : AlertMap)
    (cancelled : Bool) (n : ℕ) : AlertNode :=
  ⟨if cancelled then rest else rest.insertAlert (alert.getHash A) alert, n, alert :: s.received⟩

/-- The entries after the loops are the ones that were left, and the new one when it is not
cancelled. -/
theorem AlertNode.mem_settle {s : AlertNode} {alert : CAlert} {rest : AlertMap} {cancelled : Bool}
    {n : ℕ} {e : Uint256 × CAlert} (h : e ∈ (s.settle A alert rest cancelled n).mapAlerts) :
    e = (alert.getHash A, alert) ∧ cancelled = false ∨ e ∈ rest := by
  cases cancelled with
  | true => exact .inr h
  | false => exact (mem_insertAlert h).imp_left fun heq => ⟨heq, rfl⟩

theorem AlertNode.mem_settle_of_mem {s : AlertNode} {alert : CAlert} {rest : AlertMap}
    (cancelled : Bool) (n : ℕ) {e : Uint256 × CAlert} (h : e ∈ rest) :
    e ∈ (s.settle A alert rest cancelled n).mapAlerts := by
  cases cancelled with
  | true => exact h
  | false => exact mem_insertAlert_of_mem h

/-- What is in the map stays keyed. -/
theorem AlertNode.Processed.keyed {s : AlertNode} {alert : CAlert} {rest : AlertMap}
    {cancelled : Bool} {n : ℕ} (hp : s.Processed clock alert rest cancelled n)
    (h : s.Invariant clock A) (e : Uint256 × CAlert)
    (he : e ∈ (s.settle A alert rest cancelled n).mapAlerts) :
    e.1 = e.2.getHash A ∧ e.2 ∈ alert :: s.received := by
  rcases mem_settle he with ⟨rfl, _⟩ | hmem
  · exact ⟨rfl, List.mem_cons_self⟩
  · exact (h.keyed e (hp.old e hmem)).imp_right (List.mem_cons_of_mem alert)

/-- No entry cancels another one after the loops. -/
theorem AlertNode.Processed.uncancelled {s : AlertNode} {alert : CAlert} {rest : AlertMap}
    {cancelled : Bool} {n : ℕ} (hp : s.Processed clock alert rest cancelled n) {nTime : ℤ}
    (hsettled : s.Settled clock A nTime) (hafter : ∀ k < n, clock k ≤ nTime)
    (e : Uint256 × CAlert) (he : e ∈ (s.settle A alert rest cancelled n).mapAlerts)
    (e' : Uint256 × CAlert) (he' : e' ∈ (s.settle A alert rest cancelled n).mapAlerts)
    (hne : e ≠ e') : e.2.cancels nTime e'.2 = false := by
  rcases mem_settle he with ⟨rfl, hflag⟩ | hmem
  · rcases mem_settle he' with ⟨rfl, _⟩ | hmem'
    · exact absurd rfl hne
    · exact hp.spared nTime hafter e' hmem'
  · rcases mem_settle he' with ⟨rfl, hflag⟩ | hmem'
    · exact hp.accepted hflag nTime hafter e hmem
    · exact hsettled.uncancelled e (hp.old e hmem) e' (hp.old e' hmem') hne

/-- The new alert is in the map, or another one cancels it. -/
theorem AlertNode.Processed.kept_new {s : AlertNode} {alert : CAlert} {rest : AlertMap}
    {cancelled : Bool} {n : ℕ} (hp : s.Processed clock alert rest cancelled n)
    (h : s.Invariant clock A) (hdistinct : (s.settle A alert rest cancelled n).Distinct A)
    {nTime : ℤ} (hafter : ∀ k < n, clock k ≤ nTime) (heffect : alert.isInEffect nTime = true) :
    (alert.getHash A, alert) ∈ (s.settle A alert rest cancelled n).mapAlerts ∨
      ∃ canceller ∈ alert :: s.received, canceller ≠ alert ∧
        ∃ k < n, canceller.cancels (clock k) alert = true := by
  cases cancelled with
  | false =>
    -- an entry with this hash that was there already is the same alert
    obtain ⟨e, he, hkey⟩ := exists_mem_insertAlert (alert.getHash A) alert rest
    obtain ⟨hhash, hreceived⟩ := hp.keyed h e he
    have hsame : e.2 = alert := hdistinct _ hreceived _ List.mem_cons_self (hhash ▸ hkey)
    have hpair : e = (alert.getHash A, alert) := Prod.ext hkey hsame
    exact .inl (hpair ▸ he)
  | true =>
    obtain ⟨e, he, k, hk, hcancels⟩ := hp.refused rfl
    have hreceived := (hp.keyed h e (mem_settle_of_mem true n he)).2
    refine .inr ⟨e.2, hreceived, fun hself => ?_, k, hk, hcancels⟩
    -- an alert that cancels itself has taken itself out of the map
    have hlater := CAlert.cancels_of_isInEffect hcancels (hself ▸ heffect)
    have hnot := hp.spared nTime hafter e he
    rw [hself] at hlater hnot
    rw [hlater] at hnot
    cases hnot

/-- The invariant after the loops. -/
theorem AlertNode.Invariant.settle {s : AlertNode} (h : s.Invariant clock A) {alert : CAlert}
    {rest : AlertMap} {cancelled : Bool} {n : ℕ} (hp : s.Processed clock alert rest cancelled n) :
    (s.settle A alert rest cancelled n).Invariant clock A := by
  refine ⟨hp.keyed h, fun hdistinct nTime hafter => ?_⟩
  have hsettled := h.settled (hdistinct.of_cons rfl) nTime fun k hk =>
    hafter k (hk.trans_le hp.later)
  refine ⟨hp.uncancelled hsettled hafter, fun a ha heffect => ?_⟩
  by_cases heq : a = alert
  · exact heq ▸ hp.kept_new h hdistinct hafter (heq ▸ heffect)
  · rcases hsettled.kept a (List.mem_of_ne_of_mem heq ha) heffect with
      hmem | ⟨canceller, hreceived, hne, k, hk, hcancels⟩
    · by_cases hstays : (a.getHash A, a) ∈ rest
      · exact .inl (mem_settle_of_mem cancelled n hstays)
      · obtain ⟨k, hk, hcancels⟩ := hp.gone nTime hafter _ hmem hstays heffect
        exact .inr ⟨alert, List.mem_cons_self, Ne.symm heq, k, hk, hcancels⟩
    · exact .inr ⟨canceller, List.mem_cons_of_mem alert hreceived, hne, k,
        hk.trans_le hp.later, hcancels⟩

/-- Every message keeps the invariant. -/
theorem AlertNode.Invariant.next {s : AlertNode} (h : s.Invariant clock A) (msg : AlertMessage) :
    (s.next clock A msg).Invariant clock A := by
  rw [AlertNode.next]
  cases A.checkSignature msg.vchMsg msg.vchSig with
  | none => exact h
  | some alert =>
    show AlertNode.Invariant clock A (AlertNode.processAlert clock A _ alert)
    rw [processAlert]
    split_ifs with hexpired
    · exact h.expired (by simpa using hexpired)
    · exact h.settle (processed_loops s alert rfl rfl)

/-- **The alerts stay settled**: whatever correctly signed alerts are received in whatever order, no
alert of the map is cancelled by another one in it, and a received alert that is in effect is
missing only when another received alert cancels it. -/
theorem alertsSettled_of_reachable {s : AlertNode} (h : Reachable (alertSystem clock A) s)
    (hdistinct : s.Distinct A) {nTime : ℤ} (hafter : s.After clock nTime) :
    s.Settled clock A nTime := by
  have hinvariant : s.Invariant clock A := by
    refine h.invariant (fun s hs => ?_) fun s msg hs _ _ => hs.next msg
    obtain ⟨hmap, hreceived⟩ := hs
    refine ⟨fun e he => ?_, fun _ nTime _ => ⟨fun e he => ?_, fun alert halert => ?_⟩⟩
    · rw [hmap] at he
      cases he
    · rw [hmap] at he
      cases he
    · rw [hreceived] at halert
      cases halert
  exact hinvariant.settled hdistinct nTime hafter

/-! ## A worked example -/

/-- The bytes of an alert with a number that cancels the numbers up to another one, and expires at
100. -/
def exampleAlert (nID nCancel : ℕ) : AlertMessage where
  vchMsg := leBytes 4 1 ++ leBytes 8 0 ++ leBytes 8 100 ++ leBytes 4 nID ++ leBytes 4 nCancel ++ [0] ++
    leBytes 4 0 ++ leBytes 4 0 ++ [0] ++ leBytes 4 0 ++ [0, 0, 0]
  vchSig := []

/-- Every signature is good, and the hash of an alert is the number of its bytes. -/
def exampleAlertParams : AlertParams where
  verify := fun _ _ => true
  serializeHash := fun vchMsg _ => ofLeBytes vchMsg

/-- A node that has received the alert 1, the alert 2, which cancels it, and the alert 1 again. -/
def repeatedAlert : AlertNode :=
  (alertSystem (fun _ => 10) exampleAlertParams).run ⟨[], 0, []⟩
    [exampleAlert 1 0, exampleAlert 2 1, exampleAlert 1 0]

/-- Only the alert 2 is kept, and nothing else is missing. -/
theorem alertsSettled_repeatedAlert : repeatedAlert.mapAlerts.map (fun e => e.2.nID) = [2] ∧
    repeatedAlert.Settled (fun _ => 10) exampleAlertParams 10 := by
  have hstart : Reachable (alertSystem (fun _ => 10) exampleAlertParams) ⟨[], 0, []⟩ :=
    .start ⟨rfl, rfl⟩
  have hdistinct : repeatedAlert.Distinct exampleAlertParams := by
    rw [AlertNode.Distinct]
    decide +kernel
  refine ⟨by decide +kernel, alertsSettled_of_reachable (hstart.run ?_) hdistinct fun _ _ => le_rfl⟩
  exact ⟨⟨trivial, trivial⟩, ⟨trivial, trivial⟩, ⟨trivial, trivial⟩, trivial⟩

end FoxCoin
