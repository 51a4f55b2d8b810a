import FoxCoin.RelayMemory

/-! # Asking for inventory

A node that hears of an item from several peers queues a request for each of them, every one two
minutes after the one before, by the times in `mapAlreadyAskedFor`. `SendMessages` sends the
requests of a peer that are due, and sets the time of the item back to the present while other
requests, which were counted from an earlier time, are still queued. -/

namespace FoxCoin

open Overlay Runs

/-! ## Queueing and sending requests -/

/-- Two minutes, in microseconds. -/
def retryTime : ℤ := 2 * 60 * 1000000

/-- `mapAlreadyAskedFor`, the last time that `AskFor` used, and `mapAskFor` of every peer. Next to
them stand the last reading of the clock, and for every item the times of its requests since it was
last received, the latest first. -/
structure AskNode where
  mapAlreadyAskedFor : StdMap CInv ℤ
  nLastTime : ℤ
  mapAskFor : ℕ → List (ℤ × CInv)
  nTime : ℤ
  asked : CInv → List ℤ

/-- `mapAlreadyAskedFor[inv]`. -/
def AskNode.alreadyAskedFor (s : AskNode) (inv : CInv) : ℤ := (s.mapAlreadyAskedFor.lookup inv).getD 0

/-- `multimap::insert`: after the entries with the same key. -/
def insertAskFor (nRequestTime : ℤ) (inv : CInv) : List (ℤ × CInv) → List (ℤ × CInv)
  | [] => [(nRequestTime, inv)]
  | e :: q =>
    if nRequestTime < e.1 then (nRequestTime, inv) :: e :: q else e :: insertAskFor nRequestTime inv q

/-- `CNode::AskFor`, at a reading of the clock. -/
def AskNode.askFor (peer : ℕ) (nTime : ℤ) (inv : CInv) (s : AskNode) : AskNode :=
  -- not to reuse time indexes keeps things in the same order
  let nNow := max ((nTime - 1) * 1000000) (s.nLastTime + 1)
  let nRequestTime := max (s.alreadyAskedFor inv + retryTime) nNow
  { s with
    mapAlreadyAskedFor := s.mapAlreadyAskedFor.insert inv nRequestTime
    nLastTime := nNow
    mapAskFor := Function.update s.mapAskFor peer (insertAskFor nRequestTime inv (s.mapAskFor peer))
    nTime := nTime }

/-- The loop of the `inv` message, which reads the clock for every item that it asks for. -/
def AskNode.askForAll (peer : ℕ) (fAlreadyHave : CInv → Bool) :
    List CInv → (ℕ → ℤ) → AskNode → AskNode
  | [], _, s => s
  | inv :: vInv, getTime, s =>
    askForAll peer fAlreadyHave vInv (fun i => getTime (i + 1))
      (if !fAlreadyHave inv then s.askFor peer (getTime 0) inv else s)

/-- One round of the loop over `mapAskFor` in `SendMessages`, for an entry before a rest. The
requests go into `getdata` messages of at most 1000. -/
def AskNode.sendRound (peer : ℕ) (nNow : ℤ) (fAlreadyHave : CInv → Bool) (inv : CInv)
    (q : List (ℤ × CInv)) (s : AskNode) : AskNode :=
  let s := { s with mapAskFor := Function.update s.mapAskFor peer q }
  if !fAlreadyHave inv then
    { s with
      mapAlreadyAskedFor := s.mapAlreadyAskedFor.insert inv nNow
      asked := Function.update s.asked inv (nNow :: s.asked inv) }
  else s

/-- The loop over `mapAskFor` in `SendMessages`. -/
def AskNode.sendLoop (peer : ℕ) (nNow : ℤ) (fAlreadyHave : CInv → Bool) :
    List (ℤ × CInv) → AskNode → AskNode
  | [], s => s
  | e :: q, s =>
    if e.1 ≤ nNow then sendLoop peer nNow fAlreadyHave q (s.sendRound peer nNow fAlreadyHave e.2 q)
    else s

/-! ## Runs -/

/-- What happens to the requests: an `inv` message, a call of `SendMessages` for a peer, the receipt
of an item, which takes it out of `mapAlreadyAskedFor` when it is accepted, and the end of a
connection. What the node has already is any predicate. -/
inductive AskEvent
  | inv (peer : ℕ) (vInv : List CInv) (fAlreadyHave : CInv → Bool) (getTime : ℕ → ℤ)
  | sendMessages (peer : ℕ) (fAlreadyHave : CInv → Bool) (nTime : ℤ)
  | receive (inv : CInv) (fAccepted : Bool)
  | disconnect (peer : ℕ)

/-- The effect of an event. -/
def AskNode.next (s : AskNode) : AskEvent → AskNode
  | .inv peer vInv fAlreadyHave getTime =>
    if 50000 < vInv.length then s else s.askForAll peer fAlreadyHave vInv getTime
  | .sendMessages peer fAlreadyHave nTime =>
    { s with nTime := nTime }.sendLoop peer (nTime * 1000000) fAlreadyHave (s.mapAskFor peer)
  | .receive inv fAccepted =>
    { s with
      mapAlreadyAskedFor :=
        if fAccepted then s.mapAlreadyAskedFor.erase inv else s.mapAlreadyAskedFor
      asked := Function.update s.asked inv [] }
  | .disconnect peer => { s with mapAskFor := Function.update s.mapAskFor peer [] }

/-- The clock does not go back. -/
def AskNode.Legal (s : AskNode) : AskEvent → Prop
  | .inv _ _ _ getTime => Monotone getTime ∧ s.nTime ≤ getTime 0
  | .sendMessages _ _ nTime => s.nTime ≤ nTime
  | .receive _ _ => True
  | .disconnect _ => True

/-- A node that starts without requests. -/
def askSystem : System AskNode AskEvent where
  start := fun s => s.mapAlreadyAskedFor = ∅ ∧ s.nLastTime = 0 ∧ (∀ peer, s.mapAskFor peer = []) ∧
    ∀ inv, s.asked inv = []
  legal := AskNode.Legal
  next := AskNode.next

/-- Any two requests for an item since it was last received are at least two minutes apart. -/
def AskNode.Apart (s : AskNode) : Prop :=
  ∀ inv, (s.asked inv).Pairwise fun later earlier => earlier + retryTime ≤ later

/-- Every other request for an item that is queued when the item is requested is due two minutes
later or after that. -/
def AskEvent.LeavesApart (s : AskNode) : AskEvent → Prop
  | .sendMessages peer fAlreadyHave nTime => ∀ before e rest,
      s.mapAskFor peer = before ++ e :: rest → e.1 ≤ nTime * 1000000 → fAlreadyHave e.2 = false →
      (∀ e' ∈ before ++ rest, e'.2 = e.2 → nTime * 1000000 + retryTime ≤ e'.1) ∧
        ∀ peer' ≠ peer, ∀ e' ∈ s.mapAskFor peer', e'.2 = e.2 → nTime * 1000000 + retryTime ≤ e'.1
  | _ => True

/-! ## The invariant -/

/-- What is asked for is counted from the last request: the time of an item is not before any
request for it, and the queued requests for it are two minutes after each. -/
structure AskNode.Counted (s : AskNode) : Prop where
  apart : s.Apart
  already : ∀ inv, ∀ t ∈ s.asked inv, t ≤ s.alreadyAskedFor inv
  queued : ∀ inv, ∀ t ∈ s.asked inv, ∀ peer, ∀ e ∈ s.mapAskFor peer, e.2 = inv → t + retryTime ≤ e.1

theorem mem_insertAskFor {nRequestTime : ℤ} {inv : CInv} {q : List (ℤ × CInv)} {e : ℤ × CInv}
    (h : e ∈ insertAskFor nRequestTime inv q) : e = (nRequestTime, inv) ∨ e ∈ q := by
  induction q with
  | nil => exact .inl (List.mem_singleton.mp h)
  | cons e' q ih =>
    rw [insertAskFor] at h
    split_ifs at h
    · exact List.mem_cons.mp h
    · rcases List.mem_cons.mp h with rfl | h
      · exact .inr List.mem_cons_self
      · exact (ih h).imp_right (List.mem_cons_of_mem e')

/-- A request that is queued is two minutes after the ones before it. -/
theorem AskNode.Counted.askFor {s : AskNode} (h : s.Counted) (peer : ℕ) (nTime : ℤ) (inv : CInv) :
    (s.askFor peer nTime inv).Counted where
  apart := h.apart
  already := by
    intro inv' t ht
    have hold := h.already inv' t ht
    show t ≤ ((s.mapAlreadyAskedFor.insert inv _).lookup inv').getD 0
    rw [lookup_insert_eq_ite]
    split_ifs with heq
    · subst heq
      have hretry : (0 : ℤ) ≤ retryTime := by decide
      rw [Option.getD_some]
      exact le_max_of_le_left (by omega)
    · exact hold
  queued := by
    intro inv' t ht peer' e he heq
    have hqueue : e ∈ Function.update s.mapAskFor peer _ peer' := he
    by_cases hpeer : peer' = peer
    · subst hpeer
      rw [Function.update_self] at hqueue
      rcases mem_insertAskFor hqueue with rfl | hmem
      · subst heq
        have hold := h.already _ t ht
        exact le_max_of_le_left (by simpa using hold)
      · exact h.queued inv' t ht _ e hmem heq
    · rw [Function.update_of_ne hpeer] at hqueue
      exact h.queued inv' t ht peer' e hqueue heq

theorem AskNode.Counted.askForAll {s : AskNode} (h : s.Counted) (peer : ℕ)
    (fAlreadyHave : CInv → Bool) (vInv : List CInv) (getTime : ℕ → ℤ) :
    (s.askForAll peer fAlreadyHave vInv getTime).Counted := by
  induction vInv generalizing s getTime with
  | nil => exact h
  | cons inv vInv ih =>
    rw [AskNode.askForAll]
    split_ifs
    · exact ih (h.askFor peer (getTime 0) inv) _
    · exact ih h _

/-- Taking requests out of the queues. -/
theorem AskNode.Counted.shrink {s : AskNode} (h : s.Counted) (peer : ℕ) {q : List (ℤ × CInv)}
    (hq : ∀ e ∈ q, e ∈ s.mapAskFor peer) :
    ({ s with mapAskFor := Function.update s.mapAskFor peer q } : AskNode).Counted where
  apart := h.apart
  already := h.already
  queued := by
    intro inv t ht peer' e he heq
    by_cases hpeer : peer' = peer
    · subst hpeer
      simp only [Function.update_self] at he
      exact h.queued inv t ht _ e (hq e he) heq
    · simp only [Function.update_of_ne hpeer] at he
      exact h.queued inv t ht peer' e he heq

/-- A request that is due is sent two minutes after the ones before it. -/
theorem AskNode.Counted.send {s : AskNode} (h : s.Counted) {nNow : ℤ} {inv : CInv}
    (hdue : ∀ t ∈ s.asked inv, t + retryTime ≤ nNow)
    (hleft : ∀ peer, ∀ e ∈ s.mapAskFor peer, e.2 = inv → nNow + retryTime ≤ e.1) :
    ({ s with
        mapAlreadyAskedFor := s.mapAlreadyAskedFor.insert inv nNow
        asked := Function.update s.asked inv (nNow :: s.asked inv) } : AskNode).Counted := by
  have hretry : (0 : ℤ) ≤ retryTime := by decide
  constructor
  · intro inv'
    show (Function.update s.asked inv (nNow :: s.asked inv) inv').Pairwise _
    by_cases heq : inv' = inv
    · subst heq
      rw [Function.update_self]
      exact List.pairwise_cons.mpr ⟨hdue, h.apart inv'⟩
    · rw [Function.update_of_ne heq]
      exact h.apart inv'
  · intro inv' t ht
    replace ht : t ∈ Function.update s.asked inv (nNow :: s.asked inv) inv' := ht
    show t ≤ ((s.mapAlreadyAskedFor.insert inv nNow).lookup inv').getD 0
    rw [lookup_insert_eq_ite]
    by_cases heq : inv' = inv
    · subst heq
      rw [Function.update_self] at ht
      rw [if_pos rfl, Option.getD_some]
      rcases List.mem_cons.mp ht with rfl | ht
      · exact le_rfl
      · have := hdue t ht
        omega
    · rw [Function.update_of_ne heq] at ht
      rw [if_neg heq]
      exact h.already inv' t ht
  · -- the queued requests for the item are due two minutes from now
    intro inv' t ht peer e he hitem
    replace ht : t ∈ Function.update s.asked inv (nNow :: s.asked inv) inv' := ht
    by_cases heq : inv' = inv
    · subst heq
      rw [Function.update_self] at ht
      rcases List.mem_cons.mp ht with rfl | ht
      · exact hleft peer e he hitem
      · exact h.queued inv' t ht peer e he hitem
    · rw [Function.update_of_ne heq] at ht
      exact h.queued inv' t ht peer e he hitem

/-- The loop sends every request two minutes after the ones before it, when the other queued
requests for its item are due two minutes later. -/
theorem AskNode.Counted.sendLoop {s : AskNode} (h : s.Counted) {peer : ℕ} {nNow : ℤ}
    {fAlreadyHave : CInv → Bool} {q : List (ℤ × CInv)} (hq : s.mapAskFor peer = q)
    (hleaves : ∀ before e rest, q = before ++ e :: rest → e.1 ≤ nNow → fAlreadyHave e.2 = false →
      (∀ e' ∈ before ++ rest, e'.2 = e.2 → nNow + retryTime ≤ e'.1) ∧
        ∀ peer' ≠ peer, ∀ e' ∈ s.mapAskFor peer', e'.2 = e.2 → nNow + retryTime ≤ e'.1) :
    (s.sendLoop peer nNow fAlreadyHave q).Counted := by
  induction q generalizing s with
  | nil => exact h
  | cons e q ih =>
    rw [AskNode.sendLoop]
    split_ifs with hdue
    · -- the request is taken off the queue, and sent unless the item is there
      have hshrink := h.shrink peer (q := q) fun e' he' => hq ▸ List.mem_cons_of_mem e he'
      have hrest : ∀ before e' rest, q = before ++ e' :: rest → e'.1 ≤ nNow →
          fAlreadyHave e'.2 = false →
          (∀ e'' ∈ before ++ rest, e''.2 = e'.2 → nNow + retryTime ≤ e''.1) ∧
            ∀ peer' ≠ peer, ∀ e'' ∈ s.mapAskFor peer', e''.2 = e'.2 → nNow + retryTime ≤ e''.1 := by
        intro before e' rest heq hdue' hnot
        have hall := hleaves (e :: before) e' rest (by rw [heq, List.cons_append]) hdue' hnot
        exact ⟨fun e'' he'' => hall.1 e'' (List.mem_cons_of_mem e he''), hall.2⟩
      have hround : (s.sendRound peer nNow fAlreadyHave e.2 q).Counted := by
        rw [AskNode.sendRound]
        split_ifs with hask
        · have hfirst := hleaves [] e q rfl hdue (by simpa using hask)
          refine hshrink.send (fun t ht => ?_) fun peer' e' he' heq => ?_
          · exact (h.queued e.2 t ht peer e (hq ▸ List.mem_cons_self) rfl).trans hdue
          · by_cases hpeer : peer' = peer
            · subst hpeer
              simp only [Function.update_self] at he'
              exact hfirst.1 e' he' heq
            · simp only [Function.update_of_ne hpeer] at he'
              exact hfirst.2 peer' hpeer e' he' heq
        · exact hshrink
      have hqueues : (s.sendRound peer nNow fAlreadyHave e.2 q).mapAskFor =
          Function.update s.mapAskFor peer q := by
        rw [AskNode.sendRound]
        split_ifs <;> rfl
      refine ih hround (by rw [hqueues, Function.update_self]) fun before e' rest heq hdue' hnot => ?_
      refine ⟨(hrest before e' rest heq hdue' hnot).1, fun peer' hpeer e'' he'' => ?_⟩
      rw [hqueues, Function.update_of_ne hpeer] at he''
      exact (hrest before e' rest heq hdue' hnot).2 peer' hpeer e'' he''
    · exact h

/-- The receipt of an item ends the time that its requests are counted for. -/
theorem AskNode.Counted.receive {s : AskNode} (h : s.Counted) (inv : CInv) (fAccepted : Bool) :
    (s.next (.receive inv fAccepted)).Counted := by
  have hold : ∀ inv' t, t ∈ Function.update s.asked inv [] inv' → inv' ≠ inv ∧ t ∈ s.asked inv' := by
    intro inv' t ht
    by_cases heq : inv' = inv
    · subst heq
      rw [Function.update_self] at ht
      cases ht
    · rw [Function.update_of_ne heq] at ht
      exact ⟨heq, ht⟩
  constructor
  · intro inv'
    show (Function.update s.asked inv [] inv').Pairwise _
    by_cases heq : inv' = inv
    · subst heq
      rw [Function.update_self]
      exact List.Pairwise.nil
    · rw [Function.update_of_ne heq]
      exact h.apart inv'
  · intro inv' t ht
    obtain ⟨hne, ht⟩ := hold inv' t ht
    show t ≤ ((if fAccepted then s.mapAlreadyAskedFor.erase inv
      else s.mapAlreadyAskedFor).lookup inv').getD 0
    split_ifs
    · rw [lookup_erase_eq_ite, if_neg hne]
      exact h.already inv' t ht
    · exact h.already inv' t ht
  · intro inv' t ht
    exact h.queued inv' t (hold inv' t ht).2

/-- **Requests for an item are two minutes apart**, in every run in which the other queued requests
for an item that is requested are due two minutes later. -/
theorem apart_of_reaches {s : AskNode}
    (h : Reaches askSystem (fun s event => event.LeavesApart s) s) : s.Apart := by
  have hcounted : s.Counted := by
    refine h.invariant (fun s hs => ?_) fun s event hs _ hleaves => ?_
    · obtain ⟨-, -, -, hasked⟩ := hs
      have hnone : ∀ inv t, t ∉ s.asked inv := fun inv t ht => by
        rw [hasked inv] at ht
        cases ht
      refine ⟨fun inv => ?_, fun inv t ht => absurd ht (hnone inv t),
        fun inv t ht => absurd ht (hnone inv t)⟩
      rw [hasked inv]
      exact List.Pairwise.nil
    · cases event with
      | inv peer vInv fAlreadyHave getTime =>
        show AskNode.Counted (if 50000 < vInv.length then s else _)
        split_ifs
        · exact hs
        · exact hs.askForAll peer fAlreadyHave vInv getTime
      | sendMessages peer fAlreadyHave nTime =>
        have hclock : ({ s with nTime := nTime } : AskNode).Counted := ⟨hs.apart, hs.already, hs.queued⟩
        exact hclock.sendLoop rfl hleaves
      | receive inv fAccepted => exact hs.receive inv fAccepted
      | disconnect peer => exact hs.shrink peer fun e he => by cases he
  exact hcounted.apart

/-! ## Worked examples -/

/-- A node without requests. -/
def freshAskNode : AskNode := ⟨∅, 0, fun _ => [], 0, fun _ => []⟩

/-- A peer announces the item. -/
def announce (peer : ℕ) (nTime : ℤ) : AskEvent :=
  .inv peer [exampleInv 7] (fun _ => false) fun _ => nTime

/-- The requests of a peer are sent. -/
def sendTo (peer : ℕ) (nTime : ℤ) : AskEvent := .sendMessages peer (fun _ => false) nTime

/-- A request that is the only one leaves the others apart. -/
theorem leavesApart_of_single {s : AskNode} {peer : ℕ} {e : ℤ × CInv} (nTime : ℤ)
    (hq : s.mapAskFor peer = [e]) (hothers : ∀ peer' ≠ peer, s.mapAskFor peer' = []) :
    (sendTo peer nTime).LeavesApart s := by
  intro before e' rest heq _ _
  rw [hq, List.cons_eq_append_iff] at heq
  have hnone : before ++ rest = [] := by
    rcases heq with ⟨rfl, hcons⟩ | ⟨before', rfl, hnil⟩
    · exact (List.cons.inj hcons).2
    · simp at hnil
  refine ⟨fun e'' he'' => ?_, fun peer' hpeer e'' he'' => ?_⟩
  · rw [hnone] at he''
    cases he''
  · rw [hothers peer' hpeer] at he''
    cases he''

/-- A second peer announces an item after it was requested, and is asked two minutes later. -/
theorem apart_askedAgain :
    (askSystem.run freshAskNode [announce 0 1000, sendTo 0 1000, announce 1 1050, sendTo 1 1120]).asked
        (exampleInv 7) = [1120000000, 1000000000] ∧
      (askSystem.run freshAskNode
        [announce 0 1000, sendTo 0 1000, announce 1 1050, sendTo 1 1120]).Apart := by
  have hstart : Reaches askSystem (fun s event => event.LeavesApart s) freshAskNode :=
    .start ⟨rfl, rfl, fun _ => rfl, fun _ => rfl⟩
  have hannounced := hstart.next (announce 0 1000) ⟨monotone_const, by decide⟩ trivial
  have hsent := hannounced.next (sendTo 0 1000) (show (1000 : ℤ) ≤ 1000 from le_rfl)
    (leavesApart_of_single (e := (999000000, exampleInv 7)) 1000 (by decide +kernel)
      fun peer' hpeer => Function.update_of_ne hpeer _ _)
  have hqueues : (askSystem.run freshAskNode [announce 0 1000, sendTo 0 1000]).mapAskFor =
      Function.update (askSystem.run freshAskNode [announce 0 1000]).mapAskFor 0 [] := by
    rfl
  have hagain := hsent.next (announce 1 1050) ⟨monotone_const, show (1000 : ℤ) ≤ 1050 by decide⟩ trivial
  refine ⟨by decide +kernel, apart_of_reaches (hagain.next (sendTo 1 1120)
    (show (1050 : ℤ) ≤ 1120 by decide) (leavesApart_of_single (e := (1120000000, exampleInv 7)) 1120
      (by decide +kernel) fun peer' hpeer => ?_))⟩
  -- the queue of the first peer is empty again, and those of other peers were never used
  refine (Function.update_of_ne hpeer _ _).trans ?_
  by_cases hfirst : peer' = 0
  · subst hfirst
    decide +kernel
  · exact (congrFun hqueues peer').trans ((Function.update_of_ne hfirst _ _).trans
      (Function.update_of_ne hfirst _ _))

/-- **Requests that are not apart**: two peers announce an item at the same time, and the second is
asked 119 seconds after the first. -/
theorem not_forall_apart : ¬∀ s, Reachable askSystem s → s.Apart := by
  intro hall
  have hstart : Reachable askSystem freshAskNode := .start ⟨rfl, rfl, fun _ => rfl, fun _ => rfl⟩
  have hfirst := hstart.next (announce 0 1000) ⟨monotone_const, by decide⟩ trivial
  have hsecond := hfirst.next (announce 1 1000) ⟨monotone_const, show (1000 : ℤ) ≤ 1000 from le_rfl⟩
    trivial
  have hsent := hsecond.next (sendTo 0 1000) (show (1000 : ℤ) ≤ 1000 from le_rfl) trivial
  have hagain := hsent.next (sendTo 1 1119) (show (1000 : ℤ) ≤ 1119 by decide) trivial
  have hasked : (askSystem.run freshAskNode
      [announce 0 1000, announce 1 1000, sendTo 0 1000, sendTo 1 1119]).asked (exampleInv 7) =
        [1119000000, 1000000000] := by decide +kernel
  have hapart := hall _ hagain (exampleInv 7)
  have hpair : (1119000000 : ℤ) ≥ 1000000000 + retryTime :=
    (List.pairwise_cons.mp (hasked ▸ hapart)).1 1000000000 (List.mem_singleton_self _)
  exact absurd hpair (by decide)

end FoxCoin
