import FoxCoin.MruSet
import FoxCoin.RelayMemory

/-! # The relay of inventory

An item that is pushed to a peer waits in `vInventoryToSend` until `SendMessages` announces it, in
messages of at most 1000 items. Transactions are held back until it is the turn of the peer, apart
from those that a salted hash selects. What the peer announces, and what is announced to it, goes
into `setInventoryKnown`, which remembers the most recent items, and is not announced to it again
while it is remembered. -/

namespace FoxCoin

open Recent Runs

/-! ## Peers -/

/-- What a node keeps of a peer for the relay of inventory, and the `inv` messages that `SendMessages`
pushed to it. Next to them stand the items that were pushed, and those that became known with whether
the node announced them. -/
structure InvPeer where
  nVersion : ℤ
  nStartingHeight : ℤ
  setInventoryKnown : MruSet CInv
  vInventoryToSend : List CInv
  vSend : List (List CInv)
  pushed : List CInv
  known : List (CInv × Bool)

/-- `CNode::CNode`, with the limit `SendBufferSize() / 1000` for the known inventory. -/
def InvPeer.new (nMaxSize : ℕ) : InvPeer :=
  ⟨0, -1, (MruSet.new 0).maxSize nMaxSize, [], [], [], []⟩

/-- `setInventoryKnown.insert(inv)`, with whether the item is new. -/
def InvPeer.insertKnown (fSent : Bool) (p : InvPeer) (inv : CInv) : InvPeer × Bool :=
  let inserted := p.setInventoryKnown.insert inv
  ({ p with
      setInventoryKnown := inserted.1
      known := if inserted.2 then p.known ++ [(inv, fSent)] else p.known }, inserted.2)

/-- `CNode::AddInventoryKnown`. -/
def InvPeer.addInventoryKnown (p : InvPeer) (inv : CInv) : InvPeer := (p.insertKnown false inv).1

/-- `CNode::PushInventory`. -/
def InvPeer.pushInventory (p : InvPeer) (inv : CInv) : InvPeer :=
  let p := { p with pushed := p.pushed ++ [inv] }
  if inv ∈ p.setInventoryKnown.set then p
  else { p with vInventoryToSend := p.vInventoryToSend ++ [inv] }

/-- `PushMessage("inv", vInv)`. -/
def InvPeer.pushMessage (p : InvPeer) (vInv : List CInv) : InvPeer :=
  { p with vSend := p.vSend ++ [vInv] }

/-! ## Announcements -/

/-- `fTrickleWait` for an item: three in four transactions wait, by a hash of theirs with the salt,
which is drawn once. That `wtx.fFromMe` is never set by `GetTransaction` leaves it at that. -/
def trickleWait (hash32 : Uint256 → Uint256) (hashSalt : Uint256) (inv : CInv) : Bool :=
  decide (hash32 (inv.hash ^^^ hashSalt) &&& 3 ≠ 0)

/-- The loop of `SendMessages` over `vInventoryToSend`: the peer with `vInv` and `vInvWait`. -/
structure InvBatch extends InvPeer where
  vInv : List CInv
  vInvWait : List CInv

/-- A message goes out when it is full. -/
def InvBatch.flush (b : InvBatch) : InvBatch :=
  if 1000 ≤ b.vInv.length then { b with toInvPeer := b.toInvPeer.pushMessage b.vInv, vInv := [] }
  else b

/-- A round of the loop. -/
def InvBatch.round (fSendTrickle : Bool) (fTrickleWait : CInv → Bool) (b : InvBatch) (inv : CInv) :
    InvBatch :=
  if inv ∈ b.setInventoryKnown.set then b
  -- trickle out tx inv to protect privacy
  else if inv.type = msgTx ∧ fSendTrickle = false ∧ fTrickleWait inv = true then
    { b with vInvWait := b.vInvWait ++ [inv] }
  else
    let inserted := b.toInvPeer.insertKnown true inv
    if inserted.2 then InvBatch.flush { b with toInvPeer := inserted.1, vInv := b.vInv ++ [inv] }
    else { b with toInvPeer := inserted.1 }

/-- The inventory part of `SendMessages`. -/
def InvPeer.sendInventory (fSendTrickle : Bool) (fTrickleWait : CInv → Bool) (p : InvPeer) :
    InvPeer :=
  -- nothing is sent before the version message
  if p.nVersion = 0 then p
  else
    let b := p.vInventoryToSend.foldl (InvBatch.round fSendTrickle fTrickleWait) ⟨p, [], []⟩
    let p := { b.toInvPeer with vInventoryToSend := b.vInvWait }
    if b.vInv ≠ [] then p.pushMessage b.vInv else p

/-! ## The node -/

/-- `vNodes`. -/
abbrev InvNode := ℕ → Option InvPeer

/-- What concerns the relay: peers connect, with the limit of their known inventory, send their
version and go; an item is relayed to all of them, or a new block to those that are not far behind
it; a peer announces items in its messages, asks for the hashes of blocks, and is sent messages. -/
inductive InvEvent
  | connect (id nMaxSize : ℕ)
  | version (id : ℕ) (nVersion nStartingHeight : ℤ)
  | disconnect (id : ℕ)
  | relayInventory (inv : CInv)
  | acceptBlock (hash : Uint256) (nBestHeight nBlockEstimate : ℤ)
  | hear (id : ℕ) (vInv : List CInv)
  | getblocks (id : ℕ) (hashes : List Uint256)
  | sendMessages (id : ℕ) (fSendTrickle : Bool)

/-- The peers to which `AcceptBlock` relays a block that becomes the best one. -/
def InvPeer.relayBlock (hash : Uint256) (nBestHeight nBlockEstimate : ℤ) (p : InvPeer) : InvPeer :=
  if nBestHeight > if p.nStartingHeight ≠ -1 then p.nStartingHeight - 2000 else nBlockEstimate then
    p.pushInventory ⟨msgBlock, hash⟩
  else p

/-- A change of one peer. -/
def InvNode.modify (s : InvNode) (id : ℕ) (f : InvPeer → InvPeer) : InvNode :=
  Function.update s id ((s id).map f)

variable (hash32 : Uint256 → Uint256) (hashSalt : Uint256)

/-- The effect of an event. -/
def InvNode.next (s : InvNode) : InvEvent → InvNode
  | .connect id nMaxSize => Function.update s id (some (.new nMaxSize))
  | .version id nVersion nStartingHeight =>
    s.modify id fun p => { p with nVersion, nStartingHeight }
  | .disconnect id => Function.update s id none
  | .relayInventory inv => fun id => (s id).map (·.pushInventory inv)
  | .acceptBlock hash nBestHeight nBlockEstimate =>
    fun id => (s id).map (·.relayBlock hash nBestHeight nBlockEstimate)
  | .hear id vInv => s.modify id fun p => vInv.foldl InvPeer.addInventoryKnown p
  | .getblocks id hashes => s.modify id fun p =>
    (hashes.map fun hash => (⟨msgBlock, hash⟩ : CInv)).foldl InvPeer.pushInventory p
  | .sendMessages id fSendTrickle =>
    s.modify id (·.sendInventory fSendTrickle (trickleWait hash32 hashSalt))

/-- A node that starts without peers. -/
def invSystem : System InvNode InvEvent where
  start := fun s => s = fun _ => none
  legal := fun _ _ => True
  next := InvNode.next hash32 hashSalt

/-! ## What the relay keeps -/

/-- The items that became known, in order. -/
def InvPeer.knownItems (p : InvPeer) : List CInv := p.known.map Prod.fst

/-- What has been announced to a peer, or is about to be. -/
def InvPeer.announced (p : InvPeer) : List CInv := (p.known.filter Prod.snd).map Prod.fst

/-- The set of known items is the recent part of the log of what became known. -/
structure InvPeer.Remembers (p : InvPeer) : Prop where
  refines : ∃ r : RecentLog CInv, p.setInventoryKnown.Refines r ∧ r.log = p.knownItems ∧
    r.kept = if r.limit = 0 then r.log.length else min r.log.length r.limit
  spaced : ∀ n, (p.setInventoryKnown.nMaxSize ≠ 0 → n ≤ p.setInventoryKnown.nMaxSize) →
    Spaced n p.knownItems

/-- **Nothing is lost and nothing is repeated**: an item that was pushed waits or is known, the
messages hold what was announced, and as many items as the limit allows become known between two
announcements of an item. -/
structure InvPeer.Relayed (p : InvPeer) : Prop extends p.Remembers where
  kept : ∀ inv ∈ p.pushed, inv ∈ p.vInventoryToSend ∨ inv ∈ p.knownItems
  messages : p.vSend.flatten = p.announced
  sized : ∀ vInv ∈ p.vSend, vInv ≠ [] ∧ vInv.length ≤ 1000

variable {p : InvPeer} {b : InvBatch} {inv : CInv}

theorem InvPeer.remembers_new (nMaxSize : ℕ) : (InvPeer.new nMaxSize).Remembers where
  refines := by
    refine ⟨_, (MruSet.refines_new (T := CInv) 0).maxSize nMaxSize, rfl, ?_⟩
    simp [RecentLog.setLimit]
  spaced := fun _ _ => spaced_nil

theorem InvPeer.relayed_new (nMaxSize : ℕ) : (InvPeer.new nMaxSize).Relayed where
  toRemembers := remembers_new nMaxSize
  kept := fun _ h => absurd h List.not_mem_nil
  messages := rfl
  sized := fun _ h => absurd h List.not_mem_nil

/-- What is remembered is known. -/
theorem InvPeer.Remembers.mem_knownItems (h : p.Remembers) (hmem : inv ∈ p.setInventoryKnown.set) :
    inv ∈ p.knownItems := by
  obtain ⟨r, hr, hlog, -⟩ := h.refines
  rw [hr.mem_set, RecentLog.recent, hlog] at hmem
  exact (List.drop_sublist _ _).subset hmem

/-- **An insertion logs an item that is not remembered**, and leaves the rest of the peer alone. -/
theorem InvPeer.Remembers.insertKnown (h : p.Remembers) (fSent : Bool) (inv : CInv) :
    (p.insertKnown fSent inv).1.Remembers ∧
      ((p.insertKnown fSent inv).2 = true ↔ inv ∉ p.setInventoryKnown.set) ∧
      (p.insertKnown fSent inv).1.known =
        if inv ∈ p.setInventoryKnown.set then p.known else p.known ++ [(inv, fSent)] := by
  obtain ⟨r, hr, hlog, hkept⟩ := h.refines
  obtain ⟨hinsert, hnew⟩ := hr.insert inv
  have hlimit : (p.insertKnown fSent inv).1.setInventoryKnown.nMaxSize =
      p.setInventoryKnown.nMaxSize := by
    show (p.setInventoryKnown.insert inv).1.nMaxSize = _
    rw [hinsert.limit, hr.limit, RecentLog.insert]
    split_ifs <;> rfl
  rw [← hr.mem_set] at hnew
  by_cases hmem : inv ∈ p.setInventoryKnown.set
  · have hold : (p.setInventoryKnown.insert inv).2 = false := by simpa [hmem] using hnew
    have hsame : p.insertKnown fSent inv = (p, false) := by
      rw [InvPeer.insertKnown, MruSet.insert, if_pos hmem]
      rfl
    rw [hsame, if_pos hmem]
    exact ⟨h, by simp [hmem], rfl⟩
  · have hnot : inv ∉ r.recent := mt hr.mem_set.mpr hmem
    have hknown : (p.insertKnown fSent inv).1.known = p.known ++ [(inv, fSent)] := by
      show (if (p.setInventoryKnown.insert inv).2 = true then _ else _) = _
      rw [if_pos (hnew.mpr hmem)]
    have hitems : (p.insertKnown fSent inv).1.knownItems = p.knownItems ++ [inv] := by
      rw [InvPeer.knownItems, hknown, List.map_append]
      rfl
    refine ⟨⟨⟨_, hinsert, ?_, ?_⟩, fun n hn => ?_⟩, hnew, by rw [hknown, if_neg hmem]⟩
    · rw [RecentLog.insert_log, if_neg hnot, hlog, hitems]
    · rw [RecentLog.insert, if_neg hnot]
      simp only [List.length_append, List.length_singleton]
      rw [hkept]
      split_ifs <;> omega
    · rw [hlimit] at hn
      rw [hitems]
      refine (h.spaced n hn).append fun hlast => hnot ?_
      -- the last `n` entries are remembered, as the limit allows
      have hle : min n r.log.length ≤ r.kept := by
        rw [hr.limit] at hn
        rw [hkept]
        split_ifs with hzero
        · exact min_le_right _ _
        · have := hn hzero
          omega
      rw [RecentLog.recent, List.rtake]
      rw [← hlog, List.rtake] at hlast
      have hdrop : r.log.length - r.kept ≤ r.log.length - n := by omega
      have hsuffix : r.log.drop (r.log.length - n) <:+ r.log.drop (r.log.length - r.kept) :=
        List.drop_suffix_drop_left _ hdrop
      exact hsuffix.subset hlast

theorem InvPeer.Relayed.addInventoryKnown (h : p.Relayed) (inv : CInv) :
    (p.addInventoryKnown inv).Relayed := by
  obtain ⟨hrem, -, hknown⟩ := h.insertKnown false inv
  have hitems : ∀ inv' ∈ p.knownItems, inv' ∈ (p.addInventoryKnown inv).knownItems := by
    intro inv' hmem
    rw [knownItems, InvPeer.addInventoryKnown, hknown]
    split_ifs
    · exact hmem
    · rw [List.map_append]
      exact List.mem_append_left _ hmem
  refine ⟨hrem, fun inv' hpushed => ?_, ?_, h.sized⟩
  · exact (h.kept inv' hpushed).imp_right (hitems inv')
  · -- what is heard of is not announced
    show p.vSend.flatten = _
    rw [h.messages, announced, announced, InvPeer.addInventoryKnown, hknown]
    split_ifs
    · rfl
    · simp

theorem InvPeer.Relayed.pushInventory (h : p.Relayed) (inv : CInv) :
    (p.pushInventory inv).Relayed := by
  rw [InvPeer.pushInventory]
  dsimp only
  split_ifs with hmem
  · refine ⟨⟨h.refines, h.spaced⟩, fun inv' hpushed => ?_, h.messages, h.sized⟩
    rcases List.mem_append.mp hpushed with hpushed | hpushed
    · exact h.kept inv' hpushed
    · obtain rfl := List.mem_singleton.mp hpushed
      exact .inr (h.mem_knownItems hmem)
  · refine ⟨⟨h.refines, h.spaced⟩, fun inv' hpushed => ?_, h.messages, h.sized⟩
    rcases List.mem_append.mp hpushed with hpushed | hpushed
    · exact (h.kept inv' hpushed).imp_left (List.mem_append_left _)
    · exact .inl (List.mem_append_right _ hpushed)

/-! ## Sending -/

/-- The loop of `SendMessages` before the items `rest` of the queue: what was pushed is still to come,
waits, or is known, and what was announced is in a message or in the one that is being filled. -/
structure InvBatch.Relayed (fSendTrickle : Bool) (fTrickleWait : CInv → Bool) (rest : List CInv)
    (b : InvBatch) : Prop extends b.toInvPeer.Remembers where
  kept : ∀ inv ∈ b.pushed, inv ∈ rest ∨ inv ∈ b.vInvWait ∨ inv ∈ b.knownItems
  messages : b.vSend.flatten ++ b.vInv = b.announced
  sized : ∀ vInv ∈ b.vSend, vInv ≠ [] ∧ vInv.length ≤ 1000
  room : b.vInv.length < 1000
  waits : ∀ inv ∈ b.vInvWait, inv.type = msgTx ∧ fSendTrickle = false ∧ fTrickleWait inv = true

variable {fSendTrickle : Bool} {fTrickleWait : CInv → Bool} {rest : List CInv}

/-- **A round of the loop.** -/
theorem InvBatch.Relayed.round (h : b.Relayed fSendTrickle fTrickleWait (inv :: rest)) :
    (b.round fSendTrickle fTrickleWait inv).Relayed fSendTrickle fTrickleWait rest := by
  rw [InvBatch.round]
  split_ifs with hmem hwait
  · refine ⟨h.toRemembers, fun inv' hpushed => ?_, h.messages, h.sized, h.room, h.waits⟩
    rcases h.kept inv' hpushed with hrest | hkept
    · rcases List.mem_cons.mp hrest with rfl | hrest
      · exact .inr (.inr (h.mem_knownItems hmem))
      · exact .inl hrest
    · exact .inr hkept
  · refine ⟨h.toRemembers, fun inv' hpushed => ?_, h.messages, h.sized, h.room, fun inv' hin => ?_⟩
    · rcases h.kept inv' hpushed with hrest | hin | hknown
      · rcases List.mem_cons.mp hrest with rfl | hrest
        · exact .inr (.inl (List.mem_append_right _ List.mem_cons_self))
        · exact .inl hrest
      · exact .inr (.inl (List.mem_append_left _ hin))
      · exact .inr (.inr hknown)
    · rcases List.mem_append.mp hin with hin | hin
      · exact h.waits inv' hin
      · obtain rfl := List.mem_singleton.mp hin
        exact hwait
  · -- the item is new, as it is not remembered
    obtain ⟨hrem, hnew, hknown⟩ := h.insertKnown true inv
    rw [if_neg hmem] at hknown
    dsimp only
    rw [if_pos (hnew.mpr hmem)]
    have hkept : ∀ inv' ∈ b.pushed, inv' ∈ rest ∨ inv' ∈ b.vInvWait ∨
        inv' ∈ (b.toInvPeer.insertKnown true inv).1.knownItems := by
      intro inv' hpushed
      rw [InvPeer.knownItems, hknown, List.map_append]
      rcases h.kept inv' hpushed with hrest | hin | hold
      · rcases List.mem_cons.mp hrest with rfl | hrest
        · exact .inr (.inr (List.mem_append_right _ List.mem_cons_self))
        · exact .inl hrest
      · exact .inr (.inl hin)
      · exact .inr (.inr (List.mem_append_left _ hold))
    have hannounced : (b.toInvPeer.insertKnown true inv).1.announced =
        b.vSend.flatten ++ (b.vInv ++ [inv]) := by
      rw [InvPeer.announced, hknown, ← List.append_assoc, h.messages]
      simp [InvPeer.announced]
    have hroom := h.room
    rw [InvBatch.flush]
    split_ifs with hfull
    · refine ⟨⟨hrem.refines, hrem.spaced⟩, hkept, ?_, fun vInv hsent => ?_, by simp, h.waits⟩
      · refine Eq.trans ?_ hannounced.symm
        show (b.vSend ++ [b.vInv ++ [inv]]).flatten ++ [] = _
        simp
      · rcases List.mem_append.mp hsent with hsent | hsent
        · exact h.sized vInv hsent
        · obtain rfl := List.mem_singleton.mp hsent
          refine ⟨by simp, ?_⟩
          rw [List.length_append, List.length_singleton]
          omega
    · exact ⟨hrem, hkept, hannounced.symm, h.sized, not_le.mp hfull, h.waits⟩

/-- **The loop**, over the whole queue. -/
theorem InvBatch.Relayed.rounds (h : b.Relayed fSendTrickle fTrickleWait rest) :
    (rest.foldl (InvBatch.round fSendTrickle fTrickleWait) b).Relayed fSendTrickle fTrickleWait
      [] := by
  induction rest generalizing b with
  | nil => exact h
  | cons inv rest ih => exact ih h.round

variable (fSendTrickle fTrickleWait) in
/-- **A call of `SendMessages`** keeps what the relay keeps, and leaves nothing but transactions that
wait. -/
theorem InvPeer.Relayed.sendInventory (h : p.Relayed) :
    (p.sendInventory fSendTrickle fTrickleWait).Relayed ∧
      (p.nVersion ≠ 0 → ∀ inv ∈ (p.sendInventory fSendTrickle fTrickleWait).vInventoryToSend,
        inv.type = msgTx ∧ fSendTrickle = false ∧ fTrickleWait inv = true) := by
  rw [InvPeer.sendInventory]
  split_ifs with hversion
  · exact ⟨h, fun hne => absurd hversion hne⟩
  have hstart : InvBatch.Relayed fSendTrickle fTrickleWait p.vInventoryToSend ⟨p, [], []⟩ :=
    ⟨h.toRemembers, fun inv hpushed => (h.kept inv hpushed).imp_right .inr,
      (List.append_nil _).trans h.messages, h.sized, by simp, fun _ hin => absurd hin
      List.not_mem_nil⟩
  have hend := hstart.rounds
  have hkept := hend.kept
  simp only [List.not_mem_nil, false_or] at hkept
  dsimp only
  split_ifs with hempty
  · -- the last message is not full
    refine ⟨⟨⟨hend.refines, hend.spaced⟩, hkept, ?_, fun vInv hsent => ?_⟩, fun _ => hend.waits⟩
    · refine Eq.trans ?_ hend.messages
      rw [InvPeer.pushMessage, List.flatten_append]
      simp
    · rcases List.mem_append.mp hsent with hsent | hsent
      · exact hend.sized vInv hsent
      · obtain rfl := List.mem_singleton.mp hsent
        exact ⟨hempty, hend.room.le⟩
  · refine ⟨⟨⟨hend.refines, hend.spaced⟩, hkept, ?_, hend.sized⟩, fun _ => hend.waits⟩
    have hmessages := hend.messages
    rwa [not_not.mp hempty, List.append_nil] at hmessages

/-! ## Runs -/

/-- The items of a list are pushed one after the other. -/
theorem InvPeer.Relayed.pushAll (h : p.Relayed) (vInv : List CInv) :
    (vInv.foldl InvPeer.pushInventory p).Relayed := by
  induction vInv generalizing p with
  | nil => exact h
  | cons inv vInv ih => exact ih (h.pushInventory inv)

/-- The items of a list are heard of one after the other. -/
theorem InvPeer.Relayed.hearAll (h : p.Relayed) (vInv : List CInv) :
    (vInv.foldl InvPeer.addInventoryKnown p).Relayed := by
  induction vInv generalizing p with
  | nil => exact h
  | cons inv vInv ih => exact ih (h.addInventoryKnown inv)

/-- Every peer of a node has what the relay keeps. -/
def InvNode.Relayed (s : InvNode) : Prop := ∀ id p, s id = some p → p.Relayed

theorem InvNode.Relayed.update {s : InvNode} (h : s.Relayed) {id : ℕ} {q : Option InvPeer}
    (hq : ∀ p, q = some p → p.Relayed) : InvNode.Relayed (Function.update s id q) := by
  intro id' p hp
  by_cases heq : id' = id
  · subst heq
    rw [Function.update_self] at hp
    exact hq p hp
  · rw [Function.update_of_ne heq] at hp
    exact h id' p hp

/-- A change that keeps what the relay keeps may be made to one peer, or to all of them. -/
theorem InvNode.Relayed.modify {s : InvNode} (h : s.Relayed) (id : ℕ) {f : InvPeer → InvPeer}
    (hf : ∀ p, p.Relayed → (f p).Relayed) : (s.modify id f).Relayed := by
  refine h.update fun p hp => ?_
  obtain ⟨q, hq, rfl⟩ := Option.map_eq_some_iff.mp hp
  exact hf q (h id q hq)

theorem InvNode.Relayed.modifyAll {s : InvNode} (h : s.Relayed) {f : InvPeer → InvPeer}
    (hf : ∀ p, p.Relayed → (f p).Relayed) : InvNode.Relayed fun id => (s id).map f := by
  intro id p hp
  obtain ⟨q, hq, rfl⟩ := Option.map_eq_some_iff.mp hp
  exact hf q (h id q hq)

/-- **An event keeps what the relay keeps.** -/
theorem InvNode.Relayed.next {s : InvNode} (h : s.Relayed) (event : InvEvent) :
    (s.next hash32 hashSalt event).Relayed := by
  cases event with
  | connect id nMaxSize =>
    refine h.update fun p hp => ?_
    obtain rfl := Option.some.inj hp
    exact InvPeer.relayed_new nMaxSize
  | version id nVersion nStartingHeight =>
    exact h.modify id fun p hp => ⟨⟨hp.refines, hp.spaced⟩, hp.kept, hp.messages, hp.sized⟩
  | disconnect id => exact h.update fun p hp => by cases hp
  | relayInventory inv => exact h.modifyAll fun p hp => hp.pushInventory inv
  | acceptBlock hash nBestHeight nBlockEstimate =>
    refine h.modifyAll fun p hp => ?_
    unfold InvPeer.relayBlock
    split_ifs <;> first | exact hp.pushInventory _ | exact hp
  | hear id vInv => exact h.modify id fun p hp => hp.hearAll vInv
  | getblocks id hashes => exact h.modify id fun p hp => hp.pushAll _
  | sendMessages id fSendTrickle => exact h.modify id fun p hp => (hp.sendInventory _ _).1

theorem relayed_of_reaches {s : InvNode} (h : Reachable (invSystem hash32 hashSalt) s) :
    s.Relayed := by
  refine h.invariant (fun s hs => ?_) fun s event hs _ _ => hs.next hash32 hashSalt event
  subst hs
  intro id p hp
  cases hp

/-- The items that are pushed to a peer stay those that were pushed when messages are sent. -/
theorem InvPeer.pushed_sendInventory (p : InvPeer) :
    (p.sendInventory fSendTrickle fTrickleWait).pushed = p.pushed := by
  have hround : ∀ (b : InvBatch) inv,
      (b.round fSendTrickle fTrickleWait inv).pushed = b.pushed := by
    intro b inv
    rw [InvBatch.round]
    split_ifs
    · rfl
    · rfl
    · dsimp only
      split_ifs
      · rw [InvBatch.flush]
        split_ifs <;> rfl
      · rfl
  have hloop : ∀ (l : List CInv) (b : InvBatch),
      (l.foldl (InvBatch.round fSendTrickle fTrickleWait) b).pushed = b.pushed := by
    intro l
    induction l with
    | nil => exact fun _ => rfl
    | cons inv l ih => exact fun b => (ih _).trans (hround b inv)
  rw [InvPeer.sendInventory]
  split_ifs
  · rfl
  · dsimp only
    split_ifs
    · exact hloop _ _
    · exact hloop _ _

/-- A node that holds a transaction back until it is the turn of the peer. -/
def holdingNode : InvNode := (invSystem id 0).run (fun _ => none)
  [.connect 7 2, .version 7 60001 0, .relayInventory ⟨msgTx, 3⟩, .sendMessages 7 false]

end FoxCoin
