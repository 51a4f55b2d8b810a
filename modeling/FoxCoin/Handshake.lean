import FoxCoin.Alerts
import FoxCoin.CString
import FoxCoin.Lib.InStep

/-! # The version handshake

Two nodes that have just connected tell each other their protocol versions. A message is written
under the version of the stream of its writer and read under the version of the stream of its
reader. Each side changes the version of `vSend` when it has sent its `verack` and that of `vRecv`
when a `verack` arrives, at times of its own, while alerts and other messages are on their way in
both directions. -/

namespace FoxCoin.Handshake

open Runs InStep

/-! ## The two sides -/

def MIN_PROTO_VERSION : ℤ := 209
def CADDR_TIME_VERSION : ℤ := 31402
def NOBLKS_VERSION_START : ℤ := 32000
def NOBLKS_VERSION_END : ℤ := 32400
def NODE_NETWORK : ℕ := 1

/-- The side that made the connection and the side that accepted it. -/
inductive Side
  | outbound
  | inbound
  deriving DecidableEq

def Side.other : Side → Side
  | outbound => inbound
  | inbound => outbound

/-- A message. -/
inductive Message
  | version (nVersion : ℤ) (nServices nNonce : ℕ) (strSubVer : StdString) (nStartingHeight : ℤ)
  | verack
  | alert (alert : CAlert)
  | other (strCommand : StdString) (vch : List UInt8)
  deriving DecidableEq

/-- A message in `vSend`, with the version of the stream it was written under. -/
structure Written where
  nVersion : ℤ
  msg : Message

/-- What the program of a side fixes. -/
structure Build where
  PROTOCOL_VERSION : ℤ
  nLocalServices : ℕ
  strSubVer : StdString
  banscore : ℤ

/-- `CNode`: what one side keeps about the other. `nLocalHostNonce` is the variable of the program.
`vSend` holds what the other side has not read yet. The last three fields record all that was
pushed, what was processed after the version message, and the misbehavior that commands after the
handshake reported. -/
structure CNode where
  fInbound : Bool
  fLocal : Bool
  nLocalHostNonce : ℕ
  nVersion : ℤ
  nServices : ℕ
  strSubVer : StdString
  nStartingHeight : ℤ
  vSendVersion : ℤ
  vRecvVersion : ℤ
  fClient : Bool
  fGetAddr : Bool
  fSuccessfullyConnected : Bool
  fDisconnect : Bool
  fClosed : Bool
  nMisbehavior : ℤ
  setKnown : Finset Uint256
  vSend : List Written
  pushed : List Written
  processed : List Message
  nReported : ℤ

/-- What a side finds in its surroundings when it processes a message: the bytes that `RAND_bytes`
gives, the height of its chain, `addrman.size()`, `nAskedForBlocks`, `vNodes.size()`, whether the
node is one shot, `mapAlerts`, the number of the first reading of the clock, the locator of the best
chain, the result of `ProcessAlert`, what the handler of another command pushes and reports, and
what bytes would give that are read under another version than they were written under. -/
structure Surroundings where
  nonce : ℕ
  nBestHeight : ℤ
  addrmanSize : ℕ
  nAskedForBlocks : ℕ
  vNodesSize : ℕ
  fOneShot : Bool
  mapAlerts : AlertMap
  nReading : ℕ
  vchLocator : List UInt8
  fProcessAlert : Bool
  replies : List (StdString × List UInt8)
  nDoS : ℤ
  garbled : Message

/-! ## The operations of a node -/

namespace CNode

/-- The members that the constructor of `CNode` sets, before it calls `PushVersion`. -/
def init (fInbound fLocal : Bool) (nLocalHostNonce : ℕ) : CNode where
  fInbound := fInbound
  fLocal := fLocal
  nLocalHostNonce := nLocalHostNonce
  nVersion := 0
  nServices := 0
  strSubVer := []
  nStartingHeight := -1
  vSendVersion := MIN_PROTO_VERSION
  vRecvVersion := MIN_PROTO_VERSION
  fClient := false
  fGetAddr := false
  fSuccessfullyConnected := false
  fDisconnect := false
  fClosed := false
  nMisbehavior := 0
  setKnown := ∅
  vSend := []
  pushed := []
  processed := []
  nReported := 0

/-- `CNode::PushMessage`. -/
def pushMessage (p : CNode) (msg : Message) : CNode :=
  { p with
    vSend := p.vSend ++ [⟨p.vSendVersion, msg⟩]
    pushed := p.pushed ++ [⟨p.vSendVersion, msg⟩] }

/-- `CNode::CloseSocketDisconnect`. -/
def closeSocketDisconnect (p : CNode) : CNode := { p with fDisconnect := true, fClosed := true }

variable (B : Build)

/-- `CNode::PushVersion`. -/
def pushVersion (p : CNode) (nonce : ℕ) (nBestHeight : ℤ) : CNode :=
  { p with nLocalHostNonce := nonce }.pushMessage
    (.version B.PROTOCOL_VERSION B.nLocalServices nonce B.strSubVer nBestHeight)

/-- `CNode::CNode`. -/
def new (fInbound fLocal : Bool) (nLocalHostNonce nonce : ℕ) (nBestHeight : ℤ) : CNode :=
  let p := init fInbound fLocal nLocalHostNonce
  if !fInbound then p.pushVersion B nonce nBestHeight else p

/-- `CNode::Misbehaving`. -/
def misbehaving (p : CNode) (howmuch : ℤ) : CNode :=
  if p.fLocal then p
  else
    let p := { p with nMisbehavior := p.nMisbehavior + howmuch }
    if p.nMisbehavior ≥ B.banscore then p.closeSocketDisconnect else p

end CNode

/-! ## Relaying alerts -/

/-- `CAlert::AppliesTo` at a reading of the clock. -/
def appliesTo (nTime : ℤ) (alert : CAlert) (nVersion : ℤ) (strSubVerIn : StdString) : Bool :=
  alert.isInEffect nTime && decide (alert.nMinVer ≤ nVersion) &&
    decide (nVersion ≤ alert.nMaxVer) &&
    (decide (alert.setSubVer = ∅) || decide (strSubVerIn ∈ alert.setSubVer))

variable (clock : ℕ → ℤ) (A : AlertParams) (B : Build)

/-- `CAlert::RelayTo`, with the number of the next reading of the clock. -/
def relayTo (alert : CAlert) (n : ℕ) (pnode : CNode) : ℕ × CNode :=
  if !alert.isInEffect (clock n) then (n + 1, pnode)
  else if alert.getHash A ∈ pnode.setKnown then (n + 1, pnode)
  else
    let pnode := { pnode with setKnown := insert (alert.getHash A) pnode.setKnown }
    if appliesTo (clock (n + 1)) alert pnode.nVersion pnode.strSubVer then
      (n + 2, pnode.pushMessage (.alert alert))
    else if appliesTo (clock (n + 2)) alert B.PROTOCOL_VERSION B.strSubVer then
      (n + 3, pnode.pushMessage (.alert alert))
    else if clock (n + 3) < alert.nRelayUntil then (n + 4, pnode.pushMessage (.alert alert))
    else (n + 4, pnode)

/-- The loop over `mapAlerts`. -/
def relayAlerts : AlertMap → ℕ → CNode → CNode
  | [], _, pfrom => pfrom
  | item :: rest, n, pfrom =>
    let r := relayTo clock A B item.2 n pfrom
    relayAlerts rest r.1 r.2

/-! ## Processing a message -/

/-- The branch of `ProcessMessage` for a first `version` message, from `PushVersion` to the new
version of `vSend`. -/
def answerVersion (env : Surroundings) (pfrom : CNode) : CNode :=
  let pfrom := if pfrom.fInbound then pfrom.pushVersion B env.nonce env.nBestHeight else pfrom
  let pfrom := { pfrom with fClient := decide (pfrom.nServices &&& NODE_NETWORK = 0) }
  let pfrom := pfrom.pushMessage .verack
  { pfrom with vSendVersion := min pfrom.nVersion B.PROTOCOL_VERSION }

/-- What the branch pushes after that. -/
def askForNews (env : Surroundings) (pfrom : CNode) : CNode :=
  let pfrom :=
    if !pfrom.fInbound &&
        (env.fOneShot || decide (pfrom.nVersion ≥ CADDR_TIME_VERSION) ||
          decide (env.addrmanSize < 1000)) then
      { pfrom.pushMessage (.other (literal "getaddr") []) with fGetAddr := true }
    else pfrom
  let pfrom :=
    if !pfrom.fClient && !env.fOneShot &&
        (decide (pfrom.nVersion < NOBLKS_VERSION_START) ||
          decide (pfrom.nVersion ≥ NOBLKS_VERSION_END)) &&
        (decide (env.nAskedForBlocks < 1) || decide (env.vNodesSize ≤ 1)) then
      pfrom.pushMessage (.other (literal "getblocks") env.vchLocator)
    else pfrom
  relayAlerts clock A B env.mapAlerts env.nReading pfrom

/-- The branch of `ProcessMessage` for a first `version` message. -/
def processVersion (env : Surroundings) (pfrom : CNode) (nVersion : ℤ) (nServices nNonce : ℕ)
    (strSubVer : StdString) (nStartingHeight : ℤ) : CNode :=
  let pfrom := { pfrom with nVersion := nVersion, nServices := nServices }
  if pfrom.nVersion < MIN_PROTO_VERSION then { pfrom with fDisconnect := true }
  else
    let pfrom := if pfrom.nVersion = 10300 then { pfrom with nVersion := 300 } else pfrom
    let pfrom := { pfrom with strSubVer := strSubVer, nStartingHeight := nStartingHeight }
    -- connected to itself
    if nNonce = pfrom.nLocalHostNonce ∧ nNonce > 1 then { pfrom with fDisconnect := true }
    else
      let pfrom := askForNews clock A B env (answerVersion B env pfrom)
      { pfrom with fSuccessfullyConnected := true }

/-- The message is processed. -/
def CNode.note (p : CNode) (msg : Message) : CNode := { p with processed := p.processed ++ [msg] }

/-- What the handler of another command pushes. -/
def pushReplies (replies : List (StdString × List UInt8)) (pfrom : CNode) : CNode :=
  replies.foldl (fun pfrom reply => pfrom.pushMessage (.other reply.1 reply.2)) pfrom

/-- `ProcessMessage`. The handlers of the other commands may push messages and report
misbehavior. -/
def processMessage (env : Surroundings) (pfrom : CNode) (msg : Message) : CNode :=
  match msg with
  | .version nVersion nServices nNonce strSubVer nStartingHeight =>
    -- each connection can only send one version message
    if pfrom.nVersion ≠ 0 then pfrom.misbehaving B 1
    else
      processVersion clock A B env (pfrom.note msg) nVersion nServices nNonce strSubVer
        nStartingHeight
  | .verack =>
    if pfrom.nVersion = 0 then pfrom.misbehaving B 1
    else { pfrom.note msg with vRecvVersion := min pfrom.nVersion B.PROTOCOL_VERSION }
  | .alert alert =>
    if pfrom.nVersion = 0 then pfrom.misbehaving B 1
    -- the loop over `vNodes` passes over this node, which knows the alert
    else if env.fProcessAlert then
      { pfrom.note msg with setKnown := insert (alert.getHash A) pfrom.setKnown }
    else pfrom.note msg
  | .other _ _ =>
    if pfrom.nVersion = 0 then pfrom.misbehaving B 1
    else
      let pfrom := pushReplies env.replies (pfrom.note msg)
      if env.nDoS ≠ 0 then
        { pfrom with nReported := pfrom.nReported + env.nDoS }.misbehaving B env.nDoS
      else pfrom

/-! ## The system -/

/-- What the two sides keep. -/
abbrev Link := Side → CNode

/-- What can happen: a side processes the next message; an alert that another node sent is relayed
to all nodes; `SendMessages` pushes a message; the program tells its version to another node; a side
closes the connection. -/
inductive HandshakeEvent
  | process (x : Side) (env : Surroundings)
  | relayAlert (x : Side) (alert : CAlert) (n : ℕ)
  | sendMessages (x : Side) (strCommand : StdString) (vch : List UInt8)
  | tellAnother (x : Side) (nonce : ℕ)
  | close (x : Side)

/-- The message as its reader finds it. -/
def Written.read (w : Written) (vRecvVersion : ℤ) (garbled : Message) : Message :=
  if w.nVersion = vRecvVersion then w.msg else garbled

variable (B : Side → Build) (N : Side → ℕ → Prop)

/-- Nonces are drawn by `RAND_bytes`: `N x` are those that side `x` draws. A closed connection takes
no message, and `SendMessages` waits for the version message. -/
def HandshakeEvent.legal (s : Link) : HandshakeEvent → Prop
  | .process x env => (s x).fClosed = false ∧ (s x.other).vSend ≠ [] ∧ N x env.nonce
  | .relayAlert _ _ _ => True
  | .sendMessages x _ _ => (s x).nVersion ≠ 0
  | .tellAnother x nonce => N x nonce
  | .close _ => True

/-- The effect of an event. -/
def HandshakeEvent.next (s : Link) : HandshakeEvent → Link
  | .process x env =>
    match (s x.other).vSend with
    | [] => s
    | w :: rest => fun y =>
      if y = x then
        processMessage clock A (B x) env (s x) (w.read (s x).vRecvVersion env.garbled)
      else { s y with vSend := rest }
  | .relayAlert x alert n => Function.update s x (relayTo clock A (B x) alert n (s x)).2
  | .sendMessages x strCommand vch =>
    Function.update s x ((s x).pushMessage (.other strCommand vch))
  | .tellAnother x nonce => Function.update s x { s x with nLocalHostNonce := nonce }
  | .close x => Function.update s x (s x).closeSocketDisconnect

/-- The connection has just been made. -/
def HandshakeStart (s : Link) : Prop :=
  (∃ fLocal nLocalHostNonce nonce nBestHeight, N .outbound nonce ∧
      s .outbound = .new (B .outbound) false fLocal nLocalHostNonce nonce nBestHeight) ∧
    ∃ fLocal nLocalHostNonce, (nLocalHostNonce = 0 ∨ N .inbound nLocalHostNonce) ∧
      s .inbound = .new (B .inbound) true fLocal nLocalHostNonce 0 0

/-- Two nodes on one connection. -/
def handshakeSystem : System Link HandshakeEvent where
  start := HandshakeStart B N
  legal := HandshakeEvent.legal N
  next := HandshakeEvent.next clock A B

/-! ## How a conversation goes -/

def Message.isVersion : Message → Bool
  | .version .. => true
  | _ => false

def Message.isVerack : Message → Bool
  | .verack => true
  | _ => false

def Message.isAlert : Message → Bool
  | .alert _ => true
  | _ => false

/-- Neither `version` nor `verack`. -/
def Message.isChat (msg : Message) : Bool := !msg.isVersion && !msg.isVerack

/-- How far a side is with what it tells the other: it has not told its version, it has told it, it
has told that it knows the version of the other. -/
inductive Phase
  | silent
  | named
  | agreed

/-- A message in its place, from a side of version `nVersion` to one with which it agrees on
`nAgreed`. -/
inductive Advance (nVersion nAgreed : ℤ) (N : ℕ → Prop) : Phase → Written → Phase → Prop
  | early (alert : CAlert) :
      Advance nVersion nAgreed N .silent ⟨MIN_PROTO_VERSION, .alert alert⟩ .silent
  | version (nServices nNonce : ℕ) (strSubVer : StdString) (nStartingHeight : ℤ) (h : N nNonce) :
      Advance nVersion nAgreed N .silent
        ⟨MIN_PROTO_VERSION, .version nVersion nServices nNonce strSubVer nStartingHeight⟩ .named
  | between (alert : CAlert) :
      Advance nVersion nAgreed N .named ⟨MIN_PROTO_VERSION, .alert alert⟩ .named
  | verack : Advance nVersion nAgreed N .named ⟨MIN_PROTO_VERSION, .verack⟩ .agreed
  | chat (msg : Message) (h : msg.isChat) :
      Advance nVersion nAgreed N .agreed ⟨nAgreed, msg⟩ .agreed

variable {clock A B N}

/-- A node with other members that pushing messages changes. -/
def CNode.restore (p q : CNode) : CNode :=
  { q with vSend := p.vSend, pushed := p.pushed, setKnown := p.setKnown, fGetAddr := p.fGetAddr }

/-- One node goes on to another by pushing messages of a kind. -/
structure Chats (ok : Message → Prop) (p q : CNode) : Prop where
  spoken : ∃ ws : List Written, q.vSend = p.vSend ++ ws ∧ q.pushed = p.pushed ++ ws ∧
    ∀ w ∈ ws, w.nVersion = p.vSendVersion ∧ ok w.msg
  same : p.restore q = p

section Chats

variable {ok ok' : Message → Prop} {p q r : CNode} {msg : Message}

theorem Chats.refl (ok : Message → Prop) (p : CNode) : Chats ok p p :=
  ⟨⟨[], by simp⟩, rfl⟩

/-- The other members stay. -/
theorem Chats.field {α : Type} (h : Chats ok p q) (f : CNode → α)
    (hf : ∀ p q : CNode, f (p.restore q) = f q) : f q = f p := by
  rw [← hf p, h.same]

theorem Chats.vSendVersion (h : Chats ok p q) : q.vSendVersion = p.vSendVersion :=
  h.field CNode.vSendVersion fun _ _ => rfl

theorem Chats.trans (h : Chats ok p q) (h' : Chats ok q r) : Chats ok p r := by
  obtain ⟨ws, hsend, hpushed, hws⟩ := h.spoken
  obtain ⟨ws', hsend', hpushed', hws'⟩ := h'.spoken
  have hversion := h.vSendVersion
  refine ⟨⟨ws ++ ws', ?_, ?_, ?_⟩, ?_⟩
  · rw [hsend', hsend, List.append_assoc]
  · rw [hpushed', hpushed, List.append_assoc]
  · intro w hw
    obtain hw | hw := List.mem_append.mp hw
    · exact hws w hw
    · exact ⟨(hws' w hw).1.trans hversion, (hws' w hw).2⟩
  · calc p.restore r = p.restore (q.restore r) := rfl
      _ = p.restore q := by rw [h'.same]
      _ = p := h.same

theorem Chats.mono (h : Chats ok p q) (himp : ∀ msg, ok msg → ok' msg) : Chats ok' p q := by
  obtain ⟨ws, hsend, hpushed, hws⟩ := h.spoken
  exact ⟨⟨ws, hsend, hpushed, fun w hw => ⟨(hws w hw).1, himp _ (hws w hw).2⟩⟩, h.same⟩

theorem chats_pushMessage (h : ok msg) (p : CNode) : Chats ok p (p.pushMessage msg) :=
  ⟨⟨[⟨p.vSendVersion, msg⟩], rfl, rfl, by simpa using h⟩, rfl⟩

/-- An alert is pushed or nothing is, and it may be noted as known. -/
theorem chats_relayTo (hok : ∀ alert, ok (.alert alert)) (B : Build) (alert : CAlert) (n : ℕ)
    (p : CNode) : Chats ok p (relayTo clock A B alert n p).2 := by
  have hknown : Chats ok p { p with setKnown := insert (alert.getHash A) p.setKnown } :=
    ⟨⟨[], by simp⟩, rfl⟩
  have hpush := hknown.trans (chats_pushMessage (hok alert) _)
  unfold relayTo
  dsimp only
  split_ifs
  · exact .refl ok p
  · exact .refl ok p
  · exact hpush
  · exact hpush
  · exact hpush
  · exact hknown

theorem chats_relayAlerts (hok : ∀ alert, ok (.alert alert)) (B : Build) (m : AlertMap) (n : ℕ)
    (p : CNode) : Chats ok p (relayAlerts clock A B m n p) := by
  induction m generalizing n p with
  | nil => exact .refl ok p
  | cons item rest ih => exact (chats_relayTo hok B item.2 n p).trans (ih _ _)

theorem chats_askForNews (hok : ∀ msg : Message, msg.isChat → ok msg) (B : Build)
    (env : Surroundings) (p : CNode) : Chats ok p (askForNews clock A B env p) := by
  have hgetaddr (p : CNode) : Chats ok p
      { p.pushMessage (.other (literal "getaddr") []) with fGetAddr := true } := by
    have hpush : Chats ok p (p.pushMessage (.other (literal "getaddr") [])) :=
      chats_pushMessage (hok _ rfl) p
    exact hpush.trans ⟨⟨[], by simp⟩, rfl⟩
  have hgetblocks (p : CNode) :
      Chats ok p (p.pushMessage (.other (literal "getblocks") env.vchLocator)) :=
    chats_pushMessage (hok _ rfl) p
  have hstay (p : CNode) : Chats ok p p := .refl ok p
  unfold askForNews
  dsimp only
  refine .trans ?_ (chats_relayAlerts (fun alert => hok _ rfl) B _ _ _)
  split_ifs
  · exact (hgetaddr p).trans (hgetblocks _)
  · exact hgetaddr p
  · exact hgetblocks p
  · exact hstay p

theorem chats_replies (hok : ∀ strCommand vch, ok (.other strCommand vch))
    (replies : List (StdString × List UInt8)) (p : CNode) :
    Chats ok p (pushReplies replies p) := by
  induction replies generalizing p with
  | nil => exact .refl ok p
  | cons r rest ih => exact (chats_pushMessage (hok r.1 r.2) p).trans (ih _)

end Chats

/-! ## What a first version message does -/

/-- A node with the members put back that the branch for a first `version` message changes. -/
def CNode.before (p q : CNode) : CNode :=
  { p.restore q with
    nLocalHostNonce := p.nLocalHostNonce, nVersion := p.nVersion, nServices := p.nServices
    strSubVer := p.strSubVer, nStartingHeight := p.nStartingHeight
    vSendVersion := p.vSendVersion, fClient := p.fClient
    fSuccessfullyConnected := p.fSuccessfullyConnected }

/-- What `answerVersion` pushes. -/
def answers (B : Build) (env : Surroundings) (p : CNode) : List Written :=
  (if p.fInbound then
    [⟨p.vSendVersion, .version B.PROTOCOL_VERSION B.nLocalServices env.nonce B.strSubVer
      env.nBestHeight⟩]
  else []) ++ [⟨p.vSendVersion, .verack⟩]

/-- What the branch for a first `version` message leaves: the version of the other side is known,
and this side has told that. -/
structure Introduced (B : Build) (env : Surroundings) (p q : CNode) (n : ℤ) : Prop where
  spoken : ∃ ws : List Written, q.vSend = p.vSend ++ answers B env p ++ ws ∧
    q.pushed = p.pushed ++ answers B env p ++ ws ∧
    ∀ w ∈ ws, w.nVersion = q.vSendVersion ∧ w.msg.isChat
  nVersion : q.nVersion = n
  vSendVersion : q.vSendVersion = min n B.PROTOCOL_VERSION
  nLocalHostNonce : q.nLocalHostNonce = if p.fInbound then env.nonce else p.nLocalHostNonce
  fSuccessfullyConnected : q.fSuccessfullyConnected = true
  same : p.before q = p

/-- The other members stay. -/
theorem Introduced.field {α : Type} {B : Build} {env : Surroundings} {p q : CNode} {n : ℤ}
    (h : Introduced B env p q n) (f : CNode → α) (hf : ∀ p q : CNode, f (p.before q) = f q) :
    f q = f p := by
  rw [← hf p, h.same]

theorem answerVersion_vSend (B : Build) (env : Surroundings) (p : CNode) :
    (answerVersion B env p).vSend = p.vSend ++ answers B env p := by
  cases h : p.fInbound <;>
    simp [answerVersion, answers, h, CNode.pushMessage, CNode.pushVersion]

theorem answerVersion_pushed (B : Build) (env : Surroundings) (p : CNode) :
    (answerVersion B env p).pushed = p.pushed ++ answers B env p := by
  cases h : p.fInbound <;>
    simp [answerVersion, answers, h, CNode.pushMessage, CNode.pushVersion]

theorem answerVersion_nLocalHostNonce (B : Build) (env : Surroundings) (p : CNode) :
    (answerVersion B env p).nLocalHostNonce =
      if p.fInbound then env.nonce else p.nLocalHostNonce := by
  cases h : p.fInbound <;> simp [answerVersion, h, CNode.pushMessage, CNode.pushVersion]

theorem answerVersion_nVersion (B : Build) (env : Surroundings) (p : CNode) :
    (answerVersion B env p).nVersion = p.nVersion := by
  cases h : p.fInbound <;> simp [answerVersion, h, CNode.pushMessage, CNode.pushVersion]

theorem answerVersion_vSendVersion (B : Build) (env : Surroundings) (p : CNode) :
    (answerVersion B env p).vSendVersion = min p.nVersion B.PROTOCOL_VERSION := by
  cases h : p.fInbound <;> simp [answerVersion, h, CNode.pushMessage, CNode.pushVersion]

theorem before_answerVersion (B : Build) (env : Surroundings) (p : CNode) :
    p.before (answerVersion B env p) = p := by
  cases h : p.fInbound <;>
    simp [answerVersion, h, CNode.pushMessage, CNode.pushVersion, CNode.before, CNode.restore] <;>
    rw [← h]

/-- **The branch for a first version message** when the other side is neither too old nor this
program itself: an inbound side tells its version, both tell that they know the version of the
other, and what follows is written under the version they agree on. -/
theorem processVersion_introduced (B : Build) (env : Surroundings) (p : CNode) {nVersion : ℤ}
    (hmin : MIN_PROTO_VERSION ≤ nVersion) (hne : nVersion ≠ 10300) (nServices : ℕ) {nNonce : ℕ}
    (hnonce : ¬ (nNonce = p.nLocalHostNonce ∧ nNonce > 1)) (strSubVer : StdString)
    (nStartingHeight : ℤ) :
    Introduced B env p
      (processVersion clock A B env p nVersion nServices nNonce strSubVer nStartingHeight)
      nVersion := by
  let p' : CNode :=
    { p with
      nVersion := nVersion, nServices := nServices, strSubVer := strSubVer
      nStartingHeight := nStartingHeight }
  have heq : processVersion clock A B env p nVersion nServices nNonce strSubVer nStartingHeight =
      { askForNews clock A B env (answerVersion B env p') with
        fSuccessfullyConnected := true } := by
    unfold processVersion
    dsimp only
    rw [if_neg (not_lt.mpr hmin), if_neg hne, if_neg hnonce]
  rw [heq]
  have hchats : Chats (fun msg => msg.isChat) (answerVersion B env p')
      (askForNews clock A B env (answerVersion B env p')) :=
    chats_askForNews (fun _ h => h) B env _
  obtain ⟨ws, hsend, hpushed, hws⟩ := hchats.spoken
  refine ⟨⟨ws, ?_, ?_, ?_⟩, ?_, ?_, ?_, rfl, ?_⟩
  · rw [answerVersion_vSend] at hsend
    exact hsend
  · rw [answerVersion_pushed] at hpushed
    exact hpushed
  · intro w hw
    exact ⟨(hws w hw).1.trans hchats.vSendVersion.symm, (hws w hw).2⟩
  · exact (hchats.field CNode.nVersion fun _ _ => rfl).trans (answerVersion_nVersion B env p')
  · exact hchats.vSendVersion.trans (answerVersion_vSendVersion B env p')
  · exact (hchats.field CNode.nLocalHostNonce fun _ _ => rfl).trans
      (answerVersion_nLocalHostNonce B env p')
  · calc
      p.before { askForNews clock A B env (answerVersion B env p') with
          fSuccessfullyConnected := true }
      _ = p.before ((answerVersion B env p').restore
          (askForNews clock A B env (answerVersion B env p'))) := rfl
      _ = p.before (answerVersion B env p') := by rw [hchats.same]
      _ = p.before (p'.before (answerVersion B env p')) := rfl
      _ = p.before p' := by rw [before_answerVersion]
      _ = p := rfl

/-! ## One direction -/

section Channel

variable {Bs Br : Build} {Ns : ℕ → Prop} {s s' r r' : CNode}

/-- What one side may say when to the other. -/
abbrev Talk (Bs Br : Build) (Ns : ℕ → Prop) : Phase → Written → Phase → Prop :=
  Advance Bs.PROTOCOL_VERSION (min Br.PROTOCOL_VERSION Bs.PROTOCOL_VERSION) Ns

/-- Where the reader is. -/
def Heard (Bs Br : Build) (r : CNode) : Phase → Prop
  | .silent => r.nVersion = 0 ∧ r.vRecvVersion = MIN_PROTO_VERSION ∧ r.processed = []
  | .named => r.nVersion = Bs.PROTOCOL_VERSION ∧ r.vRecvVersion = MIN_PROTO_VERSION
  | .agreed => r.nVersion = Bs.PROTOCOL_VERSION ∧
      r.vRecvVersion = min Br.PROTOCOL_VERSION Bs.PROTOCOL_VERSION

/-- Where the writer is. -/
def Said (Bs Br : Build) (s : CNode) : Phase → Prop
  | .silent => s.fInbound = true ∧ s.nVersion = 0 ∧ s.vSendVersion = MIN_PROTO_VERSION
  | .named => s.fInbound = false ∧ s.nVersion = 0 ∧ s.vSendVersion = MIN_PROTO_VERSION
  | .agreed => s.nVersion = Br.PROTOCOL_VERSION ∧ s.fSuccessfullyConnected = true ∧
      s.vSendVersion = min Br.PROTOCOL_VERSION Bs.PROTOCOL_VERSION

/-- What was pushed is what was read too early, what was processed, and what is still to be read;
what was read too early are alerts, and each is reported as misbehavior. -/
structure Kept (s r : CNode) (early : List Written) : Prop where
  pushed : ∃ read : List Written, s.pushed = early ++ read ++ s.vSend ∧
    r.processed = read.map (·.msg)
  alerts : ∀ w ∈ early, w.msg.isAlert
  nMisbehavior : r.nMisbehavior = if r.fLocal then 0 else early.length + r.nReported

/-- What holds of one direction, at all times. -/
structure Channel (Bs Br : Build) (Ns : ℕ → Prop) (s r : CNode) : Prop where
  inStep : ∃ heard said, Heard Bs Br r heard ∧ Said Bs Br s said ∧
    Path (Talk Bs Br Ns) heard s.vSend said ∧ Path (Talk Bs Br Ns) .silent s.pushed said
  kept : ∃ early, Kept s r early
  first : s.fInbound = false → ∃ w l, s.pushed = w :: l ∧ w.msg.isVersion

/-- What the writer chats is in its place: alerts at any time, other messages when it knows the
version of the other side. -/
def Fits (s : CNode) (msg : Message) : Prop := msg.isAlert ∨ s.nVersion ≠ 0 ∧ msg.isChat

theorem Said.path {said : Phase} (h : Said Bs Br s said) {ws : List Written}
    (hws : ∀ w ∈ ws, w.nVersion = s.vSendVersion ∧ Fits s w.msg) :
    Path (Talk Bs Br Ns) said ws said := by
  refine Path.stay fun w hw => ?_
  obtain ⟨hversion, hfits⟩ := hws w hw
  obtain ⟨nVersion, msg⟩ := w
  cases said with
  | silent =>
    obtain ⟨-, hzero, hsend⟩ := h
    obtain halert | ⟨hne, -⟩ := hfits
    · cases msg <;> simp only [Message.isAlert, Bool.false_eq_true] at halert
      obtain rfl : nVersion = MIN_PROTO_VERSION := hversion.trans hsend
      exact .early _
    · exact absurd hzero hne
  | named =>
    obtain ⟨-, hzero, hsend⟩ := h
    obtain halert | ⟨hne, -⟩ := hfits
    · cases msg <;> simp only [Message.isAlert, Bool.false_eq_true] at halert
      obtain rfl : nVersion = MIN_PROTO_VERSION := hversion.trans hsend
      exact .between _
    · exact absurd hzero hne
  | agreed =>
    obtain ⟨-, -, hsend⟩ := h
    obtain rfl : nVersion = _ := hversion.trans hsend
    refine .chat msg ?_
    obtain halert | ⟨-, hchat⟩ := hfits
    · cases msg <;> first | rfl | simp only [Message.isAlert, Bool.false_eq_true] at halert
    · exact hchat

/-- The writer chats. -/
theorem Channel.chats (h : Channel Bs Br Ns s r) (hchats : Chats (Fits s) s s') :
    Channel Bs Br Ns s' r := by
  obtain ⟨ws, hsend, hpushed, hws⟩ := hchats.spoken
  obtain ⟨⟨heard, said, hheard, hsaid, hqueue, hall⟩, ⟨early, ⟨read, hread, hprocessed⟩, hearly,
    hmis⟩, hfirst⟩ := h
  refine ⟨⟨heard, said, hheard, ?_, ?_, ?_⟩, ⟨early, ⟨read, ?_, hprocessed⟩, hearly, hmis⟩, ?_⟩
  · have hinbound := hchats.field CNode.fInbound fun _ _ => rfl
    have hversion := hchats.field CNode.nVersion fun _ _ => rfl
    have hconnected := hchats.field CNode.fSuccessfullyConnected fun _ _ => rfl
    have hwritten := hchats.field CNode.vSendVersion fun _ _ => rfl
    cases said <;> simpa only [Said, hinbound, hversion, hconnected, hwritten] using hsaid
  · rw [hsend]
    exact hqueue.append (hsaid.path hws)
  · rw [hpushed]
    exact hall.append (hsaid.path hws)
  · rw [hpushed, hsend, hread, List.append_assoc]
  · rw [hchats.field CNode.fInbound fun _ _ => rfl, hpushed]
    intro hout
    obtain ⟨w, l, hl, hw⟩ := hfirst hout
    exact ⟨w, l ++ ws, by rw [hl, List.cons_append], hw⟩

/-- What a writer goes by. -/
def CNode.mouth (p : CNode) : Bool × ℤ × ℤ × Bool × List Written × List Written :=
  (p.fInbound, p.nVersion, p.vSendVersion, p.fSuccessfullyConnected, p.vSend, p.pushed)

/-- What a reader goes by. -/
def CNode.ear (p : CNode) : ℤ × ℤ × List Message × Bool :=
  (p.nVersion, p.vRecvVersion, p.processed, p.fLocal)

theorem mouth_misbehaving (B : Build) (p : CNode) (howmuch : ℤ) :
    (p.misbehaving B howmuch).mouth = p.mouth := by
  unfold CNode.misbehaving
  dsimp only
  split_ifs <;> rfl

theorem ear_misbehaving (B : Build) (p : CNode) (howmuch : ℤ) :
    (p.misbehaving B howmuch).ear = p.ear := by
  unfold CNode.misbehaving
  dsimp only
  split_ifs <;> rfl

theorem nMisbehavior_misbehaving (B : Build) (p : CNode) (howmuch : ℤ) :
    (p.misbehaving B howmuch).nMisbehavior =
      if p.fLocal then p.nMisbehavior else p.nMisbehavior + howmuch := by
  unfold CNode.misbehaving
  dsimp only
  split_ifs <;> rfl

theorem nLocalHostNonce_misbehaving (B : Build) (p : CNode) (howmuch : ℤ) :
    (p.misbehaving B howmuch).nLocalHostNonce = p.nLocalHostNonce := by
  unfold CNode.misbehaving
  dsimp only
  split_ifs <;> rfl

theorem nReported_misbehaving (B : Build) (p : CNode) (howmuch : ℤ) :
    (p.misbehaving B howmuch).nReported = p.nReported := by
  unfold CNode.misbehaving
  dsimp only
  split_ifs <;> rfl

/-- A reader that takes no notice, and a writer that does not write. -/
theorem Channel.congr (h : Channel Bs Br Ns s r) (hs : s'.mouth = s.mouth) (hr : r'.ear = r.ear)
    (hmis : r'.nMisbehavior = r.nMisbehavior) (hreported : r'.nReported = r.nReported) :
    Channel Bs Br Ns s' r' := by
  simp only [CNode.mouth, CNode.ear, Prod.mk.injEq] at hs hr
  obtain ⟨hinbound, hversion, hwritten, hconnected, hsend, hpushed⟩ := hs
  obtain ⟨hheardVersion, hrecv, hprocessed, hlocal⟩ := hr
  obtain ⟨⟨heard, said, hheard, hsaid, hqueue, hall⟩, ⟨early, ⟨read, hread, hread'⟩, hearly,
    hscore⟩, hfirst⟩ := h
  refine ⟨⟨heard, said, ?_, ?_, ?_, ?_⟩, ⟨early, ⟨read, ?_, ?_⟩, hearly, ?_⟩, ?_⟩
  · cases heard <;> simpa only [Heard, hheardVersion, hrecv, hprocessed] using hheard
  · cases said <;> simpa only [Said, hinbound, hversion, hconnected, hwritten] using hsaid
  · rw [hsend]
    exact hqueue
  · rw [hpushed]
    exact hall
  · rw [hpushed, hsend]
    exact hread
  · rw [hprocessed]
    exact hread'
  · rw [hmis, hlocal, hreported]
    exact hscore
  · rw [hinbound, hpushed]
    exact hfirst

/-- **The next message is read under the version it was written under.** -/
theorem Channel.nVersion_eq (h : Channel Bs Br Ns s r) {w : Written} {rest : List Written}
    (hsend : s.vSend = w :: rest) : w.nVersion = r.vRecvVersion := by
  obtain ⟨heard, said, hheard, -, hqueue, -⟩ := h.inStep
  rw [hsend] at hqueue
  obtain ⟨t, hm, -⟩ := hqueue.pop
  cases hm with
  | early => exact hheard.2.1.symm
  | version => exact hheard.2.1.symm
  | between => exact hheard.2.symm
  | verack => exact hheard.2.symm
  | chat => exact hheard.2.symm

/-! ## One message -/

variable {env : Surroundings} {msg : Message} {w : Written} {rest : List Written}

/-- A reader that has not heard the version of the other side reports anything else. -/
theorem processMessage_early (hzero : r.nVersion = 0) (hmsg : msg.isVersion = false) :
    processMessage clock A Br env r msg = r.misbehaving Br 1 := by
  cases msg with
  | version => simp [Message.isVersion] at hmsg
  | verack => exact if_pos hzero
  | alert => exact if_pos hzero
  | other => exact if_pos hzero

/-- **A message after the handshake**: it is processed, and what is pushed are other such
messages. -/
theorem processMessage_chat (hne : r.nVersion ≠ 0) (hchat : msg.isChat) :
    ∃ q, Chats (fun msg => msg.isChat) (r.note msg) q ∧
      (processMessage clock A Br env r msg).mouth = q.mouth ∧
      (processMessage clock A Br env r msg).ear = q.ear ∧
      (processMessage clock A Br env r msg).nLocalHostNonce = r.nLocalHostNonce ∧
      (processMessage clock A Br env r msg).nMisbehavior =
        (if r.fLocal then r.nMisbehavior
        else r.nMisbehavior +
          ((processMessage clock A Br env r msg).nReported - r.nReported)) := by
  cases msg with
  | version => simp [Message.isChat, Message.isVersion] at hchat
  | verack => simp [Message.isChat, Message.isVerack] at hchat
  | alert alert =>
    refine ⟨_, .refl _ _, ?_⟩
    simp only [processMessage, if_neg hne]
    split_ifs <;> simp [CNode.mouth, CNode.ear, CNode.note]
  | other strCommand vch =>
    have hreplies : Chats (fun msg => msg.isChat) (r.note (.other strCommand vch))
        (pushReplies env.replies (r.note (.other strCommand vch))) :=
      chats_replies (fun _ _ => rfl) env.replies _
    simp only [processMessage, if_neg hne]
    generalize pushReplies env.replies (r.note (.other strCommand vch)) = q at hreplies ⊢
    have hlocal : q.fLocal = r.fLocal := hreplies.field CNode.fLocal fun _ _ => rfl
    have hnonce : q.nLocalHostNonce = r.nLocalHostNonce :=
      hreplies.field CNode.nLocalHostNonce fun _ _ => rfl
    have hmis : q.nMisbehavior = r.nMisbehavior := hreplies.field CNode.nMisbehavior fun _ _ => rfl
    have hreported : q.nReported = r.nReported := hreplies.field CNode.nReported fun _ _ => rfl
    refine ⟨q, hreplies, ?_⟩
    split_ifs with hdos hlocal'
    · refine ⟨mouth_misbehaving Br _ _, ear_misbehaving Br _ _,
        (nLocalHostNonce_misbehaving Br _ _).trans hnonce, ?_⟩
      rw [nMisbehavior_misbehaving, if_pos (hlocal.trans hlocal')]
      exact hmis
    · refine ⟨mouth_misbehaving Br _ _, ear_misbehaving Br _ _,
        (nLocalHostNonce_misbehaving Br _ _).trans hnonce, ?_⟩
      rw [nMisbehavior_misbehaving, nReported_misbehaving, if_neg (by rwa [← hlocal] at hlocal')]
      show q.nMisbehavior + env.nDoS = r.nMisbehavior + (q.nReported + env.nDoS - r.nReported)
      rw [hmis, hreported, add_sub_cancel_left]
    · exact ⟨rfl, rfl, hnonce, hmis⟩
    · exact ⟨rfl, rfl, hnonce, by rw [hmis, hreported, sub_self, add_zero]⟩

/-- The reader takes one message that leaves it where it is. -/
theorem Kept.read {early : List Written} (h : Kept s r early) (hsend : s.vSend = w :: rest)
    (hprocessed : r'.processed = r.processed ++ [w.msg]) (hlocal : r'.fLocal = r.fLocal)
    (hmis : r'.nMisbehavior = if r.fLocal then r.nMisbehavior
      else r.nMisbehavior + (r'.nReported - r.nReported)) :
    Kept { s with vSend := rest } r' early := by
  obtain ⟨⟨read, hread, hread'⟩, hearly, hscore⟩ := h
  refine ⟨⟨read ++ [w], ?_, ?_⟩, hearly, ?_⟩
  · show s.pushed = _
    rw [hread, hsend]
    simp
  · rw [hprocessed, hread', List.map_append]
    rfl
  · rw [hmis, hlocal, hscore]
    split_ifs
    · rfl
    · ring

/-- The reader takes one message too early. -/
theorem Kept.early {early : List Written} (h : Kept s r early) (hsend : s.vSend = w :: rest)
    (halert : w.msg.isAlert) (hempty : r.processed = []) :
    Kept { s with vSend := rest } (r.misbehaving Br 1) (early ++ [w]) := by
  have hear := ear_misbehaving Br r 1
  simp only [CNode.ear, Prod.mk.injEq] at hear
  obtain ⟨-, -, hprocessed, hlocal⟩ := hear
  obtain ⟨⟨read, hread, hread'⟩, hearly, hscore⟩ := h
  obtain rfl : read = [] := List.map_eq_nil_iff.mp (hread'.symm.trans hempty)
  refine ⟨⟨[], ?_, ?_⟩, ?_, ?_⟩
  · show s.pushed = _
    rw [hread, hsend]
    simp
  · rw [hprocessed, hempty]
    rfl
  · intro w' hw
    obtain hw | hw := List.mem_append.mp hw
    · exact hearly w' hw
    · obtain rfl := List.mem_singleton.mp hw
      exact halert
  · rw [nMisbehavior_misbehaving, nReported_misbehaving, hlocal, hscore, List.length_append]
    split_ifs
    · rfl
    · push_cast [List.length_singleton]
      ring

/-- The program of a side speaks neither an obsolete version nor 10300, which is taken for 300. -/
def Build.Speaks (B : Build) : Prop :=
  MIN_PROTO_VERSION ≤ B.PROTOCOL_VERSION ∧ B.PROTOCOL_VERSION ≠ 10300

theorem Build.Speaks.ne_zero {B : Build} (h : B.Speaks) : B.PROTOCOL_VERSION ≠ 0 := by
  have hmin := h.1
  unfold MIN_PROTO_VERSION at hmin
  omega

/-- The first version message that a side hears. -/
theorem processMessage_version (hzero : r.nVersion = 0) (hspeaks : Bs.Speaks) (nServices : ℕ)
    {nNonce : ℕ} (hnonce : ¬ (nNonce = r.nLocalHostNonce ∧ nNonce > 1)) (strSubVer : StdString)
    (nStartingHeight : ℤ) :
    Introduced Br env
      (r.note (.version Bs.PROTOCOL_VERSION nServices nNonce strSubVer nStartingHeight))
      (processMessage clock A Br env r
        (.version Bs.PROTOCOL_VERSION nServices nNonce strSubVer nStartingHeight))
      Bs.PROTOCOL_VERSION := by
  simp only [processMessage, hzero, ne_eq, not_true_eq_false, if_false]
  have hnonce' : ¬ (nNonce = (r.note (.version Bs.PROTOCOL_VERSION nServices nNonce strSubVer
      nStartingHeight)).nLocalHostNonce ∧ nNonce > 1) := hnonce
  exact processVersion_introduced Br env _ hspeaks.1 hspeaks.2 nServices hnonce' strSubVer
    nStartingHeight

/-- What a reader keeps that takes another message after the handshake. -/
theorem Kept.chat {early : List Written} (h : Kept s r early) (hsend : s.vSend = w :: rest)
    (hne : r.nVersion ≠ 0) (hchat : w.msg.isChat) :
    (processMessage clock A Br env r w.msg).nVersion = r.nVersion ∧
      (processMessage clock A Br env r w.msg).vRecvVersion = r.vRecvVersion ∧
      Kept { s with vSend := rest } (processMessage clock A Br env r w.msg) early := by
  obtain ⟨q, hchats, -, hear, -, hmis⟩ := processMessage_chat hne hchat
  have hsame := hear.trans (hchats.field CNode.ear fun _ _ => rfl)
  simp only [CNode.ear, CNode.note, Prod.mk.injEq] at hsame
  obtain ⟨hversion, hrecv, hprocessed, hlocal⟩ := hsame
  exact ⟨hversion, hrecv, h.read hsend hprocessed hlocal hmis⟩

/-- **The reader goes on.** -/
theorem Channel.read (h : Channel Bs Br Ns s r) (hspeaks : Bs.Speaks)
    (hnonce : ∀ n, Ns n → ¬ (n = r.nLocalHostNonce ∧ n > 1)) (hsend : s.vSend = w :: rest) :
    Channel Bs Br Ns { s with vSend := rest } (processMessage clock A Br env r w.msg) := by
  obtain ⟨⟨heard, said, hheard, hsaid, hqueue, hall⟩, ⟨early, hkept⟩, hfirst⟩ := h
  have hsaid' : Said Bs Br { s with vSend := rest } said := by
    cases said <;> exact hsaid
  rw [hsend] at hqueue
  obtain ⟨t, hm, hrest⟩ := hqueue.pop
  -- it is enough to know where the reader is and what was kept
  suffices hgoal : Heard Bs Br (processMessage clock A Br env r w.msg) t ∧
      ∃ early, Kept { s with vSend := rest } (processMessage clock A Br env r w.msg) early from
    ⟨⟨t, said, hgoal.1, hsaid', hrest, hall⟩, hgoal.2, hfirst⟩
  cases hm with
  | early alert =>
    obtain ⟨hzero, hrecv, hempty⟩ := hheard
    rw [processMessage_early hzero rfl]
    have hear := ear_misbehaving Br r 1
    simp only [CNode.ear, Prod.mk.injEq] at hear
    exact ⟨⟨hear.1.trans hzero, hear.2.1.trans hrecv, hear.2.2.1.trans hempty⟩, _,
      hkept.early hsend rfl hempty⟩
  | version nServices nNonce strSubVer nStartingHeight hN =>
    obtain ⟨hzero, hrecv, hempty⟩ := hheard
    have hintro : Introduced Br env _ (processMessage clock A Br env r _) _ :=
      processMessage_version hzero hspeaks nServices (hnonce nNonce hN) strSubVer nStartingHeight
    have hreported := hintro.field CNode.nReported fun _ _ => rfl
    have hprocessed := hintro.field CNode.processed fun _ _ => rfl
    have hlocal := hintro.field CNode.fLocal fun _ _ => rfl
    refine ⟨⟨hintro.nVersion, (hintro.field CNode.vRecvVersion fun _ _ => rfl).trans hrecv⟩, early,
      hkept.read hsend hprocessed hlocal
        ((hintro.field CNode.nMisbehavior fun _ _ => rfl).trans ?_)⟩
    -- the version message itself is no misbehavior
    rw [hreported]
    simp [CNode.note]
  | between alert =>
    obtain ⟨hversion, hrecv⟩ := hheard
    have hne : r.nVersion ≠ 0 := hversion.trans_ne hspeaks.ne_zero
    obtain ⟨hversion', hrecv', hkept'⟩ := hkept.chat hsend hne rfl
    exact ⟨⟨hversion'.trans hversion, hrecv'.trans hrecv⟩, early, hkept'⟩
  | verack =>
    obtain ⟨hversion, hrecv⟩ := hheard
    have hne : r.nVersion ≠ 0 := hversion.trans_ne hspeaks.ne_zero
    have hverack : processMessage clock A Br env r .verack =
        { r.note .verack with vRecvVersion := min r.nVersion Br.PROTOCOL_VERSION } := if_neg hne
    rw [hverack]
    refine ⟨⟨hversion, ?_⟩, early, hkept.read hsend rfl rfl ?_⟩
    · show min r.nVersion Br.PROTOCOL_VERSION = _
      rw [hversion, min_comm]
    · simp [CNode.note]
  | chat msg hchat =>
    obtain ⟨hversion, hrecv⟩ := hheard
    have hne : r.nVersion ≠ 0 := hversion.trans_ne hspeaks.ne_zero
    obtain ⟨hversion', hrecv', hkept'⟩ := hkept.chat hsend hne hchat
    exact ⟨⟨hversion'.trans hversion, hrecv'.trans hrecv⟩, early, hkept'⟩

/-- A side that has heard the first version message tells that it has. -/
theorem Channel.introduced {q : CNode} {Nr : ℕ → Prop} (h : Channel Br Bs Nr r s)
    (hzero : r.nVersion = 0) (hspeaks : Bs.Speaks) (hdraw : Nr env.nonce)
    (hintro : Introduced Br env (r.note msg) q Bs.PROTOCOL_VERSION) : Channel Br Bs Nr q s := by
  have hinbound : q.fInbound = r.fInbound := hintro.field CNode.fInbound fun _ _ => rfl
  obtain ⟨ws, hsend, hpushed, hws⟩ := hintro.spoken
  obtain ⟨⟨heard, said, hheard, hsaid, hqueue, hall⟩, ⟨early, ⟨read, hread, hprocessed⟩, hearly,
    hmis⟩, hfirst⟩ := h
  have hanswers : Path (Talk Br Bs Nr) said (answers Br env (r.note msg)) .agreed := by
    cases said with
    | silent =>
      -- an inbound side is shy: it tells its version only now
      obtain ⟨hin, -, hwritten⟩ := hsaid
      simp only [answers, CNode.note, hin, if_true, hwritten]
      exact (Path.single (.version _ _ _ _ hdraw)).append (Path.single .verack)
    | named =>
      obtain ⟨hout, -, hwritten⟩ := hsaid
      simp only [answers, CNode.note, hout, hwritten]
      exact Path.single .verack
    | agreed => exact absurd (hsaid.1.symm.trans hzero) hspeaks.ne_zero
  have hrest : Path (Talk Br Bs Nr) .agreed ws .agreed := by
    refine Path.stay fun w hw => ?_
    obtain ⟨hversion, hchat⟩ := hws w hw
    obtain ⟨nVersion, msg⟩ := w
    obtain rfl : nVersion = _ := hversion.trans hintro.vSendVersion
    exact .chat msg hchat
  have hpath := hanswers.append hrest
  refine ⟨⟨heard, .agreed, hheard,
    ⟨hintro.nVersion, hintro.fSuccessfullyConnected, hintro.vSendVersion⟩, ?_, ?_⟩,
    ⟨early, ⟨read, ?_, hprocessed⟩, hearly, hmis⟩, ?_⟩
  · rw [hsend, List.append_assoc]
    exact hqueue.append hpath
  · rw [hpushed, List.append_assoc]
    exact hall.append hpath
  · rw [hpushed, hsend]
    simp only [CNode.note, hread, List.append_assoc]
  · rw [hinbound, hpushed]
    intro hout
    obtain ⟨w, l, hl, hw⟩ := hfirst hout
    simp only [CNode.note, hl, List.cons_append]
    exact ⟨w, _, rfl, hw⟩

/-- **The reader answers**: what it writes to the other side while it takes a message. -/
theorem Channel.write {Nr : ℕ → Prop} (h : Channel Br Bs Nr r s) (hread : Channel Bs Br Ns s r)
    (hspeaks : Bs.Speaks) (hnonce : ∀ n, Ns n → ¬ (n = r.nLocalHostNonce ∧ n > 1))
    (hdraw : Nr env.nonce) (hsend : s.vSend = w :: rest) :
    Channel Br Bs Nr (processMessage clock A Br env r w.msg) { s with vSend := rest } ∧
      (processMessage clock A Br env r w.msg).fInbound = r.fInbound ∧
      ((processMessage clock A Br env r w.msg).nLocalHostNonce = r.nLocalHostNonce ∨
        (processMessage clock A Br env r w.msg).nLocalHostNonce = env.nonce) := by
  -- between the handshake messages and after them
  have hchatty (hne : r.nVersion ≠ 0) (hchat : w.msg.isChat) :
      Channel Br Bs Nr (processMessage clock A Br env r w.msg) { s with vSend := rest } ∧
      (processMessage clock A Br env r w.msg).fInbound = r.fInbound ∧
      ((processMessage clock A Br env r w.msg).nLocalHostNonce = r.nLocalHostNonce ∨
        (processMessage clock A Br env r w.msg).nLocalHostNonce = env.nonce) := by
    obtain ⟨q, hchats, hmouth, -, hkeep, -⟩ := @processMessage_chat clock A Br r env _ hne hchat
    have hnote : Channel Br Bs Nr (r.note w.msg) s := h.congr rfl rfl rfl rfl
    have hq := hnote.chats (hchats.mono fun msg hmsg => .inr ⟨hne, hmsg⟩)
    have hinbound := congrArg Prod.fst hmouth
    exact ⟨hq.congr hmouth rfl rfl rfl,
      hinbound.trans (hchats.field CNode.fInbound fun _ _ => rfl), .inl hkeep⟩
  obtain ⟨heard, said, hheard, -, hqueue, -⟩ := hread.inStep
  rw [hsend] at hqueue
  obtain ⟨t, hm, -⟩ := hqueue.pop
  cases hm with
  | early alert =>
    rw [processMessage_early hheard.1 rfl]
    exact ⟨h.congr (mouth_misbehaving Br r 1) rfl rfl rfl,
      congrArg Prod.fst (mouth_misbehaving Br r 1), .inl (nLocalHostNonce_misbehaving Br r 1)⟩
  | version nServices nNonce strSubVer nStartingHeight hN =>
    have hintro : Introduced Br env _ (processMessage clock A Br env r _) _ :=
      processMessage_version hheard.1 hspeaks nServices (hnonce nNonce hN) strSubVer
        nStartingHeight
    have hsame := congrArg CNode.fInbound hintro.same
    refine ⟨(h.introduced hheard.1 hspeaks hdraw hintro).congr rfl rfl rfl rfl, hsame, ?_⟩
    rw [hintro.nLocalHostNonce]
    split_ifs
    · exact .inr rfl
    · exact .inl rfl
  | between alert => exact hchatty (hheard.1.trans_ne hspeaks.ne_zero) rfl
  | verack =>
    have hne : r.nVersion ≠ 0 := hheard.1.trans_ne hspeaks.ne_zero
    have hverack : processMessage clock A Br env r .verack =
        { r.note .verack with vRecvVersion := min r.nVersion Br.PROTOCOL_VERSION } := if_neg hne
    rw [hverack]
    exact ⟨h.congr rfl rfl rfl rfl, rfl, .inl rfl⟩
  | chat msg hchat => exact hchatty (hheard.1.trans_ne hspeaks.ne_zero) hchat

end Channel

/-! ## Both directions -/

@[simp] theorem Side.other_other (x : Side) : x.other.other = x := by
  cases x <;> rfl

theorem Side.other_ne (x : Side) : x.other ≠ x := by
  cases x <;> simp [Side.other]

theorem Side.eq_other_of_ne {x y : Side} (h : y ≠ x) : y = x.other := by
  cases x <;> cases y <;> simp_all [Side.other]

/-- What holds of the two sides, at all times. -/
structure Link.Invariant (B : Side → Build) (N : Side → ℕ → Prop) (s : Link) : Prop where
  channel : ∀ x, Channel (B x) (B x.other) (N x) (s x) (s x.other)
  fInbound : ∀ x, (s x).fInbound = decide (x = .inbound)
  nonce : ∀ x, (s x).nLocalHostNonce = 0 ∨ N x (s x).nLocalHostNonce

variable {s : Link}

/-- One side writes. -/
theorem Link.Invariant.update (h : s.Invariant B N) {x : Side} {p : CNode}
    (hchannel : Channel (B x) (B x.other) (N x) p (s x.other))
    (hinbound : p.fInbound = (s x).fInbound) (hear : p.ear = (s x).ear)
    (hmis : p.nMisbehavior = (s x).nMisbehavior)
    (hreported : p.nReported = (s x).nReported)
    (hnonce : p.nLocalHostNonce = 0 ∨ N x p.nLocalHostNonce) :
    Link.Invariant B N (Function.update s x p) := by
  refine ⟨fun y => ?_, fun y => ?_, fun y => ?_⟩ <;> by_cases hy : y = x
  · subst hy
    rw [Function.update_self, Function.update_of_ne y.other_ne]
    exact hchannel
  · obtain rfl := Side.eq_other_of_ne hy
    have hother := h.channel x.other
    rw [Side.other_other] at hother ⊢
    rw [Function.update_self, Function.update_of_ne hy]
    exact hother.congr rfl hear hmis hreported
  · subst hy
    rw [Function.update_self, hinbound, h.fInbound]
  · rw [Function.update_of_ne hy, h.fInbound]
  · subst hy
    rw [Function.update_self]
    exact hnonce
  · rw [Function.update_of_ne hy]
    exact h.nonce y

/-- One side pushes messages that fit. -/
theorem Link.Invariant.chats (h : s.Invariant B N) {x : Side} {p : CNode}
    (hchats : Chats (Fits (s x)) (s x) p) : Link.Invariant B N (Function.update s x p) := by
  refine h.update ((h.channel x).chats hchats) (hchats.field CNode.fInbound fun _ _ => rfl)
    (hchats.field CNode.ear fun _ _ => rfl) (hchats.field CNode.nMisbehavior fun _ _ => rfl)
    (hchats.field CNode.nReported fun _ _ => rfl) ?_
  rw [hchats.field CNode.nLocalHostNonce fun _ _ => rfl]
  exact h.nonce x

/-- The nonces of the two sides are apart. -/
def Apart (N : Side → ℕ → Prop) : Prop := ∀ n, ¬ (N .outbound n ∧ N .inbound n)

theorem Apart.not_both (h : Apart N) (x : Side) (n : ℕ) : ¬ (N x n ∧ N x.other n) := by
  cases x with
  | outbound => exact h n
  | inbound => exact fun hn => h n hn.symm

theorem Link.Invariant.nonce_ne (h : s.Invariant B N) (hapart : Apart N) (x : Side) {n : ℕ}
    (hn : N x.other n) : ¬ (n = (s x).nLocalHostNonce ∧ n > 1) := by
  rintro ⟨heq, hgt⟩
  obtain hzero | hmine := h.nonce x
  · omega
  · rw [← heq] at hmine
    exact hapart.not_both x n ⟨hmine, hn⟩

/-- **Every event keeps the invariant.** -/
theorem Link.Invariant.next (h : s.Invariant B N) (hspeaks : ∀ x, (B x).Speaks) (hapart : Apart N)
    {e : HandshakeEvent} (hlegal : e.legal N s) :
    Link.Invariant B N (HandshakeEvent.next clock A B s e) := by
  cases e with
  | process x env =>
    obtain ⟨-, hne, hdraw⟩ := hlegal
    obtain ⟨w, rest, hsend⟩ := List.exists_cons_of_ne_nil hne
    have hin : Channel (B x.other) (B x) (N x.other) (s x.other) (s x) := by
      have hother := h.channel x.other
      rwa [Side.other_other] at hother
    have hnonce (n : ℕ) (hn : N x.other n) := h.nonce_ne hapart x hn
    have hread : Channel (B x.other) (B x) (N x.other) { s x.other with vSend := rest }
        (processMessage clock A (B x) env (s x) w.msg) :=
      hin.read (hspeaks x.other) hnonce hsend
    have hwrite : Channel (B x) (B x.other) (N x)
        (processMessage clock A (B x) env (s x) w.msg) { s x.other with vSend := rest } ∧ _ ∧ _ :=
      (h.channel x).write hin (hspeaks x.other) hnonce hdraw hsend
    obtain ⟨hout, hinbound, hkeep⟩ := hwrite
    have hnext : HandshakeEvent.next clock A B s (.process x env) = fun y =>
        if y = x then processMessage clock A (B x) env (s x) w.msg
        else { s y with vSend := rest } := by
      simp only [HandshakeEvent.next, hsend, Written.read, if_pos (hin.nVersion_eq hsend)]
    rw [hnext]
    refine ⟨fun y => ?_, fun y => ?_, fun y => ?_⟩ <;> by_cases hy : y = x
    · subst hy
      simp only [if_true, if_neg y.other_ne]
      exact hout
    · obtain rfl := Side.eq_other_of_ne hy
      simp only [Side.other_other, if_true, if_neg hy]
      exact hread
    · subst hy
      simp only [if_true, hinbound, h.fInbound]
    · simp only [if_neg hy, h.fInbound]
    · subst hy
      simp only [if_true]
      obtain hkeep | hkeep := hkeep <;> rw [hkeep]
      · exact h.nonce y
      · exact .inr hdraw
    · simp only [if_neg hy]
      exact h.nonce y
  | relayAlert x alert n =>
    exact h.chats (chats_relayTo (fun _ => .inl rfl) (B x) alert n (s x))
  | sendMessages x strCommand vch =>
    exact h.chats (chats_pushMessage (.inr ⟨hlegal, rfl⟩) (s x))
  | tellAnother x nonce =>
    exact h.update ((h.channel x).congr rfl rfl rfl rfl) rfl rfl rfl rfl (.inr hlegal)
  | close x =>
    exact h.update ((h.channel x).congr rfl rfl rfl rfl) rfl rfl rfl rfl (h.nonce x)

/-- A connection that has just been made. -/
theorem Link.Invariant.start (h : HandshakeStart B N s) : s.Invariant B N := by
  obtain ⟨⟨fLocal, nLocalHostNonce, nonce, nBestHeight, hN, hout⟩, fLocal', nLocalHostNonce',
    hzero, hin⟩ := h
  have hnamed : Path (Talk (B .outbound) (B .inbound) (N .outbound)) .silent
      (s .outbound).vSend .named := by
    rw [hout]
    exact Path.single (.version _ _ _ _ hN)
  refine ⟨fun x => ?_, fun x => ?_, fun x => ?_⟩ <;> cases x
  · refine ⟨⟨.silent, .named, ?_, ?_, hnamed, ?_⟩, ⟨[], ⟨[], ?_, ?_⟩, ?_, ?_⟩, ?_⟩
    · show Heard _ _ (s .inbound) .silent
      rw [hin]
      exact ⟨rfl, rfl, rfl⟩
    · rw [hout]
      exact ⟨rfl, rfl, rfl⟩
    · rw [hout] at hnamed ⊢
      exact hnamed
    · rw [hout]
      rfl
    · show (s .inbound).processed = _
      rw [hin]
      rfl
    · simp
    · show (s .inbound).nMisbehavior = if (s .inbound).fLocal then 0 else _ + (s .inbound).nReported
      rw [hin]
      simp [CNode.new, CNode.init]
    · rw [hout]
      exact fun _ => ⟨_, _, rfl, rfl⟩
  · refine ⟨⟨.silent, .silent, ?_, ?_, ?_, ?_⟩, ⟨[], ⟨[], ?_, ?_⟩, ?_, ?_⟩, ?_⟩
    · show Heard _ _ (s .outbound) .silent
      rw [hout]
      exact ⟨rfl, rfl, rfl⟩
    · rw [hin]
      exact ⟨rfl, rfl, rfl⟩
    · rw [hin]
      exact .nil _
    · rw [hin]
      exact .nil _
    · rw [hin]
      rfl
    · show (s .outbound).processed = _
      rw [hout]
      rfl
    · simp
    · show (s .outbound).nMisbehavior =
        if (s .outbound).fLocal then 0 else _ + (s .outbound).nReported
      rw [hout]
      simp [CNode.new, CNode.init, CNode.pushVersion, CNode.pushMessage]
    · rw [hin]
      exact fun hfalse => absurd hfalse (by simp [CNode.new, CNode.init])
  · rw [hout]
    rfl
  · rw [hin]
    rfl
  · rw [hout]
    exact .inr hN
  · rw [hin]
    exact hzero

theorem invariant_of_reachable (hspeaks : ∀ x, (B x).Speaks) (hapart : Apart N)
    (h : Reachable (handshakeSystem clock A B N) s) : s.Invariant B N :=
  h.invariant (fun _ => .start) fun _ _ hs hlegal _ => hs.next hspeaks hapart hlegal

/-! ## What the two sides make of each other -/

/-- Both have connected, and write and read under the smaller of their versions. -/
def Connected (B : Side → Build) (s : Link) (x : Side) : Prop :=
  (s x).fSuccessfullyConnected = true ∧ (s x).nVersion = (B x.other).PROTOCOL_VERSION ∧
    (s x).vSendVersion = min (B x.other).PROTOCOL_VERSION (B x).PROTOCOL_VERSION ∧
    (s x).vRecvVersion = min (B x.other).PROTOCOL_VERSION (B x).PROTOCOL_VERSION

/-- One side has told its version at most once, and that it knows the other's at most once. -/
theorem Channel.once {Bs Br : Build} {Ns : ℕ → Prop} {s r : CNode} (h : Channel Bs Br Ns s r) :
    s.pushed.countP (fun w => w.msg.isVersion) ≤ 1 ∧
      s.pushed.countP (fun w => w.msg.isVerack) ≤ 1 := by
  obtain ⟨heard, said, -, -, -, hall⟩ := h.inStep
  let named : Phase → ℕ := fun | .silent => 0 | _ => 1
  let agreed : Phase → ℕ := fun | .agreed => 1 | _ => 0
  have hnot {msg : Message} (hchat : msg.isChat) :
      msg.isVersion = false ∧ msg.isVerack = false := by
    simpa [Message.isChat] using hchat
  have hnamed : named said = named .silent + s.pushed.countP fun w => w.msg.isVersion := by
    refine hall.count ?_
    intro t w t' hm
    cases hm with
    | chat msg hchat => simp [named, hnot hchat]
    | _ => simp [named, Message.isVersion]
  have hagreed : agreed said = agreed .silent + s.pushed.countP fun w => w.msg.isVerack := by
    refine hall.count ?_
    intro t w t' hm
    cases hm with
    | chat msg hchat => simp [agreed, hnot hchat]
    | _ => simp [agreed, Message.isVerack]
  constructor <;> cases said <;> simp only [named, agreed] at hnamed hagreed <;> omega

/-- Nothing is read too early from the side that made the connection. -/
theorem Channel.early_eq_nil {Bs Br : Build} {Ns : ℕ → Prop} {s r : CNode} {early l : List Written}
    (h : Channel Bs Br Ns s r) (hout : s.fInbound = false) (hpushed : s.pushed = early ++ l)
    (halerts : ∀ w ∈ early, w.msg.isAlert) : early = [] := by
  obtain ⟨w, l', hl, hversion⟩ := h.first hout
  cases early with
  | nil => rfl
  | cons w' early =>
    obtain ⟨rfl, -⟩ : w = w' ∧ _ := List.cons.inj (hl.symm.trans hpushed)
    have halert := halerts w List.mem_cons_self
    obtain ⟨nVersion, msg⟩ := w
    cases msg <;> simp [Message.isAlert, Message.isVersion] at halert hversion

/-- **When nothing is on its way, both sides are connected.** -/
theorem Link.Invariant.connected (h : s.Invariant B N) (hspeaks : ∀ x, (B x).Speaks)
    (hquiet : ∀ x, (s x).vSend = []) (x : Side) : Connected B s x := by
  have hphase (x : Side) : ∃ phase, Heard (B x) (B x.other) (s x.other) phase ∧
      Said (B x) (B x.other) (s x) phase := by
    obtain ⟨heard, said, hheard, hsaid, hqueue, -⟩ := (h.channel x).inStep
    rw [hquiet x] at hqueue
    obtain rfl := hqueue.eq_of_nil
    exact ⟨heard, hheard, hsaid⟩
  have hne (x : Side) := (hspeaks x).ne_zero
  obtain ⟨phaseOut, hheardOut, hsaidOut⟩ := hphase .outbound
  obtain ⟨phaseIn, hheardIn, hsaidIn⟩ := hphase .inbound
  have hout : (s .outbound).fInbound = false := h.fInbound .outbound
  have hin : (s .inbound).fInbound = true := h.fInbound .inbound
  -- the side that made the connection has told its version, so the other one has heard it
  have hknown : (s .inbound).nVersion ≠ 0 := by
    cases phaseOut with
    | silent => exact absurd (hout.symm.trans hsaidOut.1) (by simp)
    | named => exact hheardOut.1.trans_ne (hne .outbound)
    | agreed => exact hheardOut.1.trans_ne (hne .outbound)
  obtain rfl : phaseIn = .agreed := by
    cases phaseIn with
    | silent => exact absurd hsaidIn.2.1 hknown
    | named => exact absurd (hin.symm.trans hsaidIn.1) (by simp)
    | agreed => rfl
  obtain rfl : phaseOut = .agreed := by
    cases phaseOut with
    | silent => exact absurd (hout.symm.trans hsaidOut.1) (by simp)
    | named => exact absurd hsaidOut.2.1 (hheardIn.1.trans_ne (hne .inbound))
    | agreed => rfl
  cases x with
  | outbound => exact ⟨hsaidOut.2.1, hsaidOut.1, hsaidOut.2.2, hheardIn.2.trans (min_comm _ _)⟩
  | inbound => exact ⟨hsaidIn.2.1, hsaidIn.1, hsaidIn.2.2, hheardOut.2.trans (min_comm _ _)⟩

/-! ## Every connection can be completed -/

/-- Nothing happens but what the handshake asks for. -/
def Surroundings.calm (nonce : ℕ) : Surroundings where
  nonce := nonce
  nBestHeight := 0
  addrmanSize := 0
  nAskedForBlocks := 0
  vNodesSize := 0
  fOneShot := false
  mapAlerts := []
  nReading := 0
  vchLocator := []
  fProcessAlert := false
  replies := []
  nDoS := 0
  garbled := .verack

/-- What is left to do for a side. -/
def CNode.toDo (p : CNode) : ℕ := p.vSend.length + if p.nVersion = 0 then 5 else 0

theorem length_askForNews_calm (B : Build) (nonce : ℕ) (p : CNode) :
    (askForNews clock A B (.calm nonce) p).vSend.length ≤ p.vSend.length + 2 := by
  have hone (c : Bool) (p q : CNode) (hq : q.vSend.length = p.vSend.length + 1) :
      (if c then q else p).vSend.length ≤ p.vSend.length + 1 := by
    split_ifs <;> omega
  unfold askForNews
  dsimp only [Surroundings.calm, relayAlerts]
  exact (hone _ _ _ (by simp [CNode.pushMessage])).trans
    (Nat.add_le_add_right (hone _ _ _ (by simp [CNode.pushMessage])) 1)

theorem length_answerVersion (B : Build) (env : Surroundings) (p : CNode) :
    (answerVersion B env p).vSend.length ≤ p.vSend.length + 2 := by
  rw [answerVersion_vSend, List.length_append, answers]
  split_ifs <;> simp

theorem toDo_misbehaving (B : Build) (p : CNode) (howmuch : ℤ) :
    (p.misbehaving B howmuch).toDo = p.toDo := by
  have hmouth := mouth_misbehaving B p howmuch
  simp only [CNode.mouth, Prod.mk.injEq] at hmouth
  rw [CNode.toDo, CNode.toDo, hmouth.2.1, hmouth.2.2.2.2.1]

/-- A side that has heard the version of the other has at most four messages more to send. -/
theorem toDo_introduced (B : Build) (nonce : ℕ) (p : CNode) (hne : p.nVersion ≠ 0) :
    CNode.toDo { askForNews clock A B (.calm nonce) (answerVersion B (.calm nonce) p) with
      fSuccessfullyConnected := true } ≤ p.vSend.length + 4 := by
  have hchats : Chats (fun msg => msg.isChat) (answerVersion B (.calm nonce) p)
      (askForNews clock A B (.calm nonce) (answerVersion B (.calm nonce) p)) :=
    chats_askForNews (fun _ h => h) B _ _
  have hversion : (askForNews clock A B (.calm nonce) (answerVersion B (.calm nonce) p)).nVersion =
      p.nVersion :=
    (hchats.field CNode.nVersion fun _ _ => rfl).trans (answerVersion_nVersion B _ p)
  have hanswer := length_answerVersion B (.calm nonce) p
  have hask := @length_askForNews_calm clock A B nonce (answerVersion B (.calm nonce) p)
  simp only [CNode.toDo, hversion, if_neg hne]
  omega

/-- Taking a message does not make more to do. -/
theorem toDo_processMessage_calm (B : Build) (nonce : ℕ) (p : CNode) (msg : Message) :
    (processMessage clock A B (.calm nonce) p msg).toDo ≤ p.toDo := by
  have hmis := toDo_misbehaving B p 1
  cases msg with
  | version nVersion nServices nNonce strSubVer nStartingHeight =>
    by_cases hzero : p.nVersion = 0
    · have hversion : processMessage clock A B (.calm nonce) p
          (.version nVersion nServices nNonce strSubVer nStartingHeight) =
          processVersion clock A B (.calm nonce)
            (p.note (.version nVersion nServices nNonce strSubVer nStartingHeight)) nVersion
            nServices nNonce strSubVer nStartingHeight := if_neg (not_not.mpr hzero)
      have hdo : p.toDo = p.vSend.length + 5 := by rw [CNode.toDo, if_pos hzero]
      have hstay (q : CNode) (hq : q.vSend = p.vSend) : q.toDo ≤ p.toDo := by
        rw [hdo, CNode.toDo, hq]
        split_ifs <;> omega
      rw [hversion]
      unfold processVersion
      dsimp only
      split_ifs with hold h10300 hself hself
      · exact hstay _ rfl
      · exact hstay _ rfl
      · have hne : (300 : ℤ) ≠ 0 := by decide
        exact (toDo_introduced B nonce _ hne).trans (by rw [hdo]; exact Nat.le_succ _)
      · exact hstay _ rfl
      · refine (toDo_introduced B nonce _ ?_).trans (by rw [hdo]; exact Nat.le_succ _)
        unfold MIN_PROTO_VERSION at hold
        show nVersion ≠ 0
        omega
    · have hagain : processMessage clock A B (.calm nonce) p
          (.version nVersion nServices nNonce strSubVer nStartingHeight) = p.misbehaving B 1 :=
        if_pos hzero
      rw [hagain]
      exact hmis.le
  | verack =>
    by_cases hzero : p.nVersion = 0
    · rw [processMessage_early hzero rfl]
      exact hmis.le
    · simp only [processMessage, if_neg hzero]
      exact le_rfl
  | alert alert =>
    by_cases hzero : p.nVersion = 0
    · rw [processMessage_early hzero rfl]
      exact hmis.le
    · simp only [processMessage, if_neg hzero]
      exact le_rfl
  | other strCommand vch =>
    by_cases hzero : p.nVersion = 0
    · rw [processMessage_early hzero rfl]
      exact hmis.le
    · simp only [processMessage, if_neg hzero]
      exact le_rfl

/-- What is left to do for both. -/
def Link.toDo (s : Link) : ℕ := (s .outbound).toDo + (s .inbound).toDo

theorem Link.toDo_eq (s : Link) (x : Side) : s.toDo = (s x).toDo + (s x.other).toDo := by
  cases x
  · rfl
  · exact Nat.add_comm _ _

/-- A delivery leaves less to do. -/
theorem toDo_process_lt (s : Link) (x : Side) (nonce : ℕ) (hne : (s x.other).vSend ≠ []) :
    (HandshakeEvent.next clock A B s (.process x (.calm nonce))).toDo < s.toDo := by
  obtain ⟨w, rest, hsend⟩ := List.exists_cons_of_ne_nil hne
  rw [Link.toDo_eq _ x, s.toDo_eq x]
  simp only [HandshakeEvent.next, hsend, if_true, if_neg x.other_ne]
  have htaken := @toDo_processMessage_calm clock A (B x) nonce (s x)
    (w.read (s x).vRecvVersion (Surroundings.calm nonce).garbled)
  have hpopped : CNode.toDo { s x.other with vSend := rest } < (s x.other).toDo := by
    simp only [CNode.toDo, hsend, List.length_cons]
    omega
  exact Nat.add_lt_add_of_le_of_lt htaken hpopped

/-- **Every connection can be completed**: from every state that is reached, deliveries alone lead
to a state in which nothing is on its way, unless a side closes the connection. -/
theorem exists_deliveries (hdraw : ∀ x, ∃ n, N x n)
    (h : Reachable (handshakeSystem clock A B N) s) :
    ∃ es : List HandshakeEvent, (∀ e ∈ es, ∃ x nonce, e = .process x (.calm nonce)) ∧
      es.length ≤ s.toDo ∧ (handshakeSystem clock A B N).Allows (fun _ _ => True) s es ∧
      ((∃ x, ((handshakeSystem clock A B N).run s es x).fClosed = true) ∨
        ∀ x, ((handshakeSystem clock A B N).run s es x).vSend = []) := by
  induction hn : s.toDo using Nat.strong_induction_on generalizing s with
  | _ n ih =>
    -- every delivery leaves less to do, so they come to an end
    by_cases hdone : (∃ x, (s x).fClosed = true) ∨ ∀ x, (s x).vSend = []
    · exact ⟨[], by simp, Nat.zero_le _, trivial, hdone⟩
    · obtain ⟨hopen, hbusy⟩ := not_or.mp hdone
      obtain ⟨y, hy⟩ := not_forall.mp hbusy
      obtain ⟨nonce, hN⟩ := hdraw y.other
      have hne : (s y.other.other).vSend ≠ [] := by rwa [Side.other_other]
      have hlegal : HandshakeEvent.legal N s (.process y.other (.calm nonce)) :=
        ⟨Bool.eq_false_of_not_eq_true fun hclosed => hopen ⟨_, hclosed⟩, hne, hN⟩
      have hlt := @toDo_process_lt clock A B s y.other nonce hne
      obtain ⟨es, hes, hlength, hallows, hend⟩ := ih _ (hn ▸ hlt)
        (h.next (.process y.other (.calm nonce)) hlegal trivial) rfl
      refine ⟨.process y.other (.calm nonce) :: es, ?_, ?_, ⟨⟨hlegal, trivial⟩, hallows⟩, hend⟩
      · intro e he
        obtain rfl | he := List.mem_cons.mp he
        · exact ⟨_, _, rfl⟩
        · exact hes e he
      · rw [List.length_cons]
        have hle : es.length ≤ (HandshakeEvent.next clock A B s
            (.process y.other (.calm nonce))).toDo := hlength
        omega

/-! ## The handshake -/

/-- What the version handshake promises, whatever has happened so far. -/
structure Link.Sound (B : Side → Build) (s : Link) : Prop where
  /-- The next message is read under the version it was written under. -/
  read : ∀ x w rest, (s x.other).vSend = w :: rest → w.nVersion = (s x).vRecvVersion
  /-- What a side has processed is what the other has pushed, in order and unchanged, up to what is
  still on its way. Only alerts that were pushed before the version message are lost, each of them
  is taken for misbehavior, and the side that made the connection pushes none of them. -/
  kept : ∀ x, ∃ early read : List Written,
    (s x).pushed = early ++ read ++ (s x).vSend ∧
    (s x.other).processed = read.map (·.msg) ∧ (∀ w ∈ early, w.msg.isAlert) ∧
    (x = .outbound → early = []) ∧
    (s x.other).nMisbehavior =
      if (s x.other).fLocal then 0 else early.length + (s x.other).nReported
  /-- Each side tells its version at most once, and that it knows the other's at most once. -/
  once : ∀ x, (s x).pushed.countP (fun w => w.msg.isVersion) ≤ 1 ∧
    (s x).pushed.countP (fun w => w.msg.isVerack) ≤ 1
  /-- When nothing is on its way, both sides are connected. -/
  connected : (∀ x, (s x).vSend = []) → ∀ x, Connected B s x

/-- **The version handshake**, for every order in which messages, alerts and other events come. -/
theorem handshake_sound (hspeaks : ∀ x, (B x).Speaks) (hapart : Apart N) (hdraw : ∀ x, ∃ n, N x n)
    (h : Reachable (handshakeSystem clock A B N) s) :
    s.Sound B ∧ ∃ es : List HandshakeEvent,
      (∀ e ∈ es, ∃ x nonce, e = .process x (.calm nonce)) ∧ es.length ≤ s.toDo ∧
      (handshakeSystem clock A B N).Allows (fun _ _ => True) s es ∧
      ((∃ x, ((handshakeSystem clock A B N).run s es x).fClosed = true) ∨
        ∀ x, Connected B ((handshakeSystem clock A B N).run s es) x) := by
  have hinv := invariant_of_reachable hspeaks hapart h
  refine ⟨⟨fun x w rest hsend => ?_, fun x => ?_, fun x => (hinv.channel x).once,
    hinv.connected hspeaks⟩, ?_⟩
  · have hother := hinv.channel x.other
    rw [Side.other_other] at hother
    exact hother.nVersion_eq hsend
  · obtain ⟨early, ⟨read, hpushed, hprocessed⟩, halerts, hmis⟩ := (hinv.channel x).kept
    refine ⟨early, read, hpushed, hprocessed, halerts, ?_, hmis⟩
    rintro rfl
    rw [List.append_assoc] at hpushed
    exact (hinv.channel .outbound).early_eq_nil (hinv.fInbound .outbound) hpushed halerts
  · obtain ⟨es, hes, hlength, hallows, hend⟩ := exists_deliveries hdraw h
    refine ⟨es, hes, hlength, hallows, hend.imp_right fun hquiet => ?_⟩
    exact (invariant_of_reachable hspeaks hapart (h.run hallows)).connected hspeaks hquiet

/-- An alert for everyone. -/
def exampleAlert : CAlert where
  nVersion := 1
  nRelayUntil := 10
  nExpiration := 10
  nID := 1
  nCancel := 0
  setCancel := ∅
  nMinVer := 0
  nMaxVer := 70000
  setSubVer := ∅
  nPriority := 1
  strComment := []
  strStatusBar := []
  strReserved := []
  vchMsg := []
  vchSig := []

/-- The version of this program. -/
def exampleBuild : Side → Build := fun _ => ⟨60001, 1, [], 100⟩

/-- The nonces 5 and 7. -/
def exampleNonces : Side → ℕ → Prop
  | .outbound, n => n = 5
  | .inbound, n => n = 7

/-- A new connection. -/
def newLink : Link
  | .outbound => .new (exampleBuild .outbound) false false 0 5 0
  | .inbound => .new (exampleBuild .inbound) true false 0 0 0

/-- The inbound side relays an alert before the version message of the other side has arrived. -/
def earlyAlertLink : Link :=
  (handshakeSystem (fun _ => 0) exampleAlertParams exampleBuild exampleNonces).run newLink
    [.relayAlert .inbound exampleAlert 0, .process .outbound (.calm 5), .process .inbound (.calm 7)]

theorem handshake_sound_earlyAlertLink : (earlyAlertLink .outbound).nMisbehavior = 1 ∧
    earlyAlertLink.Sound exampleBuild := by
  have hstart : Reachable
      (handshakeSystem (fun _ => 0) exampleAlertParams exampleBuild exampleNonces) newLink :=
    .start ⟨⟨false, 0, 5, 0, rfl, rfl⟩, false, 0, .inl rfl, rfl⟩
  have hreach : Reachable
      (handshakeSystem (fun _ => 0) exampleAlertParams exampleBuild exampleNonces)
      earlyAlertLink := by
    refine hstart.run
      ⟨⟨trivial, trivial⟩, ⟨⟨rfl, ?_, rfl⟩, trivial⟩, ⟨⟨rfl, ?_, rfl⟩, trivial⟩, trivial⟩
    · decide
    · decide
  have hapart : Apart exampleNonces := by
    rintro n ⟨hout, hin⟩
    exact absurd (hout.symm.trans hin) (by decide)
  have hdraw : ∀ x, ∃ n, exampleNonces x n := by
    intro x
    cases x with
    | outbound => exact ⟨5, rfl⟩
    | inbound => exact ⟨7, rfl⟩
  have hspeaks : ∀ x, (exampleBuild x).Speaks := fun _ =>
    ⟨show (209 : ℤ) ≤ 60001 by decide, show (60001 : ℤ) ≠ 10300 by decide⟩
  exact ⟨rfl, (handshake_sound hspeaks hapart hdraw hreach).1⟩

end FoxCoin.Handshake
