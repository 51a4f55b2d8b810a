import FoxCoin.AddrFile
import FoxCoin.Lib.Incremental

/-! # Messages on the wire

A message has a header with a start string, the command, the size and a checksum, and a payload.
`CNode` builds messages at the end of its send buffer; `ProcessMessages` looks for them in the bytes
that have arrived so far. -/

namespace FoxCoin

open Wire

/-! ## Streams -/

/-- `CDataStream`: the bytes before `nReadPos` have been read. -/
structure CDataStream where
  vch : List UInt8
  nReadPos : ℕ
  deriving DecidableEq

namespace CDataStream

/-- The bytes from `begin` to `end`. -/
def content (s : CDataStream) : List UInt8 := s.vch.drop s.nReadPos

def size (s : CDataStream) : ℕ := s.vch.length - s.nReadPos

/-- Bytes from the socket, put at the end. -/
def append (s : CDataStream) (bytes : List UInt8) : CDataStream := { s with vch := s.vch ++ bytes }

/-- `erase` of the first `n` bytes. -/
def eraseFront (s : CDataStream) (n : ℕ) : CDataStream :=
  if s.nReadPos + n = s.vch.length then ⟨[], 0⟩ else { s with nReadPos := s.nReadPos + n }

/-- `insert` at the front, into the bytes that have been read when there is room. -/
def insertFront (s : CDataStream) (bytes : List UInt8) : CDataStream :=
  if bytes.length ≤ s.nReadPos then
    { vch := s.vch.take (s.nReadPos - bytes.length) ++ bytes ++ s.vch.drop s.nReadPos
      nReadPos := s.nReadPos - bytes.length }
  else { s with vch := s.vch.take s.nReadPos ++ bytes ++ s.vch.drop s.nReadPos }

/-- `ignore`. It throws at the end of the data. -/
def ignore (s : CDataStream) (nSize : ℕ) : Option CDataStream :=
  let nReadPosNext := s.nReadPos + nSize
  if s.vch.length ≤ nReadPosNext then
    if s.vch.length < nReadPosNext then none else some ⟨[], 0⟩
  else some { s with nReadPos := nReadPosNext }

/-- `read`. It throws at the end of the data. -/
def read (nSize : ℕ) : StateT CDataStream Option (List UInt8) := fun s =>
  (s.ignore nSize).map fun s' => (s.content.take nSize, s')

/-- `Compact`. -/
def compact (s : CDataStream) : CDataStream := ⟨s.content, 0⟩

end CDataStream

/-! ## Headers -/

/-- The start string of a network, and the hash. -/
structure NetParams where
  pchMessageStart : Vector UInt8 4
  hash : List UInt8 → ℕ

/-- `CMessageHeader`. -/
structure CMessageHeader where
  pchMessageStart : List UInt8
  pchCommand : List UInt8
  nMessageSize : ℕ
  nChecksum : ℕ
  deriving DecidableEq

variable (N : NetParams)

/-- The first four bytes of the hash, as a number. -/
def checksum (bytes : List UInt8) : ℕ := N.hash bytes % 2 ^ 32

/-- `strncpy` into the twelve bytes of a command. -/
def copyCommand (pszCommand : List UInt8) : List UInt8 :=
  (pszCommand.takeWhile (· ≠ 0) ++ List.replicate 12 0).take 12

namespace CMessageHeader

/-- `CMessageHeader(pszCommand, nMessageSizeIn)`. -/
def new (pszCommand : List UInt8) (nMessageSizeIn : ℕ) : CMessageHeader where
  pchMessageStart := N.pchMessageStart.toList
  pchCommand := copyCommand pszCommand
  nMessageSize := nMessageSizeIn
  nChecksum := 0

/-- `Serialize` of a header. -/
def serialize (hdr : CMessageHeader) : List UInt8 :=
  hdr.pchMessageStart ++ hdr.pchCommand ++ leBytes 4 hdr.nMessageSize ++ leBytes 4 hdr.nChecksum

/-- `Unserialize` of a header. -/
def read : StateT CDataStream Option CMessageHeader := do
  let pchMessageStart ← CDataStream.read 4
  let pchCommand ← CDataStream.read 12
  let nMessageSize ← CDataStream.read 4
  let nChecksum ← CDataStream.read 4
  return ⟨pchMessageStart, pchCommand, ofLeBytes nMessageSize, ofLeBytes nChecksum⟩

/-- The loop of `IsValid` over the command. -/
def isValidCommand : List UInt8 → Bool
  | [] => true
  | c :: rest =>
    if c = 0 then rest.all (· = 0) else if c < 32 ∨ 126 < c then false else isValidCommand rest

/-- `IsValid`. -/
def isValid (hdr : CMessageHeader) : Bool :=
  if hdr.pchMessageStart ≠ N.pchMessageStart.toList then false
  else if !isValidCommand hdr.pchCommand then false
  else decide (hdr.nMessageSize ≤ maxSize)

/-- `GetCommand`. -/
def getCommand (hdr : CMessageHeader) : List UInt8 :=
  if hdr.pchCommand.getLast? = some 0 then hdr.pchCommand.takeWhile (· ≠ 0) else hdr.pchCommand

end CMessageHeader

/-! ## Receiving -/

/-- A message as it is given to `ProcessMessage`. -/
structure NetMessage where
  strCommand : List UInt8
  vMsg : List UInt8
  deriving DecidableEq

/-- `std::search`: where the pattern occurs first, the end when it does not. -/
def search (pattern : List UInt8) : List UInt8 → ℕ
  | [] => 0
  | c :: rest => if pattern.isPrefixOf (c :: rest) then 0 else search pattern rest + 1

/-- What a round of the loop of `ProcessMessages` comes to. -/
inductive Round where
  | done (vRecv : CDataStream)
  | next (vRecv : CDataStream)
  | dispatch (msg : NetMessage) (vRecv : CDataStream)

/-- A round of the loop of `ProcessMessages`, when there is room in the send buffer. It throws when
a read comes to the end of the data. -/
def receiveRound (vRecv : CDataStream) : Option Round :=
  let pstart := search N.pchMessageStart.toList vRecv.content
  if vRecv.size - pstart < 24 then
    some (.done (if 24 < vRecv.size then vRecv.eraseFront (vRecv.size - 24) else vRecv))
  else
    let vRecv := vRecv.eraseFront pstart
    let vHeaderSave := vRecv.content.take 24
    (CMessageHeader.read vRecv).bind fun (hdr, vRecv) =>
      if !hdr.isValid N then some (.next vRecv)
      else if maxSize < hdr.nMessageSize then some (.next vRecv)
      else if vRecv.size < hdr.nMessageSize then some (.done (vRecv.insertFront vHeaderSave))
      else if checksum N (vRecv.content.take hdr.nMessageSize) ≠ hdr.nChecksum then some (.next vRecv)
      else
        let vMsg := vRecv.content.take hdr.nMessageSize
        (vRecv.ignore hdr.nMessageSize).map (.dispatch ⟨hdr.getCommand, vMsg⟩)

/-- The loop of `ProcessMessages`: the messages it dispatches, and what stays in the buffer. -/
def receiveLoop : ℕ → CDataStream → Option (List NetMessage × CDataStream)
  | 0, _ => none
  | fuel + 1, vRecv =>
    match receiveRound N vRecv with
    | none => none
    | some (.done vRecv) => some ([], vRecv)
    | some (.next vRecv) => receiveLoop fuel vRecv
    | some (.dispatch msg vRecv) => (receiveLoop fuel vRecv).map fun out => (msg :: out.1, out.2)

/-- `ProcessMessages`. Every round but the last takes bytes from the buffer. -/
def processMessages (vRecv : CDataStream) : Option (List NetMessage × CDataStream) :=
  if vRecv.size = 0 then some ([], vRecv)
  else (receiveLoop N (vRecv.size + 1) vRecv).map fun out => (out.1, out.2.compact)

/-- The messages that are dispatched while chunks of a stream arrive, with a call of
`ProcessMessages` after each. -/
def receive : List (List UInt8) → CDataStream → Option (List NetMessage × CDataStream)
  | [], vRecv => some ([], vRecv)
  | chunk :: chunks, vRecv =>
    (processMessages N (vRecv.append chunk)).bind fun out =>
      (receive chunks out.2).map fun out' => (out.1 ++ out'.1, out'.2)

/-- The messages that a new connection dispatches. -/
def dispatched (chunks : List (List UInt8)) : Option (List NetMessage) :=
  (receive N chunks ⟨[], 0⟩).map Prod.fst

/-! ## Sending -/

/-- The part of `CNode` that messages are built in. An offset of -1 is `none`. -/
structure CNodeSend where
  vSend : List UInt8
  nHeaderStart : Option ℕ
  nMessageStart : Option ℕ

namespace CNodeSend

/-- A `memcpy` into the buffer. -/
def overwrite (vSend : List UInt8) (nPos : ℕ) (bytes : List UInt8) : List UInt8 :=
  vSend.take nPos ++ bytes ++ vSend.drop (nPos + bytes.length)

/-- `AbortMessage`. -/
def abortMessage (node : CNodeSend) : CNodeSend :=
  match node.nHeaderStart with
  | none => node
  | some nHeaderStart => ⟨node.vSend.take nHeaderStart, none, none⟩

/-- `BeginMessage`. -/
def beginMessage (node : CNodeSend) (pszCommand : List UInt8) : CNodeSend :=
  let node := node.abortMessage
  let vSend := node.vSend ++ (CMessageHeader.new N pszCommand 0).serialize
  ⟨vSend, some node.vSend.length, some vSend.length⟩

/-- `vSend << obj`, with the bytes of the object. -/
def write (node : CNodeSend) (bytes : List UInt8) : CNodeSend :=
  { node with vSend := node.vSend ++ bytes }

/-- `EndMessage`, and whether it drops the message for a test. -/
def endMessage (node : CNodeSend) (fDrop : Bool) : CNodeSend :=
  if fDrop then node.abortMessage
  else
    match node.nHeaderStart, node.nMessageStart with
    | some nHeaderStart, some nMessageStart =>
      let nSize := node.vSend.length - nMessageStart
      let vSend := overwrite node.vSend (nHeaderStart + 16) (leBytes 4 nSize)
      let nChecksum := checksum N (vSend.drop nMessageStart)
      ⟨overwrite vSend (nHeaderStart + 20) (leBytes 4 nChecksum), none, none⟩
    | _, _ => node

/-- The bytes that may go to the socket: a message that is being built holds the lock. -/
def complete (node : CNodeSend) : List UInt8 :=
  node.vSend.take (node.nHeaderStart.getD node.vSend.length)

end CNodeSend

/-- A call that builds messages. -/
inductive SendCall where
  | beginMessage (pszCommand : List UInt8)
  | write (bytes : List UInt8)
  | endMessage (fDrop : Bool)
  | abortMessage

/-- The send buffer after a call. -/
def CNodeSend.call (node : CNodeSend) : SendCall → CNodeSend
  | .beginMessage pszCommand => node.beginMessage N pszCommand
  | .write bytes => node.write bytes
  | .endMessage fDrop => node.endMessage N fDrop
  | .abortMessage => node.abortMessage

/-- The send buffer of a new connection after a sequence of calls. -/
def sendAll (calls : List SendCall) : CNodeSend := calls.foldl (CNodeSend.call N) ⟨[], none, none⟩

end FoxCoin
