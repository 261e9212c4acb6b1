import NetLib.Buffer.Ring
import NetLib.Slot.Types
/-!
# `RecvExecutable::Execute`

One receive of one session: the kernel writes into the posted buffers,
`Execute` reads the packets that are complete and posts the next receive.
`none` is a throw, a `__debugbreak()`, a failed `ASSERT_CRASH`, or a loop
out of fuel.
-/

namespace NetLib

/-- What a packet handler does with its `CRecvBuffer`: one `>>` after the
other, each depending on what was read before. -/
inductive Reader
  | done
  | read (size : ℕ) (k : List Byte → Reader)

namespace Reader

/-- The handler run on a `CRecvBuffer` with `size` bytes left: what it read,
the ring, and what is left. -/
def run : Reader → CRingBuffer → ℕ → Option (List Byte × CRingBuffer × ℕ)
  | .done, buffer, size => some ([], buffer, size)
  | .read n k, buffer, size =>
    if size < n then none
    else
      (buffer.peek n).bind fun bytes =>
        (buffer.dequeue n).bind fun dequeued =>
          ((k bytes).run dequeued.2 (size - n)).map fun res => (bytes ++ res.1, res.2)

/-- The handler reads exactly `n` bytes, whatever they are. -/
def Exact : Reader → ℕ → Prop
  | .done, n => n = 0
  | .read m k, n => m ≤ n ∧ ∀ bytes : List Byte, bytes.length = m → (k bytes).Exact (n - m)

end Reader

/-- `OnRecvPacket`: what it does with a packet of a given length, after the
packets it has been given before. -/
abbrev Handler := List (List Byte) → ℕ → Reader

/-- The session, as far as receiving goes. -/
structure Session where
  /-- `_sessionId` -/
  sessionId : SessionID
  /-- `_groupId` -/
  groupId : GroupID
  /-- `_isHandled` -/
  isHandled : Bool
  /-- `_staticKey` -/
  staticKey : Byte
  /-- `_maxPacketLen` -/
  maxPacketLen : ℕ
  /-- `_connect` -/
  connect : Bool
  /-- `_refCount` -/
  refCount : ℤ
  /-- `_recvQ` -/
  recvQ : CRingBuffer
  /-- The buffers of the receive in flight, if there is one. -/
  posted : Option (List WSABUF)
  /-- `IncreaseRecvCount` -/
  recvCount : ℕ
  /-- History: what `OnRecvPacket` was given, in order. -/
  calls : List (List Byte)
  /-- History: the jobs `GroupManager::OnRecv` queued. -/
  jobs : List (SessionID × GroupID)

/-- `header.len`, of a header with the bytes `bytes`. -/
def Header.len (bytes : List Byte) : Header → ℕ
  | .NetHeader => (NetHeader.ofBytes bytes).len.toNat
  | .LANHeader => (LANHeader.ofBytes bytes).len.toNat

/-- The checks of the header that only a `NetHeader` gets. -/
def Header.refuses (maxPacketLen : ℕ) (bytes : List Byte) : Header → Bool
  | .NetHeader =>
    let header := NetHeader.ofBytes bytes
    header.code ≠ dfPACKET_CODE ∨ maxPacketLen < header.len.toNat
  | .LANHeader => false

namespace Session

/-- `Close`: no receive is in flight here that it could cancel. -/
def close (s : Session) : Session := { s with connect := false }

/-- `Release`, of the reference of the receive. -/
def release (s : Session) : Session := { s with refCount := s.refCount - 1, posted := none }

/-- How a turn of the loop of `RecvHandler` ends. -/
inductive Turn
  | stop (s : Session)
  | next (s : Session)

/-- The packet at the front, which is complete, is handed over. -/
def deliver (header : Header) (onRecvPacket : Handler) (len : ℕ) (s : Session) : Option Turn :=
  (s.recvQ.dequeue header.size).bind fun dequeued =>
    ((onRecvPacket s.calls len).run dequeued.2 len).bind fun res =>
      if res.2.2 = 0 then some (.next { s with recvQ := res.2.1, calls := s.calls ++ [res.1] })
      else none

/-- One turn of the loop, once the header with the bytes `bytes` is there. -/
def packet (header : Header) (onRecvPacket : Handler) (s : Session) (bytes : List Byte) :
    Option Turn :=
  if header.refuses s.maxPacketLen bytes then some (.stop s.close)
  else if s.recvQ.size < header.len bytes then some (.stop s)
  else if s.recvQ.size < header.len bytes + header.size then some (.stop s)
  else
    match header with
    | .NetHeader =>
      (s.recvQ.decode s.staticKey).bind fun recvQ =>
        recvQ.checksumValid.bind fun valid =>
          if valid then
            deliver .NetHeader onRecvPacket (Header.len bytes .NetHeader) { s with recvQ := recvQ }
          else some (.stop { s with recvQ := recvQ }.close)
    | .LANHeader => deliver .LANHeader onRecvPacket (Header.len bytes .LANHeader) s

/-- One turn of the loop. -/
def turn (header : Header) (onRecvPacket : Handler) (s : Session) : Option Turn :=
  if s.groupId ≠ BaseGroupID then some (.stop s)
  else if s.recvQ.size < header.size then some (.stop s)
  else (s.recvQ.peek header.size).bind (packet header onRecvPacket s)

/-- `RecvHandler<Header>`, with `loopCount` packets read so far. -/
def recvHandler (header : Header) (onRecvPacket : Handler) : ℕ → Session → ℕ → Option Session
  | 0, _, _ => none
  | fuel + 1, s, loopCount =>
    (turn header onRecvPacket s).bind fun
      | .stop s => some { s with recvCount := s.recvCount + loopCount }
      | .next s => recvHandler header onRecvPacket fuel s (loopCount + 1)

/-- `RecvNotIncrease`. The receive it starts is accepted by the socket. -/
def recvNotIncrease (s : Session) : Option Session :=
  if RELEASE_FLAG ≤ s.refCount then some s.release
  else if s.connect = false then some s.release
  else
    s.recvQ.recvBufs.bind fun bufs =>
      if (bufs.map WSABUF.len).sum ≠ 0 then some { s with posted := some bufs } else none

/-- `RecvExecutable::Execute` -/
def execute (onRecvPacket : Handler) (fuel : ℕ) (s : Session) (transferred : ℕ) : Option Session :=
  let s := { s with recvQ := s.recvQ.moveRear transferred }
  let handled :=
    if s.groupId ≠ BaseGroupID ∧ s.isHandled = false then
      some { s with isHandled := true, jobs := s.jobs ++ [(s.sessionId, s.groupId)] }
    else if s.staticKey ≠ 0 then recvHandler .NetHeader onRecvPacket fuel s 0
    else recvHandler .LANHeader onRecvPacket fuel s 0
  handled.bind recvNotIncrease

/-- Does `data` fit the buffers posted? A completed receive has at least a
byte. -/
def fits (bufs : List WSABUF) (data : List Byte) : Prop :=
  1 ≤ data.length ∧ data.length ≤ (bufs.map WSABUF.len).sum

/-- The receive in flight completes with `data`. -/
def complete (onRecvPacket : Handler) (fuel : ℕ) (s : Session) (bufs : List WSABUF)
    (data : List Byte) : Option Session :=
  (CRingBuffer.scatter s.recvQ.buffer bufs data).bind fun buffer =>
    execute onRecvPacket fuel { s with
      recvQ := { s.recvQ with buffer := buffer }, posted := none } data.length

/-- One receive after the other, as long as there is one in flight. -/
def receive (onRecvPacket : Handler) (fuel : ℕ) : Session → List (List Byte) → Option Session
  | s, [] => some s
  | s, data :: segs =>
    match s.posted with
    | none => some s
    | some bufs =>
      (complete onRecvPacket fuel s bufs data).bind fun s => receive onRecvPacket fuel s segs

/-- Every piece of the stream fits what is posted when it arrives. -/
def Cut (onRecvPacket : Handler) (fuel : ℕ) : Session → List (List Byte) → Prop
  | _, [] => True
  | s, data :: segs => ∀ bufs, s.posted = some bufs →
      fits bufs data ∧ ∀ s', complete onRecvPacket fuel s bufs data = some s' →
        Cut onRecvPacket fuel s' segs

end Session

end NetLib
