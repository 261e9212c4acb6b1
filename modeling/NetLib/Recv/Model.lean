import NetLib.Library.Pool
import NetLib.Receive.Model
/-!
# The receive side of one session, with groups

The threads that receive for one session while it moves between groups: the
worker that runs `RecvExecutable::Execute` and posts the next receive, the
threads that run `Group::Update` and handle the session's Recv jobs, and
whoever moves or closes the session. `next` is the code, a few accesses at
a time; a turn of `RecvHandler` is its test of the group, its test of the
size, its `Peek`, what it decides about the packet, and each `>>` of the
packet callback.

A group's `_jobs` is here a count of the session's Recv jobs, with room for
any number: one is there as soon as it is queued, and every Recv job queued
is taken. A queue of 8192 jobs that refuses a ticket and hides what is
behind it is in `Group.Full`.

The session is open and its receive keeps a reference, so nothing here
counts references. The server is built without `DEBUG`: `ASSERT_CRASH` does
nothing, and a `CRecvBuffer` read past its end throws.
-/

namespace NetLib

namespace Recv

/-- The program points. A handler runs for a group; the one of
`RecvExecutable` runs for the base group. -/
inductive Pc
  | idle
  -- RecvExecutable::Execute, once `transferred` bytes have arrived
  | moveRear (transferred : ℕ)
  | execGroup
  | execHandled
  | setHandled
  | onRecv
  | enqueue (g : GroupID)
  -- RecvHandler
  | loop (g : GroupID)
  | size (g : GroupID)
  | peek (g : GroupID)
  | packet (g : GroupID) (header : List Byte)
  -- the packet callback, with `left` bytes of the payload not read yet
  | callback (g : GroupID) (reader : Reader) (left : ℕ)
  | disconnect (g : GroupID)
  -- RecvNotIncrease
  | recvConnect
  | recvDirect
  | recvFree (direct : ℕ)
  | recvSecond (direct : ℕ)
  | wsaRecv (bufs : List WSABUF)
  -- Group::HandleJob
  | handleJob (g : GroupID)
  | findSession (g : GroupID)
  | clearHandled (g : GroupID)

/-- What is left open at a step. -/
inductive Event
  | go
  /-- The receive in flight completes with `data`. -/
  | complete (data : List Byte)
  /-- The receive in flight ends without data. -/
  | ended
  /-- `DisconnectSession` by any thread. -/
  | close
  /-- `SetGroupID` in a `MoveSession` by any thread. -/
  | move (dst : GroupID)
  /-- A thread enters `Group::Update`. -/
  | update (g : GroupID)
  /-- `FindSession` finds the session released. -/
  | gone
  /-- The packet callback that is called will read like this. -/
  | callback (reader : Reader)

end Recv

open Recv

/-- What the threads share. -/
structure Recv where
  /-- `_recvQ` -/
  recvQ : CRingBuffer
  /-- `_groupId` -/
  groupId : GroupID
  /-- `_isHandled` -/
  isHandled : Bool
  /-- `_staticKey` -/
  staticKey : Byte
  /-- `_maxPacketLen` -/
  maxPacketLen : ℕ
  /-- `_connect` -/
  connect : Bool
  /-- The buffers of the receive in flight, if there is one. -/
  posted : Option (List WSABUF)
  /-- How many Recv jobs of the session are queued in each group. -/
  jobs : GroupID → ℕ
  /-- `_isRun` of each group. -/
  isRun : GroupID → Bool
  /-- History: how many packet callbacks were called. -/
  calls : ℕ
  /-- History: has a handler closed the session? -/
  violated : Bool

instance (bufs : List WSABUF) (data : List Byte) : Decidable (Session.fits bufs data) :=
  inferInstanceAs (Decidable (_ ∧ _))

namespace Recv

/-- The header the session's packets carry. -/
def header (s : Recv) : Header := if s.staticKey ≠ 0 then .NetHeader else .LANHeader

/-- `Close`, called by a handler. -/
def violate (s : Recv) : Recv := { s with connect := false, violated := true }

/-- Where `RecvHandler` returns to. -/
def after (g : GroupID) : Pc := if g = BaseGroupID then .recvConnect else .handleJob g

/-- The callback is called on the packet at the front. -/
def deliver (s : Recv) (g : GroupID) (len : ℕ) (reader : Reader) : Option (Recv × Pc) :=
  (s.recvQ.dequeue s.header.size).map fun dequeued =>
    ({ s with recvQ := dequeued.2, calls := s.calls + 1 }, .callback g reader len)

/-- What `RecvHandler` does once the header at the front is read. Its test
of `header.len` against `Size()`, before the one of the whole packet, is
left out where it repeats what the latter says. -/
def packet (s : Recv) (g : GroupID) (bytes : List Byte) (reader : Reader) : Option (Recv × Pc) :=
  if s.header.refuses s.maxPacketLen bytes then some (s.violate, after g)
  else if s.recvQ.size < s.header.len bytes + s.header.size then some (s, after g)
  else
    match s.header with
    | .NetHeader =>
      (s.recvQ.decode s.staticKey).bind fun recvQ =>
        recvQ.checksumValid.bind fun valid =>
          if valid then deliver { s with recvQ := recvQ } g (Header.len bytes .NetHeader) reader
          else some ({ s with recvQ := recvQ }.violate, after g)
    | .LANHeader => deliver s g (Header.len bytes .LANHeader) reader

/-- `RecvHandler` of `RecvExecutable` and of a group, and the packet
callback. -/
def nextHandler (s : Recv) : Pc → Event → Option (Recv × Pc)
  | .loop g, _ => some (s, if s.groupId ≠ g then after g else .size g)
  | .size g, _ => some (s, if s.recvQ.size < s.header.size then after g else .peek g)
  | .peek g, _ => (s.recvQ.peek s.header.size).map fun bytes => (s, .packet g bytes)
  | .packet g bytes, .callback reader => packet s g bytes reader
  | .callback g .done _, _ => some (s, .loop g)
  | .callback g (.read n k) left, _ =>
    if left < n then some (s, .disconnect g)
    else
      (s.recvQ.peek n).bind fun bytes =>
        (s.recvQ.dequeue n).map fun dequeued =>
          ({ s with recvQ := dequeued.2 }, .callback g (k bytes) (left - n))
  | .disconnect g, _ => some (s.violate, .loop g)
  | _, _ => none

/-- `RecvExecutable::Execute`, but for its handler, and `RecvNotIncrease`. -/
def nextWorker (s : Recv) : Pc → Option (Recv × Pc)
  | .moveRear transferred => some ({ s with recvQ := s.recvQ.moveRear transferred }, .execGroup)
  | .execGroup => some (s, if s.groupId ≠ BaseGroupID then .execHandled else .loop BaseGroupID)
  | .execHandled => some (s, if s.isHandled then .loop BaseGroupID else .setHandled)
  | .setHandled => some ({ s with isHandled := true }, .onRecv)
  -- there is no group with the id of the base group
  | .onRecv => if s.groupId ≠ BaseGroupID then some (s, .enqueue s.groupId) else none
  | .enqueue g =>
    some ({ s with jobs := Function.update s.jobs g (s.jobs g + 1) }, .recvConnect)
  | .recvConnect => some (s, if s.connect then .recvDirect else .idle)
  | .recvDirect => s.recvQ.directEnqueueSize.map fun direct => (s, .recvFree direct)
  | .recvFree direct =>
    some (s, if direct < s.recvQ.freeSize then .recvSecond direct
      else .wsaRecv [⟨CRingBuffer.getIndex s.recvQ.rear, direct⟩])
  | .recvSecond direct =>
    some (s, .wsaRecv
      [⟨CRingBuffer.getIndex s.recvQ.rear, direct⟩, ⟨0, s.recvQ.freeSize - direct⟩])
  | .wsaRecv bufs => some ({ s with posted := some bufs }, .idle)
  | _ => none

/-- `Group::Update` and `Group::HandleJob`, as far as Recv jobs of the
session go. -/
def nextGroup (s : Recv) : Pc → Event → Option (Recv × Pc)
  | .handleJob g, _ =>
    if 0 < s.jobs g then
      some ({ s with jobs := Function.update s.jobs g (s.jobs g - 1) }, .findSession g)
    else some ({ s with isRun := Function.update s.isRun g false }, .idle)
  | .findSession g, .go => some (s, .clearHandled g)
  | .findSession g, .gone => if s.connect then none else some (s, .handleJob g)
  | .clearHandled g, _ => some ({ s with isHandled := false }, .loop g)
  | _, _ => none

/-- What an idle thread does. It also stands for any other thread that
moves or closes the session, the packet callbacks among them. -/
def start (s : Recv) : Event → Option (Recv × Pc)
  | .complete data =>
    match s.posted with
    | none => none
    | some bufs =>
      if Session.fits bufs data then
        (CRingBuffer.scatter s.recvQ.buffer bufs data).map fun buffer =>
          ({ s with recvQ := { s.recvQ with buffer := buffer }, posted := none },
            .moveRear data.length)
      else none
  | .ended => if s.posted.isSome then some ({ s with posted := none }, .idle) else none
  | .close => some ({ s with connect := false }, .idle)
  | .move dst => some ({ s with groupId := dst }, .idle)
  | .update g =>
    if g = BaseGroupID ∨ s.isRun g then none
    else some ({ s with isRun := Function.update s.isRun g true }, .handleJob g)
  | _ => none

/-- The next action of a thread at a program point. -/
def next (s : Recv) (pc : Pc) (e : Event) : Option (Recv × Pc) :=
  match pc with
  | .idle => start s e
  | .loop _ | .size _ | .peek _ | .packet _ _ | .callback _ _ _ | .disconnect _ =>
    nextHandler s pc e
  | .handleJob _ | .findSession _ | .clearHandled _ => nextGroup s pc e
  | _ => nextWorker s pc

abbrev World := Pool Recv Pc

abbrev step : World → ℕ × Event → Option World := Pool.step next

/-- A session that was just accepted, about to post its first receive, and
`n` idle threads. Nothing here clears `_isHandled`. -/
def World.initial (staticKey : Byte) (maxPacketLen : ℕ) (isHandled : Bool) (n : ℕ) : World where
  shared := {
    recvQ := ⟨fun _ => 0, 0, 0⟩
    groupId := BaseGroupID
    isHandled := isHandled
    staticKey := staticKey
    maxPacketLen := maxPacketLen
    connect := true
    posted := none
    jobs := fun _ => 0
    isRun := fun _ => false
    calls := 0
    violated := false }
  threads := .recvConnect :: List.replicate n .idle

end Recv

end NetLib
