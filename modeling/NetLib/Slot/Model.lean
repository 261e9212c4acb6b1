import NetLib.Library.Pool
import NetLib.Queue.Model
import NetLib.Slot.Types
/-!
# One slot of `_sessions` and the threads that use it

Every call of the server touches one slot, so the threads are followed on
one slot. `Slot` holds the fields of `Session` that the reference count,
the send path and the release path use, what the kernel holds for the slot,
and a history of what happened. `Pc` names the program points: one for each
access to shared memory, with the locals the code still needs. `next` is
the code, one access at a time. A `__debugbreak()` has no next step.

The slot stays in the base group. The socket and the contents of the
receive ring are left out: nothing here reads them.
-/

namespace NetLib

namespace Slot

/-- Who calls `CanSend`, and for which session: the one the caller found,
or the one whose send completed. -/
inductive Sender
  | sendPacket (id : SessionID)
  | sendPacketBlocking (id : SessionID)
  | postSend (id : SessionID)
  deriving DecidableEq

/-- Who calls `RealSend`, and for which session `CanSend` answered true. -/
inductive Caller
  | sendPacketBlocking (id : SessionID)
  | postSend (id : SessionID)
  | sendExecutable (id : SessionID)
  deriving DecidableEq

/-- Where a thread goes on once `Session::Release` returns. -/
inductive After
  | done
  /-- `ProcessBuffer` returns and its caller comes to `CanSend`. -/
  | canSend (c : Sender)
  /-- `RealSend` returns to a caller that releases its own reference. -/
  | release (id : SessionID)
  deriving DecidableEq

/-- What `FindSession` was called for. -/
inductive Use (Buf : Type)
  /-- Any call that keeps the reference for a while and gives it back. -/
  | hold
  | disconnect (k : After)
  | sendPacket (buffer : Buf)
  | sendPacketBlocking (buffer : Buf)

/-- On whose behalf `Session::Reset` runs. -/
inductive Resetter
  | accept (id : SessionID)
  | release
  deriving DecidableEq

/-- Who calls `_sendQ.Dequeue`: `RealSend`, with the buffers it has taken so
far, or `Reset`. -/
inductive Drain (Buf : Type)
  | realSend (c : Caller) (bufs : List Buf)
  | reset (r : Resetter)

/-- The program points, each named after what runs next. -/
inductive Pc (Buf : Type)
  | idle
  -- FindSession: IncreaseRef, then the comparison
  | find (id : SessionID) (use : Use Buf)
  | findCheck (id : SessionID) (result : ℤ) (use : Use Buf)
  | holding (id : SessionID)
  -- Session::Close: `_connect`, then CancelIO
  | close (id : SessionID) (k : After)
  | cancel (id : SessionID) (k : After)
  -- Session::Release, of a reference that pins the session `pin` or of
  -- another one: decrement, compare-exchange, PostRelease
  | release (pin : Option SessionID) (k : After)
  | releaseCas (k : After)
  | postRelease (k : After)
  -- LockFreeFixedQueue::Enqueue, called by ProcessBuffer
  | enqTicket (buffer : Buf) (c : Sender)
  | enqLoad (tail : BitVec 32) (buffer : Buf) (c : Sender)
  | enqPut (tail : BitVec 32) (buffer : Buf) (c : Sender)
  | enqPublish (tail : BitVec 32) (buffer : Buf) (c : Sender)
  | enqFull (c : Sender)
  -- Session::CanSend; `first` tells its two calls of Size() apart
  | canConnect (c : Sender)
  | canRef (c : Sender)
  | canHead (c : Sender) (first : Bool)
  | canTail (c : Sender) (first : Bool) (head : BitVec 32)
  | canExchange (c : Sender)
  | canClear (c : Sender)
  | postSendExecutable (id : SessionID)
  -- Session::RealSend
  | realSend (c : Caller)
  | realSendCheck (c : Caller) (result : ℤ)
  | realSendHead (c : Caller)
  | realSendTail (c : Caller) (head : BitVec 32)
  | realSendStore (c : Caller) (bufs : List Buf)
  | wsaSend (c : Caller) (bufs : List Buf)
  -- LockFreeFixedQueue::Dequeue
  | deqHead (d : Drain Buf)
  | deqLoad (d : Drain Buf) (head : BitVec 32)
  | deqCas (d : Drain Buf) (head : BitVec 32)
  | deqData (d : Drain Buf) (head : BitVec 32)
  | deqClear (d : Drain Buf) (head : BitVec 32) (buffer : Buf)
  -- PostSendExecutable::Execute
  | postSendRelease (i : ℕ)
  | postSendClear
  -- RecvExecutable::Execute and Session::RecvNotIncrease
  | recvExecute
  | recvCancel
  | recvRef
  | recvConnect
  | wsaRecv
  | recvRecheck (id : SessionID)
  -- Session::CheckTimeout
  | timeoutRef
  | timeoutInc
  -- AcceptThread
  | acceptIncreaseRef (id : SessionID)
  | acceptSetId (id : SessionID)
  | acceptOffFlag
  | acceptConnect
  -- ReleaseExecutable::Execute
  | onDisconnect
  | releaseFreeIndex
  -- Session::Reset
  | reset (r : Resetter)
  | resetSending (r : Resetter)

/-- How `WSARecv` and `WSASend` return. -/
inductive IoResult
  | success
  | pending
  | error
  deriving DecidableEq

/-- What the environment decides at a step: which call an idle thread
starts or which completion it takes, and how a system call returns. -/
inductive Event (Buf : Type)
  | go
  | hold (id : SessionID)
  | disconnect (id : SessionID)
  | sendPacket (id : SessionID) (buffer : Buf)
  | sendPacketBlocking (id : SessionID) (buffer : Buf)
  /-- The kernel completes a pending receive or send: its packet waits in
  the port. -/
  | recvReady
  | sendReady
  /-- A completed receive with data. -/
  | recvDone
  /-- A receive that ended with no data: the peer closed, or an error. -/
  | recvFailed
  | recvAborted
  | sendDone
  | sendFailed
  | sendAborted
  | sendExecutable
  | releaseExecutable
  /-- `TimeoutThread` comes to this slot. -/
  | timeout
  /-- `AcceptThread` draws this slot's index, after `others` other accepts. -/
  | accept (others : ℕ)
  | result (r : IoResult)
  /-- The packet handler closes the session. -/
  | close

end Slot

open Slot

/-- The slot. -/
structure Slot (Buf : Type) where
  /-- `_refCount` -/
  refCount : ℤ
  /-- `_sessionId` -/
  sessionId : SessionID
  /-- `_connect` -/
  connect : Bool
  /-- `_isSending` -/
  isSending : Bool
  /-- `_sendQ` -/
  sendQ : LockFreeFixedQueue Buf MAX_SEND_COUNT
  /-- `_sendingQ` -/
  sendingQ : ℕ → Option Buf
  /-- `_postSendExecute.dataNotSend` -/
  dataNotSend : ℕ
  /-- `g_sessionId`, as of the last accept on this slot. -/
  gSessionId : ℕ
  /-- How often the slot's index is on `_freeIndex`. -/
  free : ℕ
  /-- Overlapped receives and sends whose packet no worker has taken: the
  ones not cancelled, how many of these have completed, and the cancelled
  ones. -/
  recvIo : ℕ
  recvReady : ℕ
  recvAborted : ℕ
  sendIo : ℕ
  sendReady : ℕ
  sendAborted : ℕ
  /-- `SendExecutable`s posted and not yet taken. A packet carries only the
  slot; the id it was posted for is history. -/
  sendPosted : List SessionID
  /-- `ReleaseExecutable`s posted and not yet taken. -/
  releasePosted : ℕ
  /-- History: the ids given to the slot, at `OffReleaseFlag`; the ids
  `PostRelease` was called for; the ids `OnDisconnect` was called with. -/
  accepted : List SessionID
  posted : List SessionID
  disconnected : List SessionID
  /-- History: the buffers in the order of their tickets; how many were
  dequeued; the buffers of each `WSASend`; how many sends completed; the
  buffers released, in order. -/
  tickets : List Buf
  taken : ℕ
  sends : List (List Buf)
  completions : ℕ
  freed : List Buf

namespace Slot

variable {Buf : Type}

/-- The slot as constructed, its index on `_freeIndex` once. -/
def initial [Inhabited Buf] : Slot Buf where
  refCount := RELEASE_FLAG
  sessionId := ⟨0, 0⟩
  connect := false
  isSending := false
  sendQ := .empty _
  sendingQ := fun _ => none
  dataNotSend := 0
  gSessionId := 0
  free := 1
  recvIo := 0
  recvReady := 0
  recvAborted := 0
  sendIo := 0
  sendReady := 0
  sendAborted := 0
  sendPosted := []
  releasePosted := 0
  accepted := []
  posted := []
  disconnected := []
  tickets := []
  taken := 0
  sends := []
  completions := 0
  freed := []

/-- Where a thread is once its `Release` has returned. -/
def After.pc : After → Pc Buf
  | .done => .idle
  | .canSend c => .canConnect c
  | .release id => .release (some id) .done

/-- Where a failed `FindSession` goes, after giving back its reference. -/
def Use.failed : Use Buf → After
  | .hold => .done
  | .disconnect k => k
  | .sendPacket _ | .sendPacketBlocking _ => .done

/-- Where a successful `FindSession` goes. -/
def Use.found (id : SessionID) : Use Buf → Pc Buf
  | .hold => .holding id
  | .disconnect k => .close id k
  | .sendPacket b => .enqTicket b (.sendPacket id)
  | .sendPacketBlocking b => .enqTicket b (.sendPacketBlocking id)

/-- The session `CanSend` was called for. -/
def Sender.id : Sender → SessionID
  | .sendPacket id | .sendPacketBlocking id | .postSend id => id

/-- The session `RealSend` was called for. -/
def Caller.id : Caller → SessionID
  | .sendPacketBlocking id | .postSend id | .sendExecutable id => id

/-- `CanSend` answered true: `SendPacket` posts, the others send. -/
def Sender.canSend : Sender → Pc Buf
  | .sendPacket id => .postSendExecutable id
  | .sendPacketBlocking id => .realSend (.sendPacketBlocking id)
  | .postSend id => .realSend (.postSend id)

/-- `CanSend` answered false, or its caller is through with it. -/
def Sender.release (c : Sender) : Pc Buf := .release (some c.id) .done

/-- What `RealSend` returns to: a posted `SendExecutable` ends, the others
release their own reference. -/
def Caller.after : Caller → After
  | .sendPacketBlocking id | .postSend id => .release id
  | .sendExecutable _ => .done

/-- `Dequeue` answered false. `RealSend` starts over as long as it has
nothing to send. -/
def Drain.empty : Drain Buf → Pc Buf
  | .realSend c [] => .deqHead (.realSend c [])
  | .realSend c (b :: bufs) => .realSendStore c (b :: bufs)
  | .reset r => .resetSending r

/-- `CancelIoEx`, on what is pending at that moment: an operation that has
completed keeps its packet. -/
def cancelIo (s : Slot Buf) : Slot Buf :=
  { s with
    recvIo := min s.recvIo s.recvReady
    recvAborted := s.recvAborted + (s.recvIo - s.recvReady)
    sendIo := min s.sendIo s.sendReady
    sendAborted := s.sendAborted + (s.sendIo - s.sendReady) }

/-- What an idle thread starts: a call of the interface, a completion taken
from the port, or an accept on this slot. An idle thread also stands for the
kernel when an operation completes. -/
def start (index : ℕ) (s : Slot Buf) : Event Buf → Option (Slot Buf × Pc Buf)
  | .hold id => some (s, .find id .hold)
  | .disconnect id => some (s, .find id (.disconnect .done))
  | .sendPacket id b => some (s, .find id (.sendPacket b))
  | .sendPacketBlocking id b => some (s, .find id (.sendPacketBlocking b))
  | .recvReady =>
    if s.recvReady < s.recvIo then some ({ s with recvReady := s.recvReady + 1 }, .idle) else none
  | .sendReady =>
    if s.sendReady < s.sendIo then some ({ s with sendReady := s.sendReady + 1 }, .idle) else none
  | .recvDone =>
    if 0 < s.recvIo then
      some ({ s with recvIo := s.recvIo - 1, recvReady := s.recvReady - 1 }, .recvExecute)
    else none
  | .recvFailed =>
    if 0 < s.recvIo then
      some ({ s with recvIo := s.recvIo - 1, recvReady := s.recvReady - 1 }, .release none .done)
    else none
  | .recvAborted =>
    if 0 < s.recvAborted then
      some ({ s with recvAborted := s.recvAborted - 1 }, .release none .done)
    else none
  | .sendDone =>
    if 0 < s.sendIo then
      some ({ s with
        sendIo := s.sendIo - 1, sendReady := s.sendReady - 1
        completions := s.completions + 1 }, .postSendRelease 0)
    else none
  | .sendFailed =>
    if 0 < s.sendIo then
      some ({ s with sendIo := s.sendIo - 1, sendReady := s.sendReady - 1 }, .release none .done)
    else none
  | .sendAborted =>
    if 0 < s.sendAborted then
      some ({ s with sendAborted := s.sendAborted - 1 }, .release none .done)
    else none
  | .sendExecutable =>
    match s.sendPosted with
    | [] => none
    | id :: rest => some ({ s with sendPosted := rest }, .realSend (.sendExecutable id))
  | .releaseExecutable =>
    if 0 < s.releasePosted then
      some ({ s with releasePosted := s.releasePosted - 1 }, .onDisconnect)
    else none
  | .timeout => some (s, .timeoutRef)
  | .accept others =>
    if 0 < s.free then
      some ({ s with free := s.free - 1, gSessionId := s.gSessionId + others + 1 },
        .reset (.accept ⟨s.gSessionId + others + 1, index⟩))
    else none
  | _ => none

/-- `FindSession`, `Close` and `Release`, one access at a time. -/
def nextRef (s : Slot Buf) : Pc Buf → Option (Slot Buf × Pc Buf)
  | .find id use =>
    some ({ s with refCount := s.refCount + 1 }, .findCheck id (s.refCount + 1) use)
  | .findCheck id result use =>
    if RELEASE_FLAG < result ∨ s.sessionId ≠ id then some (s, .release none use.failed)
    else some (s, use.found id)
  | .holding id => some (s, .release (some id) .done)
  | .close id k => some ({ s with connect := false }, .cancel id k)
  | .cancel id k => some (s.cancelIo, .release (some id) k)
  | .release _ k =>
    some ({ s with refCount := s.refCount - 1 },
      if s.refCount - 1 = 0 then .releaseCas k else k.pc)
  | .releaseCas k =>
    if s.refCount = 0 then some ({ s with refCount := RELEASE_FLAG }, .postRelease k)
    else some (s, k.pc)
  | .postRelease k =>
    some ({ s with
      releasePosted := s.releasePosted + 1, posted := s.posted ++ [s.sessionId] }, k.pc)
  | _ => none

/-- `_sendQ.Enqueue` and `CanSend`, one access at a time. -/
def nextSend (s : Slot Buf) : Pc Buf → Option (Slot Buf × Pc Buf)
  | .enqTicket b c =>
    some ({ s with sendQ := s.sendQ.fetchAddTail.2, tickets := s.tickets ++ [b] },
      .enqLoad s.sendQ.fetchAddTail.1 b c)
  | .enqLoad tail b c =>
    if s.sendQ.loadUsed tail then some (s, .enqFull c) else some (s, .enqPut tail b c)
  | .enqPut tail b c =>
    some ({ s with sendQ := s.sendQ.putData tail b }, .enqPublish tail b c)
  | .enqPublish tail _ c =>
    if (s.sendQ.exchangeUsed tail true).1 then none
    else some ({ s with sendQ := (s.sendQ.exchangeUsed tail true).2 }, .canConnect c)
  | .enqFull c => some (s, .find s.sessionId (.disconnect (.canSend c)))
  | .canConnect c => some (s, if s.connect then .canRef c else c.release)
  | .canRef c => some (s, if RELEASE_FLAG ≤ s.refCount then c.release else .canHead c true)
  | .canHead c first => some (s, .canTail c first s.sendQ.headIndex)
  | .canTail c first head =>
    if (s.sendQ.tailIndex - head).toInt = 0 then
      some (s, if first then c.release else .canClear c)
    else some (s, if first then .canExchange c else c.canSend)
  | .canExchange c =>
    if s.isSending then some (s, c.release)
    else some ({ s with isSending := true }, .canHead c false)
  | .canClear c => some ({ s with isSending := false }, .canRef c)
  | .postSendExecutable id =>
    some ({ s with sendPosted := s.sendPosted ++ [id] }, .release (some id) .done)
  | _ => none

/-- `RealSend`, `_sendQ.Dequeue` and `PostSendExecutable::Execute`, one
access at a time. -/
def nextRealSend (s : Slot Buf) : Pc Buf → Event Buf → Option (Slot Buf × Pc Buf)
  | .realSend c, _ =>
    some ({ s with refCount := s.refCount + 1 }, .realSendCheck c (s.refCount + 1))
  | .realSendCheck c result, _ =>
    some (s, if RELEASE_FLAG ≤ result then .release none c.after else .realSendHead c)
  | .realSendHead c, _ => some (s, .realSendTail c s.sendQ.headIndex)
  | .realSendTail c head, _ =>
    if (s.sendQ.tailIndex - head).toInt < 1 then none else some (s, .deqHead (.realSend c []))
  | .realSendStore c bufs, _ => some ({ s with dataNotSend := bufs.length }, .wsaSend c bufs)
  | .wsaSend c bufs, .result r =>
    if r = .error then some ({ s with sends := s.sends ++ [bufs] }, .release none c.after)
    else
      some ({ s with
        sends := s.sends ++ [bufs], sendIo := s.sendIo + 1
        sendReady := s.sendReady + if r = .success then 1 else 0 }, c.after.pc)
  | .deqHead d, _ => some (s, .deqLoad d s.sendQ.headIndex)
  | .deqLoad d head, _ => some (s, if s.sendQ.loadUsed head then .deqCas d head else d.empty)
  | .deqCas d head, _ =>
    if (s.sendQ.casHead head).1 then
      some ({ s with sendQ := (s.sendQ.casHead head).2, taken := s.taken + 1 }, .deqData d head)
    else some (s, .deqHead d)
  | .deqData d head, _ => some (s, .deqClear d head (s.sendQ.getData head))
  | .deqClear d head b, _ =>
    if (s.sendQ.exchangeUsed head false).1 then
      match d with
      | .realSend c bufs =>
        some ({ s with
          sendQ := (s.sendQ.exchangeUsed head false).2
          sendingQ := Function.update s.sendingQ bufs.length (some b) },
          if bufs.length + 1 = MAX_SEND_COUNT then .realSendStore c (bufs ++ [b])
          else .deqHead (.realSend c (bufs ++ [b])))
      | .reset r =>
        some ({ s with
          sendQ := (s.sendQ.exchangeUsed head false).2, freed := s.freed ++ [b] },
          .deqHead (.reset r))
    else none
  | .postSendRelease i, _ =>
    if i < s.dataNotSend then
      (s.sendingQ i).map fun b => ({ s with freed := s.freed ++ [b] }, .postSendRelease (i + 1))
    else some ({ s with dataNotSend := 0 }, .postSendClear)
  | .postSendClear, _ =>
    some ({ s with isSending := false }, .canConnect (.postSend s.sessionId))
  | _, _ => none

/-- `RecvExecutable::Execute`, `RecvNotIncrease`, `CheckTimeout`,
`AcceptThread`, `ReleaseExecutable::Execute` and `Reset`, one access at a
time. -/
def nextLife (index : ℕ) (s : Slot Buf) : Pc Buf → Event Buf → Option (Slot Buf × Pc Buf)
  | .recvExecute, .close => some ({ s with connect := false }, .recvCancel)
  | .recvExecute, .go => some (s, .recvRef)
  | .recvCancel, _ => some (s.cancelIo, .recvExecute)
  | .recvRef, _ =>
    some (s, if RELEASE_FLAG ≤ s.refCount then .release none .done else .recvConnect)
  | .recvConnect, _ => some (s, if s.connect then .wsaRecv else .release none .done)
  -- a receive that succeeds at once has its packet in the port as well
  | .wsaRecv, .result .success =>
    some ({ s with recvIo := s.recvIo + 1, recvReady := s.recvReady + 1 }, .idle)
  | .wsaRecv, .result .pending =>
    some ({ s with recvIo := s.recvIo + 1 }, .recvRecheck s.sessionId)
  | .wsaRecv, .result .error => some (s, .release none .done)
  | .recvRecheck id, _ => some (s, if s.connect then .idle else .find id (.disconnect .done))
  | .timeoutRef, _ => some (s, if RELEASE_FLAG ≤ s.refCount then .idle else .timeoutInc)
  -- both ways out of the comparison give the reference back
  | .timeoutInc, _ => some ({ s with refCount := s.refCount + 1 }, .release none .done)
  | .acceptIncreaseRef id, _ => some ({ s with refCount := s.refCount + 1 }, .acceptSetId id)
  | .acceptSetId id, _ => some ({ s with sessionId := id }, .acceptOffFlag)
  | .acceptOffFlag, _ =>
    some ({ s with
      refCount := bitTestAndReset20 s.refCount
      accepted := s.accepted ++ [s.sessionId] }, .acceptConnect)
  | .acceptConnect, _ => some ({ s with connect := true }, .recvRef)
  | .onDisconnect, _ =>
    some ({ s with disconnected := s.disconnected ++ [s.sessionId] }, .reset .release)
  | .releaseFreeIndex, _ =>
    some ({ s with free := s.free + if s.sessionId.index = index then 1 else 0 }, .idle)
  | .reset r, _ => some ({ s with isSending := false }, .deqHead (.reset r))
  | .resetSending r, _ =>
    some ({ s with
      dataNotSend := 0
      sendingQ := fun i => if i < s.dataNotSend then none else s.sendingQ i
      freed := s.freed ++ (List.range s.dataNotSend).filterMap s.sendingQ },
      match r with
      | .accept id => .acceptIncreaseRef id
      | .release => .releaseFreeIndex)
  | _, _ => none

/-- The next action of a thread at a program point. -/
def next (index : ℕ) (s : Slot Buf) (pc : Pc Buf) (e : Event Buf) : Option (Slot Buf × Pc Buf) :=
  match pc with
  | .idle => start index s e
  | .find _ _ | .findCheck _ _ _ | .holding _ | .close _ _ | .cancel _ _ | .release _ _
  | .releaseCas _ | .postRelease _ => nextRef s pc
  | .enqTicket _ _ | .enqLoad _ _ _ | .enqPut _ _ _ | .enqPublish _ _ _ | .enqFull _
  | .canConnect _ | .canRef _ | .canHead _ _ | .canTail _ _ _ | .canExchange _ | .canClear _
  | .postSendExecutable _ => nextSend s pc
  | .realSend _ | .realSendCheck _ _ | .realSendHead _ | .realSendTail _ _ | .realSendStore _ _
  | .wsaSend _ _ | .deqHead _ | .deqLoad _ _ | .deqCas _ _ | .deqData _ _ | .deqClear _ _ _
  | .postSendRelease _ | .postSendClear => nextRealSend s pc e
  | _ => nextLife index s pc e

/-- The slot and its threads. -/
abbrev World (Buf : Type) := Pool (Slot Buf) (Pc Buf)

/-- Thread `e.1` takes one step. -/
abbrev step (index : ℕ) : World Buf → ℕ × Event Buf → Option (World Buf) := Pool.step (next index)

/-- The start: the slot as constructed and `n` idle threads. -/
def World.initial [Inhabited Buf] (n : ℕ) : World Buf := ⟨Slot.initial, List.replicate n .idle⟩

theorem World.initial_idle (Buf : Type) [Inhabited Buf] (n : ℕ) :
    ∀ pc ∈ (World.initial n : World Buf).threads, pc = .idle :=
  fun _ hpc => List.eq_of_mem_replicate hpc

end Slot

end NetLib
