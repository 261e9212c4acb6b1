import NetLib.Slot.Pinning
/-!
# A slot on the clock

`TimeoutThread` visits every slot once a second and judges it by fields the
other threads write without a lock. `Timed` adds these fields to a slot,
with the clock they are taken from, and `Timed.Pc` the program points at
which they are read and written. Everything else a thread does is a step of
the slot.
-/

namespace NetLib

/-- `timeoutInfo::IOtype` -/
inductive IOtype
  | recv
  | send
  deriving DecidableEq, Repr

/-- `timeoutInfo` -/
structure timeoutInfo where
  type : IOtype
  waitTime : ℤ
  timeoutTime : ℤ
  deriving DecidableEq, Repr

/-- `duration_cast<milliseconds>`, of nanoseconds: towards zero. -/
def milliseconds (duration : ℤ) : ℤ := duration.tdiv 1000000

/-- A slot and what `CheckTimeout` reads of it. Times are nanoseconds of
`steady_clock`. -/
structure Timed (Buf : Type) where
  slot : Slot Buf
  /-- `steady_clock::now()` -/
  clock : ℤ
  /-- `lastRecv` -/
  lastRecv : ℤ
  /-- `_postSendExecute.lastSend` -/
  lastSend : ℤ
  /-- `_needCheckSendTimeout` -/
  needCheckSendTimeout : Bool
  /-- `_timeout` and `_defaultTimeout`, in milliseconds -/
  timeout : ℤ
  defaultTimeout : ℤ
  /-- `_checkTiemout` -/
  checkTimeout : Bool
  /-- History: when a session was opened, at `OffReleaseFlag`, and when its
  last receive was posted, or 0. -/
  acceptedAt : SessionID → ℤ
  recvAt : SessionID → ℤ
  /-- History: the sends outstanding, whose session each is and when it was
  started. A send is outstanding from `lastSend` on until `WSASend` fails or
  a worker takes its packet. -/
  sends : List (SessionID × ℤ)
  /-- History: how many sends have ended. -/
  ended : ℕ

namespace Timed

variable {Buf : Type}

/-- The program points. Those of `CheckTimeout` carry the session in the
slot when the reference was taken; the code does not keep it. -/
inductive Pc (Buf : Type)
  | slot (pc : Slot.Pc Buf)
  -- Session::RealSend
  | needCheck (c : Slot.Caller) (bufs : List Buf)
  | lastSend (c : Slot.Caller) (bufs : List Buf)
  -- Session::RecvNotIncrease
  | lastRecv
  -- PostSendExecutable::Execute
  | clearNeedCheck
  -- Session::Reset
  | resetNeedCheck (r : Slot.Resetter)
  | resetTimeout (r : Slot.Resetter)
  -- IOCP::SetDefaultTimeout
  | setTimeout (timeoutMillisecond : ℤ)
  -- Session::CheckTimeout
  | checkZero (now : ℤ)
  | checkRef (now : ℤ)
  | increaseRef (now : ℤ)
  | readLastRecv (now : ℤ) (id : SessionID)
  | readLastSend (now recvWait : ℤ) (id : SessionID)
  | readNeedCheck (now recvWait sendWait : ℤ) (id : SessionID) (ended : ℕ)
  | compareSend (now recvWait sendWait : ℤ) (id : SessionID) (ended : ℕ)
  | compareRecv (now recvWait : ℤ) (id : SessionID)
  -- its Release, and what it answers
  | checked (pc : Slot.Pc Buf) (id : SessionID) (result : Option timeoutInfo)
  -- TimeoutThread
  | getSessionId (id : SessionID) (info : timeoutInfo)
  | onSessionTimeout (id : SessionID) (info : timeoutInfo)
  -- Session::ResetTimeoutWait
  | resetNow
  | resetRecv (now : ℤ)
  | resetSend (now : ℤ)

/-- What is left open at a step. -/
inductive Event (Buf : Type)
  | go
  /-- A step of the slot. If a send ends with it, it is the `i`-th of the
  ones outstanding. -/
  | slot (e : Slot.Event Buf) (i : ℕ)
  /-- The clock goes on. -/
  | tick (duration : ℕ)
  /-- `TimeoutThread` takes the time for a new round. -/
  | timeoutThread
  /-- A call of `IOCP::SetTimeout` that has found the session. -/
  | setTimeout (timeoutMillisecond : ℤ)
  | setDefaultTimeout (timeoutMillisecond : ℤ)

/-- Does a send end with the step? -/
def endsSend : Slot.Pc Buf → Slot.Event Buf → Bool
  | .idle, .sendDone | .idle, .sendFailed | .idle, .sendAborted => true
  | .wsaSend _ _, .result .error => true
  | _, _ => false

/-- Where the slot's threads come to the fields of the clock: before
`dataNotSend` is stored, before `WSARecv`, before `_isSending` is cleared,
and inside `Reset`. -/
def enter : Slot.Pc Buf → Slot.Pc Buf → Pc Buf
  | _, .realSendStore c bufs => .needCheck c bufs
  | _, .wsaRecv => .lastRecv
  | _, .postSendClear => .clearNeedCheck
  | .reset r, _ => .resetNeedCheck r
  | _, pc => .slot pc

/-- The clock's part in a step of the slot: `OffReleaseFlag` opens a
session, and the end of a send strikes it off. -/
def observe (s : Timed Buf) (pc : Slot.Pc Buf) (e : Slot.Event Buf) (i : ℕ) : Timed Buf :=
  match pc with
  | .acceptOffFlag =>
    { s with acceptedAt := Function.update s.acceptedAt s.slot.sessionId s.clock }
  | pc => if endsSend pc e then { s with sends := s.sends.eraseIdx i, ended := s.ended + 1 } else s

/-- A step of the slot. `CheckTimeout` has its own program points. -/
def nextSlot (index : ℕ) (s : Timed Buf) (pc : Slot.Pc Buf) (e : Slot.Event Buf) (i : ℕ) :
    Option (Timed Buf × Pc Buf) :=
  match e with
  | .timeout => none
  | e =>
    if endsSend pc e ∧ s.sends.length ≤ i then none
    else (Slot.next index s.slot pc e).map fun r =>
      ({ s.observe pc e i with slot := r.1 }, enter pc r.2)

/-- What an idle thread starts, and the clock. -/
def start (index : ℕ) (s : Timed Buf) : Event Buf → Option (Timed Buf × Pc Buf)
  | .slot e i => nextSlot index s .idle e i
  | .tick duration => some ({ s with clock := s.clock + duration }, .slot .idle)
  | .timeoutThread => if s.checkTimeout then some (s, .checkZero s.clock) else none
  | .setDefaultTimeout t =>
    if t = 0 then some ({ s with checkTimeout := false }, .slot .idle)
    else some ({ s with defaultTimeout := t }, .setTimeout t)
  | _ => none

/-- `CheckTimeout`, `TimeoutThread` and `ResetTimeoutWait`, one access at a
time. The `_timeout` that is compared goes into the answer. -/
def nextTimeout (index : ℕ) (s : Timed Buf) : Pc Buf → Option (Timed Buf × Pc Buf)
  | .checkZero now => some (s, if s.timeout = 0 then .slot .idle else .checkRef now)
  | .checkRef now =>
    some (s, if RELEASE_FLAG ≤ s.slot.refCount then .slot .idle else .increaseRef now)
  | .increaseRef now =>
    some ({ s with slot := { s.slot with refCount := s.slot.refCount + 1 } },
      if RELEASE_FLAG ≤ s.slot.refCount + 1 then .slot (.release none .done)
      else .readLastRecv now s.slot.sessionId)
  | .readLastRecv now id => some (s, .readLastSend now (now - s.lastRecv) id)
  | .readLastSend now recvWait id =>
    some (s, .readNeedCheck now recvWait (now - s.lastSend) id s.ended)
  | .readNeedCheck now recvWait sendWait id ended =>
    some (s, if s.needCheckSendTimeout then .compareSend now recvWait sendWait id ended
      else .compareRecv now recvWait id)
  | .compareSend now recvWait sendWait id _ =>
    some (s, if s.timeout < milliseconds sendWait then
        .checked (.release (some id) .done) id (some ⟨.send, milliseconds sendWait, s.timeout⟩)
      else .compareRecv now recvWait id)
  | .compareRecv _ recvWait id =>
    some (s, .checked (.release (some id) .done) id
      (if s.timeout < milliseconds recvWait then
        some ⟨.recv, milliseconds recvWait, s.timeout⟩ else none))
  | .checked pc id result =>
    (Slot.next index s.slot pc .go).map fun r =>
      ({ s with slot := r.1 }, match r.2, result with
        | .idle, none => .slot .idle
        | .idle, some info => .getSessionId id info
        | pc', result => .checked pc' id result)
  | .getSessionId _ info => some (s, .onSessionTimeout s.slot.sessionId info)
  | .onSessionTimeout _ _ => some (s, .resetNow)
  | .resetNow => some (s, .resetRecv s.clock)
  | .resetRecv now => some ({ s with lastRecv := now }, .resetSend now)
  | .resetSend now => some ({ s with lastSend := now }, .slot .idle)
  | _ => none

/-- The stores of the other threads, and then the step of the slot they were
put before. -/
def nextStore (s : Timed Buf) : Pc Buf → Option (Timed Buf × Pc Buf)
  | .needCheck c bufs => some ({ s with needCheckSendTimeout := true }, .lastSend c bufs)
  | .lastSend c bufs =>
    some ({ s with lastSend := s.clock, sends := s.sends ++ [(s.slot.sessionId, s.clock)] },
      .slot (.realSendStore c bufs))
  | .lastRecv =>
    some ({ s with
      lastRecv := s.clock, recvAt := Function.update s.recvAt s.slot.sessionId s.clock },
      .slot .wsaRecv)
  | .clearNeedCheck => some ({ s with needCheckSendTimeout := false }, .slot .postSendClear)
  | .resetNeedCheck r => some ({ s with needCheckSendTimeout := false }, .resetTimeout r)
  | .resetTimeout r => some ({ s with timeout := s.defaultTimeout }, .slot (.deqHead (.reset r)))
  | .setTimeout t => some ({ s with timeout := t }, .slot .idle)
  | _ => none

/-- The next action of a thread at a program point. -/
def next (index : ℕ) (s : Timed Buf) (pc : Pc Buf) (e : Event Buf) : Option (Timed Buf × Pc Buf) :=
  match pc, e with
  | .slot .idle, e => start index s e
  | .slot (.holding id), .setTimeout t => some ({ s with timeout := t }, .slot (.holding id))
  | .slot pc, .slot e i => nextSlot index s pc e i
  | .slot _, _ => none
  | .needCheck _ _, _ | .lastSend _ _, _ | .lastRecv, _ | .clearNeedCheck, _ | .resetNeedCheck _, _
  | .resetTimeout _, _ | .setTimeout _, _ => nextStore s pc
  | _, _ => nextTimeout index s pc

abbrev World (Buf : Type) := Pool (Timed Buf) (Pc Buf)

abbrev step (index : ℕ) : World Buf → ℕ × Event Buf → Option (World Buf) := Pool.step (next index)

/-- The slot as constructed. -/
def initial [Inhabited Buf] : Timed Buf where
  slot := Slot.initial
  clock := 0
  lastRecv := 0
  lastSend := 0
  needCheckSendTimeout := false
  timeout := 5000
  defaultTimeout := 5000
  checkTimeout := true
  acceptedAt := fun _ => 0
  recvAt := fun _ => 0
  sends := []
  ended := 0

/-- The start: the slot as constructed and `n` idle threads. -/
def World.initial [Inhabited Buf] (n : ℕ) : World Buf :=
  ⟨Timed.initial, List.replicate n (.slot .idle)⟩

/-- **What a call of `OnSessionTimeout` says of the session named**: it was
accepted, and it has been waiting for longer than the timeout, since the
latest of its accept and its last posted receive, or since the start of a
send of its own that is still outstanding. -/
def Charged (s : Timed Buf) (id : SessionID) (info : timeoutInfo) : Prop :=
  id ∈ s.slot.accepted ∧
    match info.type with
    | .recv => info.timeoutTime * 1000000 < s.clock - max (s.acceptedAt id) (s.recvAt id)
    | .send => ∃ x ∈ s.sends, x.1 = id ∧ info.timeoutTime * 1000000 < s.clock - x.2

instance decidableCharged (s : Timed Buf) (id : SessionID) (info : timeoutInfo) :
    Decidable (s.Charged id info) := by
  unfold Charged
  cases info.type <;> exact inferInstance

end Timed

end NetLib
