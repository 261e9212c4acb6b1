import Mathlib.Data.Finset.Basic
import NetLib.Slot.Pinning
/-!
# A slot whose session moves between groups

A session outside the base group leaves some of its work to jobs: `Enter`
and `Leave` of the groups it moves between, `Recv` for the data it receives,
and a last `Leave` once it is released, after which the group calls
`PostRelease`. `Grouped` adds the group of a slot and the jobs about it to
the slot, and `Grouped.Pc` the program points of `MoveSession`,
`SessionDisconnected`, `RecvExecutable` and `HandleJob`. Everything else a
thread does is a step of the slot.

A thread in `Group::Update` is at `slot (some g)`, others are at
`slot none`; at `idle` the former goes on to its group's next job. What a
callback calls (`MoveSession`, `Disconnect`, ..) is done by some other
thread while the callback lasts, and so is the `Update` that a thread runs
after it has queued a job.

A group's `_jobs` is taken as a FIFO queue that always has room: `Enqueue`
is one step that succeeds. The real queue has 8192 cells, and a full one
refuses a ticket, for which `Group::Enqueue` tries again with a later one;
what becomes of the jobs behind it then is in `Group.Full`. Left out are the
receive ring, `errCode` and `transferred`, which decide nothing here, and
the job type `Move`, which nothing queues.
-/

namespace NetLib

/-- `Group::GroupJob`. Whether a `Leave` comes from `SessionDisconnected` is
history. -/
inductive GroupJob
  | Recv (sessionId : SessionID)
  | Enter (sessionId : SessionID)
  | Leave (sessionId : SessionID) (last : Bool)
  deriving DecidableEq, Repr

/-- A call of a group's virtual function, or of `OnDisconnect`. -/
inductive Callback
  | OnEnter (group : GroupID) (id : SessionID)
  | OnLeave (group : GroupID) (id : SessionID)
  | OnRecv (group : GroupID) (id : SessionID)
  | OnDisconnect (id : SessionID)
  deriving DecidableEq, Repr

/-- The slot and what the groups hold about it. -/
structure Grouped (Buf : Type) where
  slot : Slot Buf
  /-- `_groupId` -/
  groupId : GroupID
  /-- `_isHandled` -/
  isHandled : Bool
  /-- The queues of all groups: the `_jobs` of `g` are the entries for `g`,
  in order. -/
  jobs : List (GroupID × GroupJob)
  /-- `Group::_sessions` -/
  sessions : GroupID → Finset SessionID
  /-- `Group::_isRun` -/
  isRun : GroupID → Bool
  /-- History: the callbacks made, in order. -/
  callbacks : List Callback
  /-- History: the sessions `ReleaseExecutable` ran `Reset` for, and the ones
  it pushed the index of to `_freeIndex`. -/
  resets : List SessionID
  pushed : List SessionID

namespace Grouped

variable {Buf : Type}

/-- The program points. `last` is history: whether the `Leave` job in hand
comes from `SessionDisconnected`. -/
inductive Pc (Buf : Type)
  | slot (home : Option GroupID) (pc : Slot.Pc Buf)
  -- Session::Release, after the exchange, and SessionDisconnected
  | releaseGroup (home : Option GroupID) (k : Slot.After)
  | disconnectSrc (home : Option GroupID) (k : Slot.After)
  | disconnectLeave (home : Option GroupID) (src : GroupID) (k : Slot.After)
  -- GroupManager::MoveSession
  | moveSrc (id : SessionID) (dst : GroupID)
  | moveLeave (id : SessionID) (src dst : GroupID)
  | moveSetGroup (id : SessionID) (dst : GroupID)
  | moveEnter (id : SessionID) (dst : GroupID)
  -- RecvExecutable::Execute
  | execGroup
  | execHandled
  | setHandled
  | onRecv
  | enqueueRecv (id : SessionID) (g : GroupID)
  -- Session::Reset
  | resetGroup (r : Slot.Resetter)
  -- Group::Update
  | endUpdate (g : GroupID)
  -- Group::HandleJob
  | insert (g : GroupID) (id : SessionID)
  | onEnter (g : GroupID) (id : SessionID)
  | erase (g : GroupID) (id : SessionID) (last : Bool)
  | onLeave (g : GroupID) (id : SessionID) (last : Bool)
  -- IOCP::CheckPostRelease
  | checkGroup (g : GroupID) (id : SessionID) (last : Bool)
  | checkId (g : GroupID) (id : SessionID) (last : Bool)
  | checkRef (g : GroupID) (id : SessionID) (last : Bool)
  | checkAssert (g : GroupID) (id : SessionID) (last : Bool) (value : ℤ)
  | checkPost (g : GroupID) (id : SessionID) (last : Bool)
  -- Group::RecvHandler
  | clearHandled (g : GroupID) (id : SessionID)
  | recvLoop (g : GroupID) (id : SessionID)
  | packet (g : GroupID) (id : SessionID)

/-- What a group's `RecvHandler` finds in the receive ring. -/
inductive Found
  | packet
  /-- Not enough bytes. -/
  | short
  /-- A wrong code, length or checksum. -/
  | violation
  deriving DecidableEq

/-- What is left open at a step. -/
inductive Event (Buf : Type)
  | slot (e : Slot.Event Buf)
  /-- `MoveSession`, by a thread that has found the session. -/
  | moveSession (dst : GroupID)
  /-- `Group::Update`. -/
  | update (g : GroupID)
  | found (f : Found)

/-- Where a slot's thread comes to what groups are about: after the exchange
in `Release`, after `FindSession` for a `Recv` job, at a completed receive,
and inside `Reset`. -/
def enter : Option GroupID → Slot.Pc Buf → Slot.Pc Buf → Pc Buf
  | home, _, .postRelease k => .releaseGroup home k
  | some g, _, .holding id => .clearHandled g id
  | none, .idle, .recvExecute => .execGroup
  | _, _, .resetSending r => .resetGroup r
  | home, _, pc => .slot home pc

/-- What the histories take down of a step of the slot. -/
def observe (s : Grouped Buf) : Slot.Pc Buf → Grouped Buf
  | .onDisconnect => { s with callbacks := s.callbacks ++ [.OnDisconnect s.slot.sessionId] }
  | .releaseFreeIndex => { s with pushed := s.pushed ++ [s.slot.sessionId] }
  | _ => s

/-- A step of the slot. -/
def nextSlot (index : ℕ) (s : Grouped Buf) (home : Option GroupID) (pc : Slot.Pc Buf)
    (e : Slot.Event Buf) : Option (Grouped Buf × Pc Buf) :=
  (Slot.next index s.slot pc e).map fun r => ({ s.observe pc with slot := r.1 }, enter home pc r.2)

/-- `_jobs->Enqueue` of the group `g`, which has room. -/
def enqueue (s : Grouped Buf) (g : GroupID) (job : GroupJob) : Grouped Buf :=
  { s with jobs := s.jobs ++ [(g, job)] }

/-- `_jobs->Dequeue` of the group `g`. -/
def dequeue (s : Grouped Buf) (g : GroupID) : Option (GroupJob × Grouped Buf) :=
  (s.jobs.find? (·.1 = g)).map fun x => (x.2, { s with jobs := s.jobs.eraseP (·.1 = g) })

/-- `HandleJob` by the type of the job; `Recv` begins with `FindSession`. -/
def handle (g : GroupID) : GroupJob → Pc Buf
  | .Recv id => .slot (some g) (.find id .hold)
  | .Enter id => .insert g id
  | .Leave id last => .erase g id last

/-- The loop of `Update` and `HandleJob`: the next job, or the end. -/
def handleJob (s : Grouped Buf) (g : GroupID) : Grouped Buf × Pc Buf :=
  match s.dequeue g with
  | none => (s, .endUpdate g)
  | some (job, s') => (s', handle g job)

/-- What an idle thread starts. -/
def start (index : ℕ) (s : Grouped Buf) : Event Buf → Option (Grouped Buf × Pc Buf)
  | .slot e => nextSlot index s none .idle e
  | .update g =>
    if g = BaseGroupID then none
    else if s.isRun g then some (s, .slot none .idle)
    else some ({ s with isRun := Function.update s.isRun g true }, .slot (some g) .idle)
  | _ => none

/-- `Release` after the exchange, `SessionDisconnected`, `MoveSession` and
`RecvExecutable::Execute`, one access at a time. -/
def nextMove (s : Grouped Buf) : Pc Buf → Option (Grouped Buf × Pc Buf)
  | .releaseGroup home k =>
    some (s, if s.groupId = BaseGroupID then .slot home (.postRelease k)
      else .disconnectSrc home k)
  | .disconnectSrc home k =>
    -- SessionDisconnected reads the group again
    some (s, if s.groupId = BaseGroupID then .slot home k.pc
      else .disconnectLeave home s.groupId k)
  | .disconnectLeave home src k =>
    some (s.enqueue src (.Leave s.slot.sessionId true), .slot home k.pc)
  | .moveSrc id dst =>
    some (s, if s.groupId = BaseGroupID then .moveSetGroup id dst
      else .moveLeave id s.groupId dst)
  | .moveLeave id src dst =>
    some (s.enqueue src (.Leave s.slot.sessionId false), .moveSetGroup id dst)
  | .moveSetGroup id dst =>
    some ({ s with groupId := dst }, if dst = BaseGroupID then .slot none (.release (some id) .done)
      else .moveEnter id dst)
  | .moveEnter id dst =>
    some (s.enqueue dst (.Enter s.slot.sessionId), .slot none (.release (some id) .done))
  | .execGroup =>
    some (s, if s.groupId = BaseGroupID then .slot none .recvExecute else .execHandled)
  | .execHandled => some (s, if s.isHandled then .slot none .recvExecute else .setHandled)
  | .setHandled => some ({ s with isHandled := true }, .onRecv)
  -- the base group is no group: `_groups[groupId].get()` is null
  | .onRecv =>
    if s.groupId = BaseGroupID then none else some (s, .enqueueRecv s.slot.sessionId s.groupId)
  | .enqueueRecv id g => some (s.enqueue g (.Recv id), .slot none .recvRef)
  | .resetGroup (.accept id) =>
    some ({ s with groupId := BaseGroupID }, .slot none (.resetSending (.accept id)))
  | .resetGroup .release =>
    some ({ s with groupId := BaseGroupID, resets := s.resets ++ [s.slot.sessionId] },
      .slot none (.resetSending .release))
  | _ => none

/-- `HandleJob`, one access at a time. -/
def nextJob (s : Grouped Buf) : Pc Buf → Event Buf → Option (Grouped Buf × Pc Buf)
  | .endUpdate g, _ =>
    some ({ s with isRun := Function.update s.isRun g false }, .slot none .idle)
  | .insert g id, _ =>
    some ({ s with sessions := Function.update s.sessions g (Insert.insert id (s.sessions g)) },
      .onEnter g id)
  | .onEnter g id, _ =>
    some ({ s with callbacks := s.callbacks ++ [.OnEnter g id] }, .slot (some g) .idle)
  | .erase g id last, _ =>
    if id ∈ s.sessions g then
      some ({ s with sessions := Function.update s.sessions g ((s.sessions g).erase id) },
        .onLeave g id last)
    else none
  | .onLeave g id last, _ =>
    some ({ s with callbacks := s.callbacks ++ [.OnLeave g id] }, .checkGroup g id last)
  | .checkGroup g id last, _ =>
    some (s, if s.groupId = g then .checkId g id last else .slot (some g) .idle)
  | .checkId g id last, _ =>
    some (s, if s.slot.sessionId = id then .checkRef g id last else .slot (some g) .idle)
  -- GetRefCount
  | .checkRef g id last, _ => some (s, .checkAssert g id last s.slot.refCount)
  | .checkAssert g id last value, _ =>
    if s.slot.sessionId = id then
      some (s, if RELEASE_FLAG ≤ value then .checkPost g id last else .slot (some g) .idle)
    else none
  | .checkPost g _ _, _ =>
    some ({ s with slot := { s.slot with
      releasePosted := s.slot.releasePosted + 1
      posted := s.slot.posted ++ [s.slot.sessionId] } }, .slot (some g) .idle)
  | .clearHandled g id, _ => some ({ s with isHandled := false }, .recvLoop g id)
  | .recvLoop g id, _ =>
    some (s, if s.groupId = g then .packet g id else .slot (some g) (.release (some id) .done))
  | .packet g id, .found .packet =>
    some ({ s with callbacks := s.callbacks ++ [.OnRecv g id] }, .recvLoop g id)
  | .packet g id, .found .short => some (s, .slot (some g) (.release (some id) .done))
  | .packet g id, .found .violation => some (s, .slot (some g) (.close id .done))
  | _, _ => none

/-- The next action of a thread at a program point. -/
def next (index : ℕ) (s : Grouped Buf) (pc : Pc Buf) (e : Event Buf) :
    Option (Grouped Buf × Pc Buf) :=
  match pc, e with
  | .slot none .idle, e => start index s e
  | .slot (some g) .idle, _ => some (s.handleJob g)
  | .slot none (.holding id), .moveSession dst => some (s, .moveSrc id dst)
  | .slot home pc, .slot e => nextSlot index s home pc e
  | .slot _ _, _ => none
  | .releaseGroup _ _, _ | .disconnectSrc _ _, _ | .disconnectLeave _ _ _, _ | .moveSrc _ _, _
  | .moveLeave _ _ _, _ | .moveSetGroup _ _, _ | .moveEnter _ _, _ | .execGroup, _
  | .execHandled, _ | .setHandled, _ | .onRecv, _ | .enqueueRecv _ _, _ | .resetGroup _, _ =>
    nextMove s pc
  | pc, e => nextJob s pc e

abbrev World (Buf : Type) := Pool (Grouped Buf) (Pc Buf)

abbrev step (index : ℕ) : World Buf → ℕ × Event Buf → Option (World Buf) := Pool.step (next index)

/-- The slot as constructed, and groups without a session. -/
def initial [Inhabited Buf] : Grouped Buf where
  slot := Slot.initial
  groupId := BaseGroupID
  isHandled := false
  jobs := []
  sessions := fun _ => ∅
  isRun := fun _ => false
  callbacks := []
  resets := []
  pushed := []

/-- The start: the slot as constructed and `n` idle threads. -/
def World.initial [Inhabited Buf] (n : ℕ) : World Buf :=
  ⟨Grouped.initial, List.replicate n (.slot none .idle)⟩

theorem World.initial_idle (Buf : Type) [Inhabited Buf] (n : ℕ) :
    ∀ q ∈ (World.initial n : World Buf).threads, q = .slot none .idle :=
  fun _ hq => List.eq_of_mem_replicate hq

end Grouped

end NetLib
