import NetLib.Group.Jobs
import NetLib.Group.Model
/-!
# Calls that nest

`Group::Enqueue` may run `Update` itself, and the callbacks of `Update` may
call whatever they like. A thread is the stack of its calls, each at a program
point, and any number of threads share `_groupLock` and the groups. Inside
`Enqueue`, `Update` and `HandleJob` a frame is at a program point of
`Group.access`, one access at a time.

Left open is what decides nothing here: whether `FindSession` finds a session,
whether a `Release` is the last one, what is in the receive ring and what
`NeedUpdate` answers. Left out are the socket calls, the posts to the port and
`Group::_sessions`.
-/

namespace NetLib

instance : Inhabited GroupJob := ⟨.Recv ⟨0, 0⟩⟩

/-- `SRWLOCK` -/
structure SRWLock where
  readers : ℕ
  writer : Bool

/-- `GroupManager`, with its groups and the `_groupId` of the sessions. -/
structure GroupManager where
  groupLock : SRWLock
  groups : GroupID → Option (Group.Jobs GroupJob)
  /-- `g_GroupID` -/
  lastId : GroupID
  groupId : SessionID → GroupID

namespace GroupManager

/-- Code of the application: a thread's own, or a callback. -/
inductive Code
  | outside
  /-- `IOCP::OnRecvPacket` -/
  | onRecvPacket (id : SessionID)
  | onCreate
  | onUpdate (g : GroupID)
  | callback (c : Callback)
  deriving DecidableEq

/-- A call and its program point. -/
inductive Frame
  | code (c : Code)
  -- GroupManager::MoveSession
  | moveFind (id : SessionID) (dst : GroupID) (update : Bool)
  | moveSrc (id : SessionID) (dst : GroupID) (update : Bool)
  | moveLock (id : SessionID) (src dst : GroupID) (update : Bool)
  | moveLeave (id : SessionID) (src dst : GroupID) (update : Bool)
  | moveSetGroup (id : SessionID) (dst : GroupID) (update : Bool)
  | moveEnter (id : SessionID) (dst : GroupID) (update : Bool)
  | moveUnlock (id : SessionID)
  -- Session::Release
  | release (id : SessionID)
  -- GroupManager::SessionDisconnected
  | disconnectSrc (id : SessionID)
  | disconnectLock (id : SessionID) (src : GroupID)
  | disconnectLeave (id : SessionID) (src : GroupID)
  | disconnectUnlock
  -- RecvExecutable::Execute
  | execute (id : SessionID)
  | executeGroup (id : SessionID)
  | recvLoop (id : SessionID)
  | recvNotIncrease (id : SessionID)
  -- GroupManager::OnRecv
  | onRecvLock (id : SessionID) (g : GroupID)
  | onRecvUnlock (id : SessionID) (g : GroupID)
  -- GroupManager::CreateGroup
  | createLock (g : GroupID)
  | createEmplace (g : GroupID)
  | createUnlock
  -- GroupManager::Update
  | updateLock
  | updateUnlock
  -- IOCP::DisconnectSession and IOCP::SendPacket
  | closeFind (id : SessionID)
  | sendFind (id : SessionID)
  | processBuffer (id : SessionID)
  -- Group::Enqueue, Group::Update and Group::HandleJob
  | enqueue (g : GroupID) (job : GroupJob) (update : Bool)
  | update (g : GroupID)
  | group (g : GroupID) (pc : Group.Pc GroupJob)
  | recvFind (g : GroupID) (id : SessionID) (pc : Group.Pc GroupJob)
  | recvHandler (g : GroupID) (id : SessionID)

/-- What code calls, and what else is left open at a step. -/
inductive Event
  | go
  /-- `IOCP::MoveSession` where `update`, else `Group::MoveSession`. -/
  | moveSession (id : SessionID) (dst : GroupID) (update : Bool)
  | createGroup
  | disconnectSession (id : SessionID)
  | sendPacket (id : SessionID)
  -- what a worker or a timer starts
  | recv (id : SessionID)
  | release (id : SessionID)
  | run (g : GroupID)
  | update
  /-- `std::invalid_argument` out of a callback. -/
  | throw
  -- what FindSession answers
  | found
  | missing
  | outOfRange
  /-- Was it the last reference? -/
  | last (b : Bool)
  /-- What `recvHandleWaitInGroup` answers. -/
  | handled (b : Bool)
  /-- The receive ring has a packet. -/
  | packet
  /-- `_sendQ` takes no more. -/
  | full
  /-- `RecvNotIncrease` closes a session that is closed already. -/
  | close
  /-- What `NeedUpdate` answers. -/
  | due (b : Bool)
  deriving DecidableEq

/-- What a thread takes down of a step: that it acquired or released
`_groupLock` shared, set or cleared `_isRun`. -/
inductive Note
  | none
  | acquired
  | released
  | set (g : GroupID)
  | cleared (g : GroupID)

/-! ## Groups -/

/-- The frames for a job that `HandleJob` got, and that goes on at `pc`. -/
def jobFrames (g : GroupID) (pc : Group.Pc GroupJob) : GroupJob → List Frame
  | .Enter id => [.code (.callback (.OnEnter g id)), .group g pc]
  | .Leave id _ => [.code (.callback (.OnLeave g id)), .group g pc]
  | .Recv id => [.recvFind g id pc]

/-- The frames after an access of a group, which led from `pc` to the program
point that comes last. -/
def groupFrames (g : GroupID) (pc : Group.Pc GroupJob) : Group.Pc GroupJob → List Frame
  -- the call returns
  | .code .outside => []
  | .code (.update home) => [.code (.onUpdate g), .group g (.code (.update home))]
  | .code (.job n home) =>
    match pc with
    | .clear _ _ _ call => jobFrames g (.code (.job n home)) call.job
    | _ => [.group g (.code (.job n home))]
  | pc' => [.group g pc']

def groupNote (g : GroupID) (s : Group.Jobs GroupJob) : Group.Pc GroupJob → Note
  | .exchangeRun _ => if s.isRun then .none else .set g
  | .endRun _ => .cleared g
  | _ => .none

/-- An access of the group `g`. -/
def accessGroup (s : GroupManager) (g : GroupID) (pc : Group.Pc GroupJob)
    (e : Group.Event GroupJob) : Option (GroupManager × List Frame × Note) :=
  (s.groups g).bind fun jobs => (Group.access jobs pc e).map fun r =>
    ({ s with groups := Function.update s.groups g (some r.1) }, groupFrames g pc r.2.1,
      groupNote g jobs pc)

/-! ## The other calls -/

/-- `AcquireSRWLockShared` -/
def acquireShared (s : GroupManager) (f : Frame) : Option (GroupManager × List Frame × Note) :=
  if s.groupLock.writer then none
  else some ({ s with groupLock := ⟨s.groupLock.readers + 1, false⟩ }, [f], .acquired)

/-- `ReleaseSRWLockShared` -/
def releaseShared (s : GroupManager) (fs : List Frame) : GroupManager × List Frame × Note :=
  ({ s with groupLock := ⟨s.groupLock.readers - 1, s.groupLock.writer⟩ }, fs, .released)

/-- `FindSession`: when it fails it releases what it took, and the caller
returns. -/
def find (s : GroupManager) (id : SessionID) (f : Frame) :
    Event → Option (GroupManager × List Frame × Note)
  | .found => some (s, [f], .none)
  | .missing => some (s, [.release id], .none)
  | .outOfRange => some (s, [], .none)
  | _ => none

/-- What code does next. -/
def accessCode (s : GroupManager) (c : Code) : Event → Option (GroupManager × List Frame × Note)
  | .moveSession id dst update => some (s, [.moveFind id dst update, .code c], .none)
  | .createGroup =>
    some ({ s with lastId := s.lastId + 1 },
      [.code .onCreate, .createLock (s.lastId + 1), .code c], .none)
  | .disconnectSession id => some (s, [.closeFind id, .code c], .none)
  | .sendPacket id => some (s, [.sendFind id, .code c], .none)
  | .recv id => if c = .outside then some (s, [.execute id, .code c], .none) else none
  | .release id => if c = .outside then some (s, [.release id, .code c], .none) else none
  | .run g => if c = .outside then some (s, [.update g, .code c], .none) else none
  | .update => if c = .outside then some (s, [.updateLock, .code c], .none) else none
  | .go => if c = .outside then none else some (s, [], .none)
  | .throw =>
    match c with
    | .onRecvPacket id | .callback (.OnRecv _ id) => some (s, [.closeFind id], .none)
    | _ => none
  | _ => none

/-- The next access of the call on top of a stack, and the frames that take its
place. -/
def access (s : GroupManager) : Frame → Event → Option (GroupManager × List Frame × Note)
  | .code c, e => accessCode s c e
  -- MoveSession
  | .moveFind id dst update, e => find s id (.moveSrc id dst update) e
  | .moveSrc id dst update, .go => some (s, [.moveLock id (s.groupId id) dst update], .none)
  | .moveLock id src dst update, .go => acquireShared s (.moveLeave id src dst update)
  | .moveLeave id src dst update, .go =>
    some (s, if src = BaseGroupID then [.moveSetGroup id dst update]
      else [.enqueue src (.Leave id false) update, .moveSetGroup id dst update], .none)
  | .moveSetGroup id dst update, .go =>
    some ({ s with groupId := Function.update s.groupId id dst }, [.moveEnter id dst update], .none)
  | .moveEnter id dst update, .go =>
    some (s, if dst = BaseGroupID then [.moveUnlock id]
      else [.enqueue dst (.Enter id) update, .moveUnlock id], .none)
  | .moveUnlock id, .go => some (releaseShared s [.release id])
  -- Release; PostRelease ends it
  | .release id, .last b =>
    some (s, if b ∧ s.groupId id ≠ BaseGroupID then [.disconnectSrc id] else [], .none)
  -- SessionDisconnected
  | .disconnectSrc id, .go => some (s, [.disconnectLock id (s.groupId id)], .none)
  | .disconnectLock id src, .go => acquireShared s (.disconnectLeave id src)
  | .disconnectLeave id src, .go =>
    some (s, if src = BaseGroupID then [.disconnectUnlock]
      else [.enqueue src (.Leave id true) true, .disconnectUnlock], .none)
  | .disconnectUnlock, .go => some (releaseShared s [])
  -- Execute
  | .execute id, .handled b =>
    some (s, if s.groupId id ≠ BaseGroupID ∧ b = false then [.executeGroup id]
      else [.recvLoop id], .none)
  | .executeGroup id, .go =>
    some (s, [.onRecvLock id (s.groupId id), .recvNotIncrease id], .none)
  | .recvLoop id, .packet =>
    if s.groupId id = BaseGroupID then some (s, [.code (.onRecvPacket id), .recvLoop id], .none)
    else none
  | .recvLoop id, .go => some (s, [.recvNotIncrease id], .none)
  | .recvNotIncrease _, .go => some (s, [], .none)
  | .recvNotIncrease id, .missing => some (s, [.release id], .none)
  | .recvNotIncrease id, .close => some (s, [.closeFind id], .none)
  -- OnRecv
  | .onRecvLock id g, .go => acquireShared s (.onRecvUnlock id g)
  | .onRecvUnlock id g, .go => some (releaseShared s [.enqueue g (.Recv id) true])
  -- CreateGroup
  | .createLock g, .go =>
    if s.groupLock.writer ∨ s.groupLock.readers ≠ 0 then none
    else some ({ s with groupLock := ⟨0, true⟩ }, [.createEmplace g], .none)
  | .createEmplace g, .go =>
    some ({ s with groups := Function.update s.groups g (some (Group.World.initial 0).shared) },
      [.createUnlock], .none)
  | .createUnlock, .go => some ({ s with groupLock := ⟨0, false⟩ }, [], .none)
  -- Update
  | .updateLock, .go => acquireShared s .updateUnlock
  | .updateUnlock, .go => some (releaseShared s [])
  -- DisconnectSession and SendPacket
  | .closeFind id, e => find s id (.release id) e
  | .sendFind id, e => find s id (.processBuffer id) e
  | .processBuffer id, .go => some (s, [.release id], .none)
  | .processBuffer id, .full => some (s, [.closeFind id, .release id], .none)
  -- the group
  | .enqueue g job update, .go => accessGroup s g (.code .outside) (.enqueue job update)
  | .update g, .go => accessGroup s g (.code .outside) .run
  | .group g pc, .go => accessGroup s g pc .go
  | .group g pc, .due b => accessGroup s g pc (.due b)
  | .recvFind g id pc, .found => some (s, [.recvHandler g id, .group g pc], .none)
  -- continue
  | .recvFind g id pc, .missing =>
    (accessGroup s g pc .gone).map fun r => (r.1, .release id :: r.2.1, r.2.2)
  | .recvFind g _ pc, .outOfRange => accessGroup s g pc .gone
  | .recvHandler g id, .packet =>
    if s.groupId id = g then
      some (s, [.code (.callback (.OnRecv g id)), .recvHandler g id], .none)
    else none
  | .recvHandler _ id, .go => some (s, [.release id], .none)
  | _, _ => none

/-! ## Threads -/

/-- A thread: its calls, the innermost first. How often it holds `_groupLock`
shared and which groups it consumes (it set their `_isRun`) is history. -/
structure Thread where
  stack : List Frame
  held : ℕ
  consumes : List GroupID

/-- How often `_groupLock` is held, after the step. -/
def Note.hold : Note → ℕ → ℕ
  | .acquired, n => n + 1
  | .released, n => n - 1
  | _, n => n

/-- Which groups are consumed, after the step. -/
def Note.consume : Note → List GroupID → List GroupID
  | .set g, l => g :: l
  | .cleared g, l => l.erase g
  | _, l => l

def next (s : GroupManager) (q : Thread) (e : Event) : Option (GroupManager × Thread) :=
  match q.stack with
  | [] => none
  | f :: rest => (access s f e).map fun r =>
    (r.1, ⟨r.2.1 ++ rest, r.2.2.hold q.held, r.2.2.consume q.consumes⟩)

abbrev World := Pool GroupManager Thread

abbrev step : World → ℕ × Event → Option World := Pool.step next

/-- A server without groups, its sessions in the base group, and `n` threads. -/
def World.initial (n : ℕ) : World where
  shared := ⟨⟨0, false⟩, fun _ => none, 0, fun _ => BaseGroupID⟩
  threads := List.replicate n ⟨[.code .outside], 0, []⟩

/-- No thread waits for itself. -/
structure Safe (w : World) : Prop where
  /-- A thread that requests `_groupLock` exclusively does not hold it shared, -/
  exclusive : ∀ q ∈ w.threads, ∀ g rest, q.stack = .createLock g :: rest → q.held = 0
  /-- and one that waits for room in the queue of a group is not the one to make
  room in it. -/
  room : ∀ q ∈ w.threads, ∀ g home call update rest,
    q.stack = .group g (.retry home call update) :: rest → g ∉ q.consumes

/-- Is the call between `AcquireSRWLockShared` and `ReleaseSRWLockShared`? -/
def Frame.locks : Frame → ℕ
  | .moveLeave _ _ _ _ | .moveSetGroup _ _ _ | .moveEnter _ _ _ | .moveUnlock _
  | .disconnectLeave _ _ | .disconnectUnlock | .onRecvUnlock _ _ | .updateUnlock => 1
  | _ => 0

end GroupManager

/-- Is it inside `Update`, past the exchange? -/
def Group.Pc.updates {Job : Type} : Group.Pc Job → Bool
  | .code .outside | .retry _ _ _ | .load _ _ _ _ | .put _ _ _ _ | .publish _ _ _ _
  | .checkRun _ | .exchangeRun _ => false
  | _ => true

namespace GroupManager

/-- The group whose `Update` the call is inside of. -/
def Frame.runs : Frame → Option GroupID
  | .group g pc | .recvFind g _ pc => if pc.updates then some g else none
  | _ => none

/-- `CreateGroup` is not called by a callback that runs under `_groupLock`. -/
def Thread.MayCreate (q : Thread) : Prop := ∀ f ∈ q.stack, f.locks = 0

/-- An `Enqueue` inside an `Update` of the same group finds its cell free. -/
def Thread.FindsRoom (s : GroupManager) (q : Thread) : Prop :=
  match q.stack with
  | .group g (.load _ _ _ t) :: rest =>
    (∃ f ∈ rest, f.runs = some g) → (s.groups g).all (fun jobs => !jobs.queue.loadUsed t) = true
  | _ => True

/-- The two conditions, at the step of a thread. -/
def Careful (w : World) (e : ℕ × Event) (_ : World) : Prop :=
  ∀ q ∈ w.threads[e.1]?, (e.2 = .createGroup → q.MayCreate) ∧ q.FindsRoom w.shared

instance decidableMayCreate (q : Thread) : Decidable q.MayCreate :=
  inferInstanceAs (Decidable (∀ f ∈ q.stack, f.locks = 0))

instance decidableFindsRoom (s : GroupManager) (q : Thread) : Decidable (q.FindsRoom s) := by
  unfold Thread.FindsRoom
  split <;> infer_instance

instance decidableCareful (w : World) (e : ℕ × Event) (w' : World) : Decidable (Careful w e w') :=
  match h : w.threads[e.1]? with
  | none => .isTrue fun q hq => by rw [h] at hq; cases hq
  | some q => decidable_of_iff ((e.2 = .createGroup → q.MayCreate) ∧ q.FindsRoom w.shared)
      ⟨fun hok r hr => by
        obtain rfl : q = r := Option.some.inj (h.symm.trans hr)
        exact hok, fun hok => hok q h⟩

end GroupManager

end NetLib
