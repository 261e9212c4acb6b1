import NetLib.Library.Pool
/-!
# Starting and stopping the server

`Init` creates the threads, which wait for `Start`, but for the workers,
which wait at the completion port. `Stop` clears `_isRunning`, closes the
listening socket, posts one empty completion and waits for every thread of
`_threadArray`; a worker that takes the empty completion posts it again and
leaves. `Wait` sleeps until `Stop` has seen all threads end.

`next` is the code, one access at a time. A callback of the application may
call `Stop`, `Start` or `Wait`, and may post to the port, like any thread
outside the server; but `OnEnd` is one step, and calls none of them.
-/

namespace NetLib

/-- What `GetQueuedCompletionStatus` answers: `transferred`, `session` (zero
is null), and its own result. -/
structure Completion where
  transferred : BitVec 32
  session : ℕ
  ret : Bool
  deriving DecidableEq

/-- What a worker does with a completion. -/
inductive Turn
  /-- Posts it again, and leaves. -/
  | leave
  /-- `Release(L"ConnectEndRel")` -/
  | connectEnd
  /-- `Release(L"GQCSErrorRelease")` -/
  | failed
  | execute
  deriving DecidableEq

/-- The tests of `WorkerThread`. -/
def Completion.turn (c : Completion) : Turn :=
  if c.transferred = 0 ∧ c.session = 0 then .leave
  else if c.transferred = 0 ∧ c.ret then .connectEnd
  else if c.transferred = 0 ∧ c.session ≠ 0 then .failed
  else .execute

/-- Where the completions come from that are not `Stop`'s. -/
inductive Origin
  /-- The kernel has finished an I/O of a session. -/
  | io (key : ℕ) (transferred : BitVec 32) (ret : Bool) (hkey : key ≠ 0)
  /-- `SendPacket` and `PostRelease` of a session -/
  | session (key : ℕ)
  /-- `PostExecutable` -/
  | executable (arg : ℕ)

def Origin.completion : Origin → Completion
  | .io key transferred ret _ => ⟨transferred, key, ret⟩
  | .session key => ⟨BitVec.ofInt 32 (-1), key, true⟩
  | .executable arg => ⟨2, arg, true⟩

/-- `PostQueuedCompletionStatus(_iocp, 0, 0, nullptr)` -/
def Completion.stop : Completion := ⟨0, 0, true⟩

/-- The threads that wait for `Start`. -/
inductive Loop
  | accept
  | group
  | timeout
  | monitor
  deriving DecidableEq

namespace Shutdown

/-- Whose code the application runs in. -/
inductive Caller
  | outside
  | worker
  | loop (r : Loop)
  deriving DecidableEq

/-- The program points. -/
inductive Pc
  /-- The code of the application. -/
  | app (c : Caller)
  -- Start
  | startWake (c : Caller)
  -- Stop
  | stopClose (c : Caller)
  | stopPost (c : Caller)
  | stopJoin (c : Caller) (rest : List (Option ℕ))
  | stopOnEnd (c : Caller)
  | stopWake (c : Caller)
  -- Wait
  | waitRead (c : Caller)
  | waitOnAddress (c : Caller)
  | waitAsleep (c : Caller)
  -- WaitStart
  | startRead (r : Loop)
  | startOnAddress (r : Loop)
  | startAsleep (r : Loop)
  -- GroupThread, TimeoutThread, MonitorThread, AcceptThread
  | test (r : Loop)
  | acceptCall
  | accepting
  -- WorkerThread
  | getStatus
  | postAgain
  -- the end of a thread
  | leave
  | ended
  /-- At the `__debugbreak` of `AcceptThread`. -/
  | broken
  deriving DecidableEq

/-- A thread, and the id Windows gave it. -/
structure Thread where
  id : ℕ
  pc : Pc
  deriving DecidableEq

/-- What is left open at a step. -/
inductive Event
  | go
  /-- The application's code returns to the server. -/
  | done
  | start
  | stop
  | wait
  /-- A completion gets to the port. -/
  | post (o : Origin)
  /-- A client connects. -/
  | connect
  /-- `WakeByAddressSingle` wakes the thread `id`. -/
  | wake (id : ℕ)
  /-- `WaitOnAddress` returns for no reason. -/
  | spurious

end Shutdown

open Shutdown

/-- What the threads share. -/
structure Service where
  /-- `_isRunning` -/
  isRunning : Bool
  /-- `gracefulEnd` -/
  gracefulEnd : Bool
  /-- Is `_listenSocket` open? -/
  listening : Bool
  /-- The completion port. -/
  iocp : List Completion
  /-- `_threadArray`: the ids of the threads `Init` has created, behind the
  null handles that its `resize` has put there. -/
  threadArray : List (Option ℕ)
  /-- The threads whose handle is signaled. -/
  ended : List ℕ
  /-- The threads asleep on `_isRunning`. -/
  startWaiters : List ℕ
  /-- The threads asleep on `gracefulEnd`. -/
  endWaiters : List ℕ
  /-- History: how many calls of `Stop` have posted, and the threads that have
  called them. -/
  stops : ℕ
  stoppers : List ℕ
  /-- History: how many times `OnEnd` was called. -/
  ends : ℕ
  /-- History: how many calls of `Wait` have returned. -/
  waited : ℕ

namespace Shutdown

/-- Where the application's code returns to. -/
def Caller.resume : Caller → Option Pc
  | .outside => none
  | .worker => some .getStatus
  | .loop r => some (.test r)

/-- The code of the application. -/
def nextApp (s : Service) (c : Caller) : Event → Option (Service × Pc)
  | .done => c.resume.map fun pc => (s, pc)
  | .start => some ({ s with isRunning := true }, .startWake c)
  | .stop => some ({ s with isRunning := false }, .stopClose c)
  | .wait => some (s, .waitRead c)
  | .post o => some ({ s with iocp := s.iocp ++ [o.completion] }, .app c)
  | _ => none

/-- `Start`, `Stop` and `Wait`, called by the thread `id`. -/
def nextCall (s : Service) (id : ℕ) : Pc → Event → Option (Service × Pc)
  | .startWake c, .go => some ({ s with startWaiters := [] }, .app c)
  | .stopClose c, .go => some ({ s with listening := false }, .stopPost c)
  | .stopPost c, .go =>
    some ({ s with
      iocp := s.iocp ++ [.stop], stops := s.stops + 1, stoppers := s.stoppers ++ [id] },
      .stopJoin c s.threadArray)
  -- a null handle: WaitForSingleObject fails
  | .stopJoin c (none :: rest), .go => some (s, .stopJoin c rest)
  | .stopJoin c (some other :: rest), .go =>
    if other = id ∨ other ∈ s.ended then some (s, .stopJoin c rest) else none
  | .stopJoin c [], .go => some ({ s with gracefulEnd := true }, .stopOnEnd c)
  | .stopOnEnd c, .go => some ({ s with ends := s.ends + 1 }, .stopWake c)
  | .stopWake c, .go => if s.endWaiters = [] then some (s, .app c) else none
  | .stopWake c, .wake other =>
    if other ∈ s.endWaiters then some ({ s with endWaiters := s.endWaiters.erase other }, .app c)
    else none
  | .waitRead c, .go =>
    if s.gracefulEnd then some ({ s with waited := s.waited + 1 }, .app c)
    else some (s, .waitOnAddress c)
  | .waitOnAddress c, .go =>
    if s.gracefulEnd then some (s, .waitRead c)
    else some ({ s with endWaiters := id :: s.endWaiters }, .waitAsleep c)
  | .waitAsleep c, .go => if id ∈ s.endWaiters then none else some (s, .waitRead c)
  | .waitAsleep c, .spurious =>
    some ({ s with endWaiters := s.endWaiters.filter (· ≠ id) }, .waitRead c)
  | _, _ => none

/-- The loops of the threads, and `WaitStart`. -/
def nextLoop (s : Service) (id : ℕ) : Pc → Event → Option (Service × Pc)
  | .startRead r, .go => some (s, if s.isRunning then .test r else .startOnAddress r)
  | .startOnAddress r, .go =>
    if s.isRunning then some (s, .startRead r)
    else some ({ s with startWaiters := id :: s.startWaiters }, .startAsleep r)
  | .startAsleep r, .go => if id ∈ s.startWaiters then none else some (s, .startRead r)
  | .startAsleep r, .spurious =>
    some ({ s with startWaiters := s.startWaiters.filter (· ≠ id) }, .startRead r)
  | .test r, .go =>
    some (s, if s.isRunning then if r = .accept then .acceptCall else .app (.loop r) else .leave)
  -- accept on a closed socket fails with another error than one that is interrupted
  | .acceptCall, .go => some (s, if s.listening then .accepting else .broken)
  | .accepting, .go => if s.listening then none else some (s, .leave)
  | .accepting, .connect => if s.listening then some (s, .app (.loop .accept)) else none
  | .getStatus, .go =>
    match s.iocp with
    | [] => none
    | c :: rest =>
      some ({ s with iocp := rest }, if c.turn = .leave then .postAgain else .app .worker)
  | .postAgain, .go => some ({ s with iocp := s.iocp ++ [.stop] }, .leave)
  | .leave, .go => some ({ s with ended := id :: s.ended }, .ended)
  | _, _ => none

/-- The next action of the thread `id`. -/
def nextPc (s : Service) (id : ℕ) (pc : Pc) (e : Event) : Option (Service × Pc) :=
  match pc with
  | .app c => nextApp s c e
  | .startWake _ | .stopClose _ | .stopPost _ | .stopJoin _ _ | .stopOnEnd _ | .stopWake _
  | .waitRead _ | .waitOnAddress _ | .waitAsleep _ => nextCall s id pc e
  | _ => nextLoop s id pc e

def next (s : Service) (t : Thread) (e : Event) : Option (Service × Thread) :=
  (nextPc s t.id t.pc e).map fun r => (r.1, ⟨t.id, r.2⟩)

abbrev World := Pool Service Thread

abbrev step : World → ℕ × Event → Option World := Pool.step next

/-- The threads that `Init` creates for `workers` workers, where they begin. -/
def serverThreads (workers : ℕ) : List Pc :=
  .startRead .accept :: List.replicate workers .getStatus ++
    [.startRead .group, .startRead .timeout, .startRead .monitor]

/-- A server after `Init`, and `n` threads outside of it. -/
def World.initial (workers n : ℕ) : World where
  shared := {
    isRunning := false
    gracefulEnd := false
    listening := true
    iocp := []
    threadArray := List.replicate workers none ++ (List.range (workers + 4)).map some
    ended := []
    startWaiters := []
    endWaiters := []
    stops := 0
    stoppers := []
    ends := 0
    waited := 0 }
  threads := (serverThreads workers ++ List.replicate n (Pc.app .outside)).mapIdx Thread.mk

end Shutdown

end NetLib
