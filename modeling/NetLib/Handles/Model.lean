import Mathlib.Algebra.BigOperators.Group.Finset.Basic
import NetLib.Server.Pinning
import NetLib.Slot.Holding
/-!
# `SendBuffer` and the reference counts of `CSendBuffer`

A `SendBuffer` is a handle on a `CSendBuffer`, which counts its references.
`ProcessBuffer` takes a further reference for the queue it puts the buffer
into, and whoever takes the buffer out of its last place on the server
releases it. The threads run the server as in `Server`; between two of its
actions they call what the server calls of `CSendBuffer`, and idle threads
use handles. Buffers are numbered as they are constructed. Their contents are
left out: no count depends on them.
-/

namespace NetLib

open Slot

/-- A `SendBuffer` object. -/
inductive Handle
  | destroyed
  /-- Moved from. -/
  | null
  | holds (buffer : ℕ)
  deriving DecidableEq

/-- The server, the buffers and the handles. -/
structure Handles where
  server : Server ℕ
  /-- `CSendBuffer::_refCount` -/
  refCount : ℕ → BitVec 32
  /-- `CSendBuffer::_pool`: the buffers freed to it. -/
  pool : List ℕ
  /-- How many buffers `_pool` has constructed. -/
  constructed : ℕ
  /-- Every `SendBuffer` that there was. -/
  handles : List Handle

/-- What a call of `SendPacket` is still about: the buffer of the handle it
was given. -/
def Slot.Pc.argument : Pc ℕ → Option ℕ
  | .find _ (.sendPacket x) | .find _ (.sendPacketBlocking x) => some x
  | .findCheck _ _ (.sendPacket x) | .findCheck _ _ (.sendPacketBlocking x) => some x
  | .enqTicket x _ => some x
  | _ => none

namespace Handles

/-- What a thread has ahead of it in `CSendBuffer`. -/
inductive Todo
  /-- `Alloc` has the buffer from `_pool`: `IncreaseRef`, and the handle. -/
  | construct (x : ℕ)
  /-- `Release` -/
  | release (x : ℕ)
  /-- `Release` came to zero: `_pool.Free`. -/
  | free (x : ℕ)
  deriving DecidableEq

/-- A thread: where it is on the server, the handle `SendPacket` was called
with as long as `ProcessBuffer` has not taken its reference, and what it has
to do first. -/
structure Thread where
  onServer : ℕ × Pc ℕ
  lent : Option ℕ
  todo : List Todo

/-- What an idle thread does with a handle, and what it does on the server. -/
inductive Event
  /-- `SendBuffer::Alloc`, with the buffer that `_pool.Alloc` picks. -/
  | alloc (x : ℕ)
  /-- `SendBuffer(const SendBuffer&)` -/
  | copy (h : ℕ)
  /-- `SendBuffer(SendBuffer&&)` -/
  | move (h : ℕ)
  /-- `swap(SendBuffer&, SendBuffer&)` -/
  | swap (h k : ℕ)
  /-- `~SendBuffer` -/
  | destroy (h : ℕ)
  | sendPacket (id : SessionID) (h : ℕ)
  | sendPacketBlocking (id : SessionID) (h : ℕ)
  | server (index : ℕ) (e : Slot.Event ℕ)

/-- `a = b`: the parameter of `operator=` is copied from `b`, as handle `k`,
swapped with `a` and destroyed. -/
def assignCopy (a b k : ℕ) : List Event := [.copy b, .swap a k, .destroy k]

/-- `a = std::move(b)` -/
def assignMove (a b k : ℕ) : List Event := [.move b, .swap a k, .destroy k]

/-- `CSendBuffer::IncreaseRef` -/
def increaseRef (s : Handles) (x : ℕ) : Handles :=
  { s with refCount := Function.update s.refCount x (s.refCount x + 1) }

/-- The decrement of `CSendBuffer::Release` -/
def decreaseRef (s : Handles) (x : ℕ) : Handles :=
  { s with refCount := Function.update s.refCount x (s.refCount x - 1) }

/-- A thread does what it has ahead of it. -/
def act (s : Handles) (th : Thread) (rest : List Todo) : Todo → Handles × Thread
  | .construct x =>
    ({ s.increaseRef x with handles := s.handles ++ [.holds x] }, { th with todo := rest })
  | .release x =>
    (s.decreaseRef x, { th with todo := if s.refCount x - 1 = 0 then .free x :: rest else rest })
  | .free x => ({ s with pool := x :: s.pool }, { th with todo := rest })

/-- An action of the server, and the buffers that are to be released after
it. -/
def serve (s : Handles) (th : Thread) (e : ℕ × Slot.Event ℕ) : Option (Handles × Thread) :=
  (Server.next s.server th.onServer e).map fun r =>
    ({ s with server := r.1 },
      { onServer := r.2
        lent := if r.2.2.argument = none then none else th.lent
        todo := (gives (s.server.sessions r.2.1) th.onServer.2 (r.1.sessions r.2.1)).map .release })

/-- What an idle thread starts. A null handle is not copied or sent: both
read its buffer. `SendPacket` is called with a handle, never with a buffer. -/
def start (s : Handles) (th : Thread) : Event → Option (Handles × Thread)
  | .alloc x =>
    if x ∈ s.pool then some ({ s with pool := s.pool.erase x }, { th with todo := [.construct x] })
    else if x = s.constructed then
      some ({ s with constructed := x + 1 }, { th with todo := [.construct x] })
    else none
  | .copy h =>
    match s.handles[h]? with
    | some (.holds x) => some ({ s.increaseRef x with handles := s.handles ++ [.holds x] }, th)
    | _ => none
  | .move h =>
    match s.handles[h]? with
    | none | some .destroyed => none
    | some b => some ({ s with handles := s.handles.set h .null ++ [b] }, th)
  | .swap h k =>
    match s.handles[h]?, s.handles[k]? with
    | none, _ | some .destroyed, _ | _, none | _, some .destroyed => none
    | some a, some b => some ({ s with handles := (s.handles.set h b).set k a }, th)
  | .destroy h =>
    match s.handles[h]? with
    | some (.holds x) =>
      some ({ s with handles := s.handles.set h .destroyed }, { th with todo := [.release x] })
    | some .null => some ({ s with handles := s.handles.set h .destroyed }, th)
    | _ => none
  | .sendPacket id h =>
    match s.handles[h]? with
    | some (.holds x) => s.serve { th with lent := some h } (0, .sendPacket id x)
    | _ => none
  | .sendPacketBlocking id h =>
    match s.handles[h]? with
    | some (.holds x) => s.serve { th with lent := some h } (0, .sendPacketBlocking id x)
    | _ => none
  | .server _ (.sendPacket _ _) | .server _ (.sendPacketBlocking _ _) => none
  | .server index e => s.serve th (index, e)

/-- The next action of a thread: what it has ahead of it, the `IncreaseRef`
of `ProcessBuffer`, or an action on the server. -/
def next (s : Handles) (th : Thread) (e : Event) : Option (Handles × Thread) :=
  match th.todo, th.lent, th.onServer.2 with
  | op :: rest, _, _ => some (s.act th rest op)
  | [], some _, .enqTicket x _ => some (s.increaseRef x, { th with lent := none })
  | [], _, .idle => s.start th e
  | [], _, _ =>
    match e with
    | .server index e => s.serve th (index, e)
    | _ => none

/-- **`a = b` of two handles**: the parameter takes over the buffer of `a`,
which is then to be released. `a` and `b` may be the same handle. -/
theorem solo_assignCopy {s : Handles} {th : Thread} {a b x y : ℕ} (htodo : th.todo = [])
    (hidle : th.onServer.2 = .idle) (ha : s.handles[a]? = some (.holds x))
    (hb : s.handles[b]? = some (.holds y)) :
    Pool.solo next s th (assignCopy a b s.handles.length) =
      some ({ s.increaseRef y with handles := s.handles.set a (.holds y) ++ [.destroyed] },
        { th with todo := [.release x] }) := by
  have hlt := (List.getElem?_eq_some_iff.1 ha).1
  have hnext (s : Handles) (e : Event) : next s th e = s.start th e := by
    simp [next, htodo, hidle]
  have hcopy : s.start th (.copy b) =
      some ({ s.increaseRef y with handles := s.handles ++ [.holds y] }, th) := by
    simp [start, hb]
  have hset : (s.handles ++ [Handle.holds y]).set a (.holds y) =
      s.handles.set a (.holds y) ++ [.holds y] := List.set_append_left a _ hlt
  simp only [assignCopy, Pool.solo, hnext, hcopy, Option.bind_some]
  simp [hnext, start, List.getElem?_append_left hlt, ha, hset]

/-- `a = std::move(a)` leaves the handle as it is. -/
theorem solo_assignMove_self {s : Handles} {th : Thread} {a x : ℕ} (htodo : th.todo = [])
    (hidle : th.onServer.2 = .idle) (ha : s.handles[a]? = some (.holds x)) :
    Pool.solo next s th (assignMove a a s.handles.length) =
      some ({ s with handles := s.handles ++ [.destroyed] }, th) := by
  obtain ⟨hlt, hget⟩ := List.getElem?_eq_some_iff.1 ha
  have hnext (s : Handles) (e : Event) : next s th e = s.start th e := by
    simp [next, htodo, hidle]
  have hmove : s.start th (.move a) =
      some ({ s with handles := s.handles.set a .null ++ [.holds x] }, th) := by
    simp [start, ha]
  have hfirst : (s.handles.set a .null ++ [Handle.holds x])[a]? = some .null := by
    rw [List.getElem?_append_left (by simpa using hlt), List.getElem?_set_self hlt]
  have hback : ((s.handles.set a .null ++ [Handle.holds x]).set a (.holds x)) =
      s.handles ++ [.holds x] := by
    rw [List.set_append_left a _ (by simpa using hlt), List.set_set, ← hget,
      List.set_getElem_self]
  simp only [assignMove, Pool.solo, hnext, hmove, Option.bind_some]
  simp [hnext, start, hfirst, hback]

abbrev World := Pool Handles Thread

/-- Thread `e.1` takes one step. -/
abbrev step : World → ℕ × Event → Option World := Pool.step next

/-- The start: the server as it starts, no buffer and no handle. -/
def World.initial (n : ℕ) : World where
  shared := ⟨(Server.World.initial 0).shared, fun _ => 0, [], 0, []⟩
  threads := List.replicate n ⟨(0, .idle), none, []⟩

/-- The server and where the threads are on it. -/
def World.onServer (w : World) : Server.World ℕ :=
  ⟨w.shared.server, w.threads.map (·.onServer)⟩

/-! ## References -/

/-- The references that a thread holds beside the ones on the server: those
it has to release, and that of `ProcessBuffer` before `Enqueue` has drawn its
ticket. -/
def Thread.references (x : ℕ) (th : Thread) : ℕ :=
  th.todo.count (.release x) + if th.lent = none then th.onServer.2.brings.count x else 0

/-- **The references to `x`**: the handles that hold it, its places in the
queues and batches of the sessions, and what threads hold. -/
def World.references (w : World) (x : ℕ) : ℕ :=
  w.shared.handles.count (.holds x) +
    ∑ k ∈ Finset.range MAX_SESSIONS, Slot.references (w.onServer.slot k) x +
    w.total (Thread.references x)

/-- Is a thread between `_pool` and the buffer's first or last reference? -/
def Thread.moving (x : ℕ) (th : Thread) : ℕ :=
  th.todo.count (.construct x) + th.todo.count (.free x)

/-! ## What is asked of a step -/

/-- The handles that an event changes. -/
def Event.changes : Event → List ℕ
  | .move h | .destroy h => [h]
  | .swap h k => [h, k]
  | _ => []

/-- Is the thread's next action one on the server? -/
def Thread.served (th : Thread) : Bool :=
  th.todo.isEmpty && (th.lent.isNone || th.onServer.2.brings.isEmpty)

/-- A handle that was passed to `SendPacket` by reference stays as it is until
`ProcessBuffer` has taken its reference. -/
def Borrowed (w : World) (e : ℕ × Event) : Prop :=
  ∀ h ∈ e.2.changes, ∀ th ∈ w.threads, th.lent ≠ some h

/-- Besides, what the thread does on its slot is proper. -/
def Careful (w : World) (e : ℕ × Event) : Prop :=
  Borrowed w e ∧ ∀ th ∈ w.threads[e.1]?, th.served = true →
    Proper (w.onServer.slot th.onServer.1) th.onServer.2

instance decidableBorrowed (w : World) (e : ℕ × Event) : Decidable (Borrowed w e) :=
  inferInstanceAs (Decidable (∀ h ∈ _, ∀ th ∈ _, _))

instance decidableCareful (w : World) (e : ℕ × Event) : Decidable (Careful w e) :=
  inferInstanceAs (Decidable (_ ∧ _))

end Handles

end NetLib
