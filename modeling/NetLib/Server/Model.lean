import NetLib.Slot.Model
/-!
# The slots of the server and the list of free indices

`NormalIOCP` owns the array `_sessions`, the stack `_freeIndex` and the
counter `g_sessionId`. A thread of the server is at a program point on one
slot at a time; which slot, it learns from the index part of an id, from
the completion it takes, or from `_freeIndex`.
-/

namespace NetLib

open Slot

/-- What the threads of the server share. `_freeIndex` is listed from its
top. -/
structure Server (Buf : Type) where
  sessions : ℕ → Slot Buf
  freeIndex : List ℕ
  gSessionId : ℕ

namespace Server

variable {Buf : Type}

/-- The id a call of the interface is about. -/
def target : Event Buf → Option SessionID
  | .hold id | .disconnect id | .sendPacket id _ | .sendPacketBlocking id _ => some id
  | _ => none

/-- The server with one slot replaced. -/
def setSession (s : Server Buf) (index : ℕ) (session : Slot Buf) : Server Buf :=
  { s with sessions := Function.update s.sessions index session }

/-- What an idle thread starts. A call goes to the slot its id names, and
`FindSession` answers null at once where there is none; an accept goes to
the slot on top of `_freeIndex`; a completion comes from the slot of its
`index`. -/
def start (s : Server Buf) (index : ℕ) (e : Event Buf) : Option (Server Buf × ℕ × Pc Buf) :=
  match target e with
  | some id =>
    if MAX_SESSIONS ≤ id.index then some (s, index, .idle)
    else
      (Slot.start id.index (s.sessions id.index) e).map fun r =>
        (s.setSession id.index r.1, id.index, r.2)
  | none =>
    match e with
    | .accept _ =>
      match s.freeIndex with
      | [] => none
      | top :: rest =>
        let others := s.gSessionId - (s.sessions top).gSessionId
        (Slot.start top (s.sessions top) (.accept others)).map fun r =>
          ({ s.setSession top r.1 with freeIndex := rest, gSessionId := s.gSessionId + 1 },
            top, r.2)
    | e =>
      if MAX_SESSIONS ≤ index then none
      else (Slot.start index (s.sessions index) e).map fun r => (s.setSession index r.1, index, r.2)

/-- The next action of a thread: where it is on a slot, that slot's action.
Only `ReleaseFreeIndex` reaches outside. -/
def next (s : Server Buf) : ℕ × Pc Buf → ℕ × Event Buf → Option (Server Buf × ℕ × Pc Buf)
  | (_, .idle), (index, e) => s.start index e
  | (index, .releaseFreeIndex), (_, e) =>
    (Slot.next index (s.sessions index) .releaseFreeIndex e).map fun r =>
      ({ s.setSession index r.1 with
          freeIndex := (s.sessions index).sessionId.index :: s.freeIndex }, index, r.2)
  | (index, pc), (_, e) =>
    (Slot.next index (s.sessions index) pc e).map fun r => (s.setSession index r.1, index, r.2)

/-- The server and its threads. -/
abbrev World (Buf : Type) := Pool (Server Buf) (ℕ × Pc Buf)

/-- Thread `e.1` takes one step; `e.2` is what it starts, or what the
system answers, with the slot a completion comes from. -/
abbrev step : World Buf → ℕ × ℕ × Event Buf → Option (World Buf) := Pool.step next

/-- The start: every slot as constructed and every index free, lowest on
top. -/
def World.initial [Inhabited Buf] (n : ℕ) : World Buf where
  shared := ⟨fun _ => Slot.initial, List.range' 0 MAX_SESSIONS, 0⟩
  threads := List.replicate n (0, .idle)

end Server

end NetLib
