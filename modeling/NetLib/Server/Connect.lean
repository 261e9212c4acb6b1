import NetLib.Server.Model
/-!
# Two ways to a slot

Sessions come from `AcceptThread` and from `GetClientSession`. Both take an
index from `_freeIndex` and work on the slot from then on; the index comes
back from `ReleaseExecutable`, or from a `GetClientSession` that could not
connect. Each call of `Push` and `Pop` is one step here.

`++g_sessionId` is not atomic, so the serial of an id is left open; the code
relies on its index part only.
-/

namespace NetLib

/-- The slots and the list of free indices, from its top. -/
structure IOCP (Buf : Type) where
  sessions : ℕ → Slot Buf
  freeIndex : List ℕ

namespace IOCP

variable {Buf : Type}

/-- The program points: one on a slot, or in `GetClientSession` before it
touches one, with the index `GetFreeIndex` left in its local. Whether it
answered true, the code does not keep. -/
inductive Pc (Buf : Type)
  | session (index : ℕ) (pc : Slot.Pc Buf)
  | socket (index : ℕ) (obtained : Bool)
  | connect (index : ℕ) (obtained : Bool)
  | releaseFreeIndex (index : ℕ) (obtained : Bool)

/-- What is left open at a step. -/
inductive Event (Buf : Type)
  | slot (index : ℕ) (e : Slot.Event Buf)
  /-- `AcceptThread` has a socket, and draws the serial. -/
  | accept (serial : ℕ)
  /-- `GetClientSession`, with what is on the stack where `index` will be. -/
  | getClientSession (garbage : BitVec 16)
  | isValid (valid : Bool)
  /-- `Connect` answers; if it succeeds, the serial is drawn. -/
  | connect (serial : Option ℕ)

def setSession (s : IOCP Buf) (index : ℕ) (session : Slot Buf) : IOCP Buf :=
  { s with sessions := Function.update s.sessions index session }

/-- The index popped and the rest, if there is one. -/
def getFreeIndex (s : IOCP Buf) : Option (ℕ × IOCP Buf) :=
  match s.freeIndex with
  | [] => none
  | index :: rest =>
    some (index, { s.setSession index { s.sessions index with
      free := (s.sessions index).free - 1 } with freeIndex := rest })

def releaseFreeIndex (s : IOCP Buf) (index : ℕ) : IOCP Buf :=
  { s.setSession index { s.sessions index with free := (s.sessions index).free + 1 } with
    freeIndex := index :: s.freeIndex }

/-- What an idle thread starts. -/
def start (s : IOCP Buf) : Event Buf → Option (IOCP Buf × Pc Buf)
  | .accept serial =>
    match s.getFreeIndex with
    -- serverIsFull
    | none => some (s, .session 0 .idle)
    | some (index, s') => some (s', .session index (.reset (.accept ⟨serial, index⟩)))
  | .getClientSession garbage =>
    match s.getFreeIndex with
    | none => some (s, .socket garbage.toNat false)
    | some (index, s') => some (s', .socket index true)
  | .slot _ (.accept _) => none
  | .slot index e =>
    match Server.target e with
    | some id =>
      if MAX_SESSIONS ≤ id.index then some (s, .session 0 .idle)
      else (Slot.start id.index (s.sessions id.index) e).map fun r =>
        (s.setSession id.index r.1, .session id.index r.2)
    | none =>
      if MAX_SESSIONS ≤ index then none
      else (Slot.start index (s.sessions index) e).map fun r =>
        (s.setSession index r.1, .session index r.2)
  | _ => none

/-- The next action of a thread. -/
def next (s : IOCP Buf) : Pc Buf → Event Buf → Option (IOCP Buf × Pc Buf)
  | .session _ .idle, e => s.start e
  | .session index .releaseFreeIndex, .slot _ _ =>
    some (s.releaseFreeIndex (s.sessions index).sessionId.index, .session index .idle)
  | .session index pc, .slot _ e =>
    (Slot.next index (s.sessions index) pc e).map fun r =>
      (s.setSession index r.1, .session index r.2)
  | .socket index obtained, .isValid valid =>
    some (s, if valid then .connect index obtained else .releaseFreeIndex index obtained)
  | .connect index _, .connect (some serial) =>
    some (s, .session index (.acceptIncreaseRef ⟨serial, index⟩))
  | .connect index obtained, .connect none => some (s, .releaseFreeIndex index obtained)
  | .releaseFreeIndex index _, .slot _ _ => some (s.releaseFreeIndex index, .session 0 .idle)
  | _, _ => none

abbrev World (Buf : Type) := Pool (IOCP Buf) (Pc Buf)

abbrev step : World Buf → ℕ × Event Buf → Option (World Buf) := Pool.step next

/-- The start: every slot as constructed, every index free. -/
def World.initial [Inhabited Buf] (n : ℕ) : World Buf where
  shared := ⟨fun _ => Slot.initial, List.range' 0 MAX_SESSIONS⟩
  threads := List.replicate n (.session 0 .idle)

end IOCP

end NetLib
