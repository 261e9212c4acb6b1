import NetLib.Slot.Ledger
/-!
# Which buffers a slot holds

A buffer that was enqueued sits in a cell of `_sendQ`, in the hands of a
thread, or in an entry of `_sendingQ` that was not released yet, and each
place is one reference to it. The cells are looked at one by one: that stands
refusals, which leave holes behind, as long as no two calls of `Enqueue` are
at one cell at a time.
-/

namespace NetLib

namespace Slot

open Lifecycle LockFreeFixedQueue

variable {Buf : Type} {index : ℕ} {s s' : Slot Buf} {pc pc' : Pc Buf} {x : Buf}

/-! ## Where a buffer can be -/

/-- What is published in the cells. -/
def contents (q : LockFreeFixedQueue Buf MAX_SEND_COUNT) : List Buf :=
  ((List.range MAX_SEND_COUNT).filter fun c => (q.buffer c).isUsed).map fun c => (q.buffer c).data

def Drain.bufs : Drain Buf → List Buf
  | .realSend _ bufs => bufs
  | .reset _ => []

/-- What a thread has in hand: the buffer of an `Enqueue` that has not
published it, what `RealSend` has dequeued and not told `dataNotSend` of. -/
def Pc.carries : Pc Buf → List Buf
  | .enqLoad _ x _ | .enqPut _ x _ | .enqPublish _ x _ => [x]
  | .deqHead d | .deqLoad d _ | .deqCas d _ | .deqData d _ | .deqClear d _ _ => d.bufs
  | .realSendStore _ bufs => bufs
  | _ => []

/-- How many entries of `_sendingQ` the loop of `PostSendExecutable` has
released. -/
def Pc.released : Pc Buf → ℕ
  | .postSendRelease i => i
  | _ => 0

/-- The references to `x` on the slot. -/
def references [DecidableEq Buf] (w : World Buf) (x : Buf) : ℕ :=
  (contents w.shared.sendQ).count x + (w.shared.batch (w.total Pc.released)).count x +
    w.total fun pc => pc.carries.count x

/-- The buffer that an `Enqueue` about to start brings. -/
def Pc.brings : Pc Buf → List Buf
  | .enqTicket x _ => [x]
  | _ => []

/-- The buffer that an `Enqueue` about to fail does not take. -/
def refuses (s : Slot Buf) : Pc Buf → List Buf
  | .enqLoad tail x _ => if s.sendQ.loadUsed tail then [x] else []
  | _ => []

/-- The buffers that the thread has to release after an action. -/
def gives (s : Slot Buf) (pc : Pc Buf) (s' : Slot Buf) : List Buf :=
  s.refuses pc ++ s'.freed.drop s.freed.length

/-- The cell that an `Enqueue` in progress has a ticket for. -/
def Pc.filling : Pc Buf → Option ℕ
  | .enqLoad t _ _ | .enqPut t _ _ | .enqPublish t _ _ => some (cell MAX_SEND_COUNT t)
  | _ => none

/-- Is the thread in the loop of `RealSend`? -/
def Pc.loading : Pc Buf → Bool
  | .deqHead d | .deqLoad d _ | .deqCas d _ | .deqData d _ | .deqClear d _ _ => d.owns == 1
  | .realSendStore _ _ => true
  | _ => false

/-- Is the thread about to take a ticket of `_sendQ`? -/
def Pc.draws : Pc Buf → Bool
  | .enqTicket _ _ => true
  | _ => false

/-- Does the thread come to the loop of `RealSend`? -/
def Pc.begins : Pc Buf → Bool
  | .realSendTail _ _ => true
  | _ => false

/-- A ticket is taken for a cell that no other `Enqueue` in progress has a
ticket for, and `RealSend` comes to its loop when the entries of `_sendingQ`
are released and no other thread is in the loop. -/
def Proper (w : World Buf) (pc : Pc Buf) : Prop :=
  (pc.draws = true →
    ∀ q ∈ w.threads, q.filling ≠ some (cell MAX_SEND_COUNT w.shared.sendQ.tailIndex)) ∧
  (pc.begins = true → w.shared.dataNotSend = 0 ∧ ∀ q ∈ w.threads, q.loading = false)

instance decidableProper (w : World Buf) (pc : Pc Buf) : Decidable (Proper w pc) :=
  inferInstanceAs (Decidable (_ ∧ _))

/-! ## What an action does with buffers -/

/-- Does the thread have nothing to do with buffers? -/
def Pc.bare : Pc Buf → Bool
  | .enqLoad _ _ _ | .enqPut _ _ _ | .enqPublish _ _ _ | .deqHead _ | .deqLoad _ _ | .deqCas _ _
  | .deqData _ _ | .deqClear _ _ _ | .realSendStore _ _ | .wsaSend _ _ | .postSendRelease _ => false
  | _ => true

/-- An action, with the cells it goes to. -/
inductive Moves (s : Slot Buf) : Pc Buf → Slot Buf → Pc Buf → Prop
  | aside {pc : Pc Buf} {s' : Slot Buf} {pc' : Pc Buf} (hpc : pc.bare = true)
      (hbrings : pc.brings = []) (hpc' : pc'.bare = true) (hqueue : s'.sendQ = s.sendQ)
      (hdata : s'.dataNotSend = s.dataNotSend) (hsending : s'.sendingQ = s.sendingQ)
      (hfreed : s'.freed = s.freed) (hsends : s'.sends = s.sends) (hio : s'.sendIo ≤ s.sendIo) :
      Moves s pc s' pc'
  | ticket (x : Buf) (c : Sender) : Moves s (.enqTicket x c)
      { s with sendQ := s.sendQ.fetchAddTail.2, tickets := s.tickets ++ [x] }
      (.enqLoad s.sendQ.fetchAddTail.1 x c)
  | vacant (t : BitVec 32) (x : Buf) (c : Sender) (hu : s.sendQ.loadUsed t = false) :
      Moves s (.enqLoad t x c) s (.enqPut t x c)
  | refused (t : BitVec 32) (x : Buf) (c : Sender) (hu : s.sendQ.loadUsed t = true) :
      Moves s (.enqLoad t x c) s (.enqFull c)
  | put (t : BitVec 32) (x : Buf) (c : Sender) :
      Moves s (.enqPut t x c) { s with sendQ := s.sendQ.putData t x } (.enqPublish t x c)
  | publish (t : BitVec 32) (x : Buf) (c : Sender) : Moves s (.enqPublish t x c)
      { s with sendQ := (s.sendQ.exchangeUsed t true).2 } (.canConnect c)
  | begin (c : Caller) (head : BitVec 32) :
      Moves s (.realSendTail c head) s (.deqHead (.realSend c []))
  | reset (r : Resetter) : Moves s (.reset r) { s with isSending := false } (.deqHead (.reset r))
  | look (d : Drain Buf) : Moves s (.deqHead d) s (.deqLoad d s.sendQ.headIndex)
  | found (d : Drain Buf) (h : BitVec 32) (hu : s.sendQ.loadUsed h = true) :
      Moves s (.deqLoad d h) s (.deqCas d h)
  | unused (d : Drain Buf) (h : BitVec 32) : Moves s (.deqLoad d h) s d.empty
  | won (d : Drain Buf) (h : BitVec 32) (q : LockFreeFixedQueue Buf MAX_SEND_COUNT)
      (hq : q.buffer = s.sendQ.buffer) :
      Moves s (.deqCas d h) { s with sendQ := q, taken := s.taken + 1 } (.deqData d h)
  | lost (d : Drain Buf) (h : BitVec 32) : Moves s (.deqCas d h) s (.deqHead d)
  | read (d : Drain Buf) (h : BitVec 32) :
      Moves s (.deqData d h) s (.deqClear d h (s.sendQ.getData h))
  | stored (c : Caller) (bufs : List Buf) (h : BitVec 32) (x : Buf) (pc' : Pc Buf)
      (hpc' : pc' = .realSendStore c (bufs ++ [x]) ∨ pc' = .deqHead (.realSend c (bufs ++ [x]))) :
      Moves s (.deqClear (.realSend c bufs) h x)
        { s with
          sendQ := (s.sendQ.exchangeUsed h false).2
          sendingQ := Function.update s.sendingQ bufs.length (some x) } pc'
  | dropped (r : Resetter) (h : BitVec 32) (x : Buf) : Moves s (.deqClear (.reset r) h x)
      { s with sendQ := (s.sendQ.exchangeUsed h false).2, freed := s.freed ++ [x] }
      (.deqHead (.reset r))
  | store (c : Caller) (bufs : List Buf) :
      Moves s (.realSendStore c bufs) { s with dataNotSend := bufs.length } (.wsaSend c bufs)
  | send (c : Caller) (bufs : List Buf) (io ready : ℕ) (pc' : Pc Buf) (hpc' : pc'.bare = true)
      (hio : io ≤ s.sendIo + 1) : Moves s (.wsaSend c bufs)
      { s with sends := s.sends ++ [bufs], sendIo := io, sendReady := ready } pc'
  | done (hpos : 0 < s.sendIo) : Moves s .idle
      { s with
        sendIo := s.sendIo - 1, sendReady := s.sendReady - 1, completions := s.completions + 1 }
      (.postSendRelease 0)
  | free (i : ℕ) (x : Buf) (hi : i < s.dataNotSend) (hx : s.sendingQ i = some x) :
      Moves s (.postSendRelease i) { s with freed := s.freed ++ [x] } (.postSendRelease (i + 1))
  | freed (i : ℕ) (hi : ¬i < s.dataNotSend) :
      Moves s (.postSendRelease i) { s with dataNotSend := 0 } .postSendClear
  | cleared (r : Resetter) (pc' : Pc Buf) (hpc' : pc'.bare = true) : Moves s (.resetSending r)
      { s with
        dataNotSend := 0
        sendingQ := fun i => if i < s.dataNotSend then none else s.sendingQ i
        freed := s.freed ++ (List.range s.dataNotSend).filterMap s.sendingQ } pc'

/-- An action that touches none of the fields. -/
theorem Moves.quiet {r : ℤ} {conn sending : Bool} (hpc : pc.bare = true) (hbrings : pc.brings = [])
    (hpc' : pc'.bare = true)
    (hs : s' = { s with refCount := r, connect := conn, isSending := sending }) :
    Moves s pc s' pc' := by
  subst hs
  exact .aside hpc hbrings hpc' rfl rfl rfl rfl rfl le_rfl

@[simp] theorem After.pc_bare (k : After) : (k.pc : Pc Buf).bare = true := by cases k <;> rfl

@[simp] theorem Use.found_bare (id : SessionID) (use : Use Buf) : (use.found id).bare = true := by
  cases use <;> rfl

@[simp] theorem Sender.canSend_bare (c : Sender) : (c.canSend : Pc Buf).bare = true := by
  cases c <;> rfl

theorem nextRef_moves (h : nextRef s pc = some (s', pc')) : Moves s pc s' pc' := by
  cases pc <;> simp only [nextRef, Option.some.injEq, Prod.mk.injEq, reduceCtorEq] at h
  case findCheck id result use =>
    split at h <;> obtain ⟨rfl, rfl⟩ := h
    · exact .quiet rfl rfl rfl rfl
    · exact .quiet rfl rfl (use.found_bare id) rfl
  case cancel id k =>
    obtain ⟨rfl, rfl⟩ := h
    exact .aside rfl rfl rfl rfl rfl rfl rfl rfl (Nat.min_le_left _ _)
  case release pin k =>
    obtain ⟨rfl, rfl⟩ := h
    split
    · exact .quiet rfl rfl rfl rfl
    · exact .quiet rfl rfl k.pc_bare rfl
  case releaseCas k =>
    split at h <;> obtain ⟨rfl, rfl⟩ := h
    · exact .quiet rfl rfl rfl rfl
    · exact .quiet rfl rfl k.pc_bare rfl
  case postRelease k =>
    obtain ⟨rfl, rfl⟩ := h
    exact .aside rfl rfl k.pc_bare rfl rfl rfl rfl rfl le_rfl
  case find | holding | close =>
    obtain ⟨rfl, rfl⟩ := h
    exact .quiet rfl rfl rfl rfl

theorem nextSend_moves (h : nextSend s pc = some (s', pc')) : Moves s pc s' pc' := by
  cases pc <;> simp only [nextSend, Option.some.injEq, Prod.mk.injEq, reduceCtorEq] at h
  case enqTicket x c =>
    obtain ⟨rfl, rfl⟩ := h
    exact .ticket x c
  case enqLoad t x c =>
    split at h <;> rename_i hu <;> obtain ⟨rfl, rfl⟩ := h
    · exact .refused t x c hu
    · exact .vacant t x c (Bool.eq_false_of_not_eq_true hu)
  case enqPut t x c =>
    obtain ⟨rfl, rfl⟩ := h
    exact .put t x c
  case enqPublish t x c =>
    split at h
    · cases h
    · obtain ⟨rfl, rfl⟩ := Option.some.inj h
      exact .publish t x c
  case canConnect | canRef =>
    obtain ⟨rfl, rfl⟩ := h
    split <;> exact .quiet rfl rfl rfl rfl
  case canTail c first head =>
    split at h <;> obtain ⟨rfl, rfl⟩ := h <;> cases first
    · exact .quiet rfl rfl rfl rfl
    · exact .quiet rfl rfl rfl rfl
    · exact .quiet rfl rfl c.canSend_bare rfl
    · exact .quiet rfl rfl rfl rfl
  case canExchange =>
    split at h <;> obtain ⟨rfl, rfl⟩ := h <;> exact .quiet rfl rfl rfl rfl
  case postSendExecutable =>
    obtain ⟨rfl, rfl⟩ := h
    exact .aside rfl rfl rfl rfl rfl rfl rfl rfl le_rfl
  case enqFull | canHead | canClear =>
    obtain ⟨rfl, rfl⟩ := h
    exact .quiet rfl rfl rfl rfl

theorem nextRealSend_moves {e : Event Buf} (h : nextRealSend s pc e = some (s', pc')) :
    Moves s pc s' pc' := by
  cases pc <;> simp only [nextRealSend, Option.some.injEq, Prod.mk.injEq, reduceCtorEq] at h
  case realSendCheck c result =>
    obtain ⟨rfl, rfl⟩ := h
    split <;> exact .quiet rfl rfl rfl rfl
  case realSendTail c head =>
    split at h
    · cases h
    · obtain ⟨rfl, rfl⟩ := Option.some.inj h
      exact .begin c head
  case realSendStore c bufs =>
    obtain ⟨rfl, rfl⟩ := h
    exact .store c bufs
  case wsaSend c bufs =>
    cases e <;> simp only [reduceCtorEq] at h
    split at h <;> obtain ⟨rfl, rfl⟩ := Option.some.inj h
    · exact .send c bufs s.sendIo s.sendReady _ rfl (Nat.le_succ _)
    · exact .send c bufs _ _ _ c.after.pc_bare le_rfl
  case deqHead d =>
    obtain ⟨rfl, rfl⟩ := h
    exact .look d
  case deqLoad d head =>
    obtain ⟨rfl, rfl⟩ := h
    split
    · exact .found d head (by assumption)
    · exact .unused d head
  case deqCas d head =>
    split at h <;> rename_i hw <;> obtain ⟨rfl, rfl⟩ := h
    · refine .won d head _ ?_
      rw [casHead]
      split <;> rfl
    · exact .lost d head
  case deqData d head =>
    obtain ⟨rfl, rfl⟩ := h
    exact .read d head
  case deqClear d head x =>
    split at h
    · cases d with
      | realSend c bufs =>
        obtain ⟨rfl, rfl⟩ := Option.some.inj h
        refine .stored c bufs head x _ ?_
        split
        · exact .inl rfl
        · exact .inr rfl
      | reset r =>
        obtain ⟨rfl, rfl⟩ := Option.some.inj h
        exact .dropped r head x
    · cases h
  case postSendRelease i =>
    split at h <;> rename_i hi
    · obtain ⟨x, hx, hb⟩ := Option.map_eq_some_iff.1 h
      obtain ⟨rfl, rfl⟩ := hb
      exact .free i x hi hx
    · obtain ⟨rfl, rfl⟩ := Option.some.inj h
      exact .freed i hi
  case realSend | realSendHead | postSendClear =>
    obtain ⟨rfl, rfl⟩ := h
    exact .quiet rfl rfl rfl rfl

theorem nextLife_moves {e : Event Buf} (h : nextLife index s pc e = some (s', pc')) :
    Moves s pc s' pc' := by
  cases pc <;> simp only [nextLife, Option.some.injEq, Prod.mk.injEq, reduceCtorEq] at h
  case recvExecute =>
    cases e <;> simp only [reduceCtorEq] at h <;> obtain ⟨rfl, rfl⟩ := Option.some.inj h <;>
      exact .quiet rfl rfl rfl rfl
  case recvRef | recvConnect | recvRecheck | timeoutRef =>
    obtain ⟨rfl, rfl⟩ := h
    split <;> exact .quiet rfl rfl rfl rfl
  case wsaRecv =>
    cases e with
    | result r =>
      cases r <;> obtain ⟨rfl, rfl⟩ := Option.some.inj h <;>
        exact .aside rfl rfl rfl rfl rfl rfl rfl rfl le_rfl
    | _ => cases h
  case reset r =>
    obtain ⟨rfl, rfl⟩ := h
    exact .reset r
  case resetSending r =>
    obtain ⟨rfl, rfl⟩ := h
    cases r <;> exact .cleared _ _ rfl
  case recvCancel =>
    obtain ⟨rfl, rfl⟩ := h
    exact .aside rfl rfl rfl rfl rfl rfl rfl rfl (Nat.min_le_left _ _)
  case timeoutInc | acceptConnect =>
    obtain ⟨rfl, rfl⟩ := h
    exact .quiet rfl rfl rfl rfl
  case acceptIncreaseRef | acceptSetId | acceptOffFlag | onDisconnect | releaseFreeIndex =>
    obtain ⟨rfl, rfl⟩ := h
    exact .aside rfl rfl rfl rfl rfl rfl rfl rfl le_rfl

theorem start_moves {e : Event Buf} (h : start index s e = some (s', pc')) :
    Moves s .idle s' pc' := by
  cases e <;> simp only [start, Option.some.injEq, Prod.mk.injEq, reduceCtorEq,
    Option.ite_none_right_eq_some] at h
  case hold | disconnect | sendPacket | sendPacketBlocking | timeout =>
    obtain ⟨rfl, rfl⟩ := h
    exact .quiet rfl rfl rfl rfl
  case sendExecutable =>
    split at h
    · cases h
    · obtain ⟨rfl, rfl⟩ := Option.some.inj h
      exact .aside rfl rfl rfl rfl rfl rfl rfl rfl le_rfl
  case sendDone =>
    obtain ⟨hpos, rfl, rfl⟩ := h
    exact .done hpos
  case sendFailed =>
    obtain ⟨hpos, rfl, rfl⟩ := h
    exact .aside rfl rfl rfl rfl rfl rfl rfl rfl (Nat.sub_le _ _)
  case releaseExecutable | accept | recvReady | sendReady | recvDone | recvFailed | recvAborted |
      sendAborted =>
    obtain ⟨hpos, rfl, rfl⟩ := h
    exact .aside rfl rfl rfl rfl rfl rfl rfl rfl le_rfl

/-- **What an action does with buffers.** -/
theorem next_moves {e : Event Buf} (h : next index s pc e = some (s', pc')) :
    Moves s pc s' pc' := by
  unfold next at h
  split at h
  · exact start_moves h
  all_goals first
    | exact nextRef_moves h | exact nextSend_moves h | exact nextRealSend_moves h
    | exact nextLife_moves h

end Slot

end NetLib
