import NetLib.Slot.Delivery
/-!
# What each action does with the buffers

A buffer goes from `_sendQ` through the hands of one thread into
`_sendingQ`, to `WSASend`, and is released when the send completes; `Reset`
releases what never came that far. `Handling` lists the actions that move
buffers, and says what all others leave alone.
-/

namespace NetLib

namespace Slot

open Lifecycle LockFreeFixedQueue

variable {Buf : Type} {index b : ℕ} {s s' : Slot Buf} {pc pc' : Pc Buf}

/-! ## What is held -/

/-- `_sendingQ` from its `i`-th entry on, as far as it is in use. -/
def batch (s : Slot Buf) (i : ℕ) : List Buf :=
  ((List.range s.dataNotSend).drop i).filterMap s.sendingQ

/-- The buffers released and `out` are the tickets dequeued, but for the last
`t` of them. -/
def Accounts (s : Slot Buf) (out : List Buf) (t : ℕ) : Prop :=
  (s.freed ++ out).Perm (s.tickets.take (s.taken - t))

def Drain.books (s : Slot Buf) (t : ℕ) : Drain Buf → Prop
  | .realSend _ bufs => s.dataNotSend = 0 ∧ Stored s bufs ∧ Accounts s bufs t
  | .reset _ => Accounts s (s.batch 0) t

/-- The books, as the thread that has the buffers in hand keeps them. For
all others the slot holds its last batch. -/
def Pc.books (s : Slot Buf) : Pc Buf → Prop
  | .deqHead d | .deqLoad d _ | .deqCas d _ => d.books s 0
  | .deqData d _ | .deqClear d _ _ => d.books s 1
  | .realSendStore c bufs => (Drain.realSend c bufs).books s 0
  | .postSendRelease i => Accounts s (s.batch i) 0
  | _ => Accounts s (s.batch 0) 0

/-- Does the thread have the buffers in hand? -/
def Pc.hand : Pc Buf → ℕ
  | .deqHead _ | .deqLoad _ _ | .deqCas _ _ | .deqData _ _ | .deqClear _ _ _ | .realSendStore _ _
  | .wsaSend _ _ | .postSendRelease _ => 1
  | _ => 0

/-- Does the thread have the right to send, and no batch out yet, or no more? -/
def Pc.fresh : Pc Buf → ℕ
  | .wsaSend _ _ | .postSendRelease _ => 0
  | pc => pc.owns

theorem Pc.fresh_le (pc : Pc Buf) : pc.fresh ≤ pc.owns := by
  cases pc <;> first | exact le_rfl | exact Nat.zero_le _

theorem Pc.hand_le (pc : Pc Buf) :
    pc.hand ≤ pc.owns + pc.closed ∧ pc.hand ≤ pc.pinned + pc.closed := by
  have hd (d : Drain Buf) : 1 ≤ d.owns + d.closed ∧ 1 ≤ d.refs + d.closed := by
    cases d
    · exact ⟨le_rfl, Nat.le_add_right 1 _⟩
    · exact ⟨le_rfl, le_rfl⟩
  cases pc
  case deqHead d | deqLoad d _ | deqCas d _ | deqData d _ | deqClear d _ _ => exact hd d
  case realSendStore c _ | wsaSend c _ => exact ⟨le_rfl, Nat.le_add_right 1 _⟩
  case postSendRelease => exact ⟨le_rfl, le_rfl⟩
  all_goals exact ⟨Nat.zero_le _, Nat.zero_le _⟩

/-- The buffers on their way to the next `WSASend`, and how many tickets the
thread has dequeued beyond them. -/
def Drain.loaded (lag : ℕ) : Drain Buf → List Buf × ℕ
  | .realSend _ bufs => (bufs, lag)
  | .reset _ => ([], 0)

def Pc.loaded : Pc Buf → List Buf × ℕ
  | .deqHead d | .deqLoad d _ | .deqCas d _ => d.loaded 0
  | .deqData d _ | .deqClear d _ _ => d.loaded 1
  | .realSendStore _ bufs | .wsaSend _ bufs => (bufs, 0)
  | _ => ([], 0)

/-- `Reset` has taken everything from `_sendQ`, and the slot is not open yet. -/
def Pc.drained : Pc Buf → Bool
  | .resetSending _ | .releaseFreeIndex | .acceptIncreaseRef _ | .acceptSetId _
  | .acceptOffFlag => true
  | _ => false

/-- `Reset` has returned, and the slot is not open yet. -/
def Pc.cleared : Pc Buf → Bool
  | .releaseFreeIndex | .acceptIncreaseRef _ | .acceptSetId _ | .acceptOffFlag => true
  | _ => false

theorem Pc.drained_of_cleared (h : pc.cleared = true) : pc.drained = true := by
  cases pc <;> first | rfl | cases h

theorem Pc.drained_of_hand (h : pc.hand = 1) : pc.drained = false := by
  cases pc <;> first | rfl | cases h

theorem Pc.closed_of_drained (h : pc.drained = true) : pc.closed = 1 := by
  cases pc <;> first | rfl | cases h

theorem Pc.eq_of_opening (h : pc.stage = .opening) : pc = .acceptOffFlag := by
  have hr (r : Resetter) : r.stage ≠ .opening := by cases r <;> nofun
  have hd (d : Drain Buf) : d.stage ≠ .opening := by
    cases d with
    | realSend => nofun
    | reset r => exact hr r
  cases pc
  case deqHead d | deqLoad d _ | deqCas d _ | deqData d _ | deqClear d _ _ => exact absurd h (hd d)
  case reset r | resetSending r => exact absurd h (hr r)
  case acceptOffFlag => rfl
  all_goals cases h

theorem Pc.loaded_of_hand (h : pc.hand = 0) : pc.loaded = ([], 0) := by
  cases pc <;> first | rfl | cases h

/-! ## What an action does with them -/

/-- An action with regard to the buffers. -/
inductive Handling (s : Slot Buf) : Pc Buf → Slot Buf → Pc Buf → Prop
  /-- None of its business. A ticket may be taken, and the right to send
  passed on. -/
  | aside {pc : Pc Buf} {s' : Slot Buf} {pc' : Pc Buf} (hpc : pc.hand = 0) (hpc' : pc'.hand = 0)
      (hfreed : s'.freed = s.freed) (hdata : s'.dataNotSend = s.dataNotSend)
      (hsending : s'.sendingQ = s.sendingQ) (htaken : s'.taken = s.taken)
      (hsends : s'.sends = s.sends)
      (htickets : s'.tickets = s.tickets ∨ 0 < pc.pinned ∧ ∃ x, s'.tickets = s.tickets ++ [x])
      (hflag : s'.isSending = s.isSending ∨ s'.isSending = true ∨ pc.fresh = 1 ∨
        pc.stage ≠ .outside)
      (hfresh : pc'.fresh + s'.sendPosted.length ≤ pc.fresh + s.sendPosted.length ∨
        s.isSending = false)
      (hlife : pc'.drained = false ∨ pc'.drained = pc.drained ∧ pc'.cleared = pc.cleared) :
      Handling s pc s' pc'
  /-- `RealSend` comes to its loop. -/
  | begin (c : Caller) (head : BitVec 32) :
      Handling s (.realSendTail c head) s (.deqHead (.realSend c []))
  /-- Inside `Dequeue`. -/
  | look {pc pc' : Pc Buf} (hpc : pc.hand = 1) (hpc' : pc'.hand = 1)
      (hbooks : pc'.books s ↔ pc.books s) (hfresh : pc'.fresh = pc.fresh)
      (hloaded : pc'.loaded = pc.loaded) : Handling s pc s pc'
  | took (d : Drain Buf) (head : BitVec 32) (q : LockFreeFixedQueue Buf MAX_SEND_COUNT) :
      Handling s (.deqCas d head) { s with sendQ := q, taken := s.taken + 1 } (.deqData d head)
  | stored (c : Caller) (bufs : List Buf) (head : BitVec 32) (x : Buf)
      (q : LockFreeFixedQueue Buf MAX_SEND_COUNT) (pc' : Pc Buf)
      (hpc' : pc' = .realSendStore c (bufs ++ [x]) ∨ pc' = .deqHead (.realSend c (bufs ++ [x]))) :
      Handling s (.deqClear (.realSend c bufs) head x)
        { s with sendQ := q, sendingQ := Function.update s.sendingQ bufs.length (some x) } pc'
  /-- `Reset` releases what it has dequeued. -/
  | dropped (r : Resetter) (head : BitVec 32) (x : Buf)
      (q : LockFreeFixedQueue Buf MAX_SEND_COUNT) :
      Handling s (.deqClear (.reset r) head x) { s with sendQ := q, freed := s.freed ++ [x] }
        (.deqHead (.reset r))
  /-- `Reset` comes to `_sendQ`, and leaves it. -/
  | reset (r : Resetter) : Handling s (.reset r) { s with isSending := false } (.deqHead (.reset r))
  | drained (r : Resetter) (head : BitVec 32) (hu : s.sendQ.loadUsed head = false) :
      Handling s (.deqLoad (.reset r) head) s (.resetSending r)
  | store (c : Caller) (bufs : List Buf) :
      Handling s (.realSendStore c bufs) { s with dataNotSend := bufs.length } (.wsaSend c bufs)
  | send (c : Caller) (bufs : List Buf) (io ready : ℕ) (pc' : Pc Buf) (hpc' : pc'.hand = 0)
      (hfresh : pc'.fresh = 0) (hdrained : pc'.drained = false) :
      Handling s (.wsaSend c bufs)
        { s with sends := s.sends ++ [bufs], sendIo := io, sendReady := ready } pc'
  /-- A send has completed. -/
  | done (hpos : 0 < s.sendIo) :
      Handling s .idle
        { s with
          sendIo := s.sendIo - 1, sendReady := s.sendReady - 1, completions := s.completions + 1 }
        (.postSendRelease 0)
  | free (i : ℕ) (x : Buf) (hi : i < s.dataNotSend) (hx : s.sendingQ i = some x) :
      Handling s (.postSendRelease i) { s with freed := s.freed ++ [x] } (.postSendRelease (i + 1))
  | freed (i : ℕ) (hi : ¬i < s.dataNotSend) :
      Handling s (.postSendRelease i) { s with dataNotSend := 0 } .postSendClear
  /-- `Reset` releases the batch that is left. -/
  | cleared (r : Resetter) (pc' : Pc Buf) (hpc' : pc'.hand = 0) (hfresh : pc'.fresh = 0) :
      Handling s (.resetSending r)
        { s with
          dataNotSend := 0
          sendingQ := fun i => if i < s.dataNotSend then none else s.sendingQ i
          freed := s.freed ++ (List.range s.dataNotSend).filterMap s.sendingQ } pc'

/-- An action that touches none of the fields. -/
theorem Handling.quiet {r : ℤ} {conn : Bool} (hpc : pc.hand = 0) (hpc' : pc'.hand = 0)
    (hs : s' = { s with refCount := r, connect := conn }) (hfresh : pc'.fresh ≤ pc.fresh)
    (hdrained : pc'.drained = false) :
    Handling s pc s' pc' := by
  subst hs
  exact .aside hpc hpc' rfl rfl rfl rfl rfl (.inl rfl) (.inl rfl)
    (.inl (Nat.add_le_add_right hfresh _)) (.inl hdrained)

@[simp] theorem After.pc_hand (k : After) : (k.pc : Pc Buf).hand = 0 := by cases k <;> rfl

@[simp] theorem After.pc_fresh (k : After) : (k.pc : Pc Buf).fresh = 0 := by cases k <;> rfl

@[simp] theorem Use.found_hand (id : SessionID) (use : Use Buf) : (use.found id).hand = 0 := by
  cases use <;> rfl

@[simp] theorem Use.found_fresh (id : SessionID) (use : Use Buf) : (use.found id).fresh = 0 := by
  cases use <;> rfl

@[simp] theorem Sender.canSend_hand (c : Sender) : (c.canSend : Pc Buf).hand = 0 := by
  cases c <;> rfl

@[simp] theorem Sender.canSend_fresh (c : Sender) : (c.canSend : Pc Buf).fresh = 1 := by
  cases c <;> rfl

@[simp] theorem After.pc_drained (k : After) : (k.pc : Pc Buf).drained = false := by
  cases k <;> rfl

@[simp] theorem Use.found_drained (id : SessionID) (use : Use Buf) :
    (use.found id).drained = false := by cases use <;> rfl

@[simp] theorem Sender.canSend_drained (c : Sender) : (c.canSend : Pc Buf).drained = false := by
  cases c <;> rfl

theorem nextRef_handling (h : nextRef s pc = some (s', pc')) : Handling s pc s' pc' := by
  cases pc <;> simp only [nextRef, Option.some.injEq, Prod.mk.injEq, reduceCtorEq] at h
  case findCheck id result use =>
    split at h <;> obtain ⟨rfl, rfl⟩ := h
    · exact .quiet rfl rfl rfl le_rfl rfl
    · exact .quiet rfl (use.found_hand id) rfl (use.found_fresh id).le (use.found_drained id)
  case cancel id k =>
    obtain ⟨rfl, rfl⟩ := h
    exact .aside rfl rfl rfl rfl rfl rfl rfl (.inl rfl) (.inl rfl) (.inl le_rfl) (.inl rfl)
  case release pin k =>
    obtain ⟨rfl, rfl⟩ := h
    split
    · exact .quiet rfl rfl rfl le_rfl rfl
    · exact .quiet rfl k.pc_hand rfl k.pc_fresh.le k.pc_drained
  case releaseCas k =>
    split at h <;> obtain ⟨rfl, rfl⟩ := h
    · exact .quiet rfl rfl rfl le_rfl rfl
    · exact .quiet rfl k.pc_hand rfl k.pc_fresh.le k.pc_drained
  case postRelease k =>
    obtain ⟨rfl, rfl⟩ := h
    exact .aside rfl k.pc_hand rfl rfl rfl rfl rfl (.inl rfl) (.inl rfl)
      (.inl (Nat.add_le_add_right k.pc_fresh.le _)) (.inl k.pc_drained)
  case find | holding | close =>
    obtain ⟨rfl, rfl⟩ := h
    exact .quiet rfl rfl rfl le_rfl rfl

theorem nextSend_handling (h : nextSend s pc = some (s', pc')) : Handling s pc s' pc' := by
  cases pc <;> simp only [nextSend, Option.some.injEq, Prod.mk.injEq, reduceCtorEq] at h
  case enqTicket x c =>
    obtain ⟨rfl, rfl⟩ := h
    exact .aside rfl rfl rfl rfl rfl rfl rfl (.inr ⟨Nat.one_pos, x, rfl⟩) (.inl rfl)
      (.inl le_rfl) (.inl rfl)
  case enqLoad =>
    split at h <;> obtain ⟨rfl, rfl⟩ := h <;> exact .quiet rfl rfl rfl le_rfl rfl
  case enqPut =>
    obtain ⟨rfl, rfl⟩ := h
    exact .aside rfl rfl rfl rfl rfl rfl rfl (.inl rfl) (.inl rfl) (.inl le_rfl) (.inl rfl)
  case enqPublish =>
    split at h
    · cases h
    · obtain ⟨rfl, rfl⟩ := Option.some.inj h
      exact .aside rfl rfl rfl rfl rfl rfl rfl (.inl rfl) (.inl rfl) (.inl le_rfl) (.inl rfl)
  case canConnect | canRef =>
    obtain ⟨rfl, rfl⟩ := h
    split <;> exact .quiet rfl rfl rfl le_rfl rfl
  case canHead c first =>
    obtain ⟨rfl, rfl⟩ := h
    exact .quiet rfl rfl rfl le_rfl rfl
  case canTail c first head =>
    split at h <;> obtain ⟨rfl, rfl⟩ := h <;> cases first
    · exact .quiet rfl rfl rfl le_rfl rfl
    · exact .quiet rfl rfl rfl le_rfl rfl
    · exact .quiet rfl c.canSend_hand rfl c.canSend_fresh.le c.canSend_drained
    · exact .quiet rfl rfl rfl le_rfl rfl
  case canExchange =>
    split at h <;> rename_i hflag <;> obtain ⟨rfl, rfl⟩ := h
    · exact .quiet rfl rfl rfl le_rfl rfl
    · exact .aside rfl rfl rfl rfl rfl rfl rfl (.inl rfl) (.inr (.inl rfl))
        (.inr (Bool.eq_false_of_not_eq_true hflag)) (.inl rfl)
  case canClear =>
    obtain ⟨rfl, rfl⟩ := h
    exact .aside rfl rfl rfl rfl rfl rfl rfl (.inl rfl) (.inr (.inr (.inl rfl)))
      (.inl (Nat.add_le_add_right (Nat.zero_le _) _)) (.inl rfl)
  case postSendExecutable id =>
    obtain ⟨rfl, rfl⟩ := h
    refine .aside rfl rfl rfl rfl rfl rfl rfl (.inl rfl) (.inl rfl) (.inl ?_) (.inl rfl)
    simp only [Pc.fresh, Pc.owns, List.length_append, List.length_singleton]
    omega
  case enqFull =>
    obtain ⟨rfl, rfl⟩ := h
    exact .quiet rfl rfl rfl le_rfl rfl

theorem nextRealSend_handling {e : Event Buf} (h : nextRealSend s pc e = some (s', pc')) :
    Handling s pc s' pc' := by
  cases pc <;> simp only [nextRealSend, Option.some.injEq, Prod.mk.injEq, reduceCtorEq] at h
  case realSend c =>
    obtain ⟨rfl, rfl⟩ := h
    refine .quiet rfl rfl rfl ?_ rfl
    simp only [Pc.fresh, Pc.owns]
    split <;> omega
  case realSendCheck c result =>
    obtain ⟨rfl, rfl⟩ := h
    split <;> rename_i hle
    · exact .quiet rfl rfl rfl (Nat.zero_le _) rfl
    · refine .quiet rfl rfl rfl ?_ rfl
      simp only [Pc.fresh, Pc.owns, if_neg hle]
      exact le_rfl
  case realSendHead =>
    obtain ⟨rfl, rfl⟩ := h
    exact .quiet rfl rfl rfl le_rfl rfl
  case realSendTail c head =>
    split at h
    · cases h
    · obtain ⟨rfl, rfl⟩ := Option.some.inj h
      exact .begin c head
  case realSendStore c bufs =>
    obtain ⟨rfl, rfl⟩ := h
    exact .store c bufs
  case wsaSend c bufs =>
    cases e <;> simp only [reduceCtorEq] at h
    split at h <;> obtain ⟨rfl, rfl⟩ := Option.some.inj h
    · exact .send c bufs s.sendIo s.sendReady _ rfl rfl rfl
    · exact .send c bufs _ _ _ c.after.pc_hand c.after.pc_fresh c.after.pc_drained
  case deqHead d =>
    obtain ⟨rfl, rfl⟩ := h
    exact .look rfl rfl Iff.rfl rfl rfl
  case deqLoad d head =>
    obtain ⟨rfl, rfl⟩ := h
    split <;> rename_i hu
    · exact .look rfl rfl Iff.rfl rfl rfl
    · rcases d with ⟨c, _ | _⟩ | r
      · exact .look rfl rfl Iff.rfl rfl rfl
      · exact .look rfl rfl Iff.rfl rfl rfl
      · exact .drained r head (Bool.eq_false_of_not_eq_true hu)
  case deqCas d head =>
    split at h <;> obtain ⟨rfl, rfl⟩ := h
    · exact .took d head _
    · exact .look rfl rfl Iff.rfl rfl rfl
  case deqData d head =>
    obtain ⟨rfl, rfl⟩ := h
    exact .look rfl rfl Iff.rfl rfl rfl
  case deqClear d head x =>
    split at h
    · cases d with
      | realSend c bufs =>
        obtain ⟨rfl, rfl⟩ := Option.some.inj h
        refine .stored c bufs head x _ _ ?_
        split
        · exact .inl rfl
        · exact .inr rfl
      | reset r =>
        obtain ⟨rfl, rfl⟩ := Option.some.inj h
        exact .dropped r head x _
    · cases h
  case postSendRelease i =>
    split at h <;> rename_i hi
    · obtain ⟨x, hx, hb⟩ := Option.map_eq_some_iff.1 h
      obtain ⟨rfl, rfl⟩ := hb
      exact .free i x hi hx
    · obtain ⟨rfl, rfl⟩ := Option.some.inj h
      exact .freed i hi
  case postSendClear =>
    obtain ⟨rfl, rfl⟩ := h
    exact .aside rfl rfl rfl rfl rfl rfl rfl (.inl rfl) (.inr (.inr (.inl rfl)))
      (.inl (Nat.add_le_add_right (Nat.zero_le _) _)) (.inl rfl)

theorem nextLife_handling {e : Event Buf} (h : nextLife index s pc e = some (s', pc')) :
    Handling s pc s' pc' := by
  cases pc <;> simp only [nextLife, Option.some.injEq, Prod.mk.injEq, reduceCtorEq] at h
  case recvExecute =>
    cases e <;> simp only [reduceCtorEq] at h <;> obtain ⟨rfl, rfl⟩ := Option.some.inj h <;>
      exact .quiet rfl rfl rfl le_rfl rfl
  case recvRef | recvConnect | recvRecheck | timeoutRef =>
    obtain ⟨rfl, rfl⟩ := h
    split <;> exact .quiet rfl rfl rfl le_rfl rfl
  case wsaRecv =>
    cases e with
    | result r =>
      cases r <;> obtain ⟨rfl, rfl⟩ := Option.some.inj h <;>
        exact .aside rfl rfl rfl rfl rfl rfl rfl (.inl rfl) (.inl rfl) (.inl le_rfl) (.inl rfl)
    | _ => cases h
  case reset r =>
    obtain ⟨rfl, rfl⟩ := h
    exact .reset r
  case resetSending r =>
    obtain ⟨rfl, rfl⟩ := h
    cases r <;> exact .cleared _ _ rfl rfl
  case timeoutInc | acceptConnect =>
    obtain ⟨rfl, rfl⟩ := h
    exact .quiet rfl rfl rfl le_rfl rfl
  case acceptIncreaseRef | acceptSetId =>
    obtain ⟨rfl, rfl⟩ := h
    exact .aside rfl rfl rfl rfl rfl rfl rfl (.inl rfl) (.inl rfl) (.inl le_rfl)
      (.inr ⟨rfl, rfl⟩)
  case recvCancel | acceptOffFlag | onDisconnect | releaseFreeIndex =>
    obtain ⟨rfl, rfl⟩ := h
    exact .aside rfl rfl rfl rfl rfl rfl rfl (.inl rfl) (.inl rfl) (.inl le_rfl) (.inl rfl)

theorem start_handling {e : Event Buf} (h : start index s e = some (s', pc')) :
    Handling s .idle s' pc' := by
  cases e <;> simp only [start, Option.some.injEq, Prod.mk.injEq, reduceCtorEq,
    Option.ite_none_right_eq_some] at h
  case hold | disconnect | sendPacket | sendPacketBlocking | timeout =>
    obtain ⟨rfl, rfl⟩ := h
    exact .quiet rfl rfl rfl le_rfl rfl
  case sendExecutable =>
    split at h
    · cases h
    · rename_i id rest hp
      obtain ⟨rfl, rfl⟩ := Option.some.inj h
      refine .aside rfl rfl rfl rfl rfl rfl rfl (.inl rfl) (.inl rfl) (.inl ?_) (.inl rfl)
      rw [hp]
      simp only [Pc.fresh, Pc.owns, List.length_cons]
      omega
  case sendDone =>
    obtain ⟨hpos, rfl, rfl⟩ := h
    exact .done hpos
  case releaseExecutable | accept | recvReady | sendReady | recvDone | recvFailed | recvAborted |
      sendFailed | sendAborted =>
    obtain ⟨hpos, rfl, rfl⟩ := h
    exact .aside rfl rfl rfl rfl rfl rfl rfl (.inl rfl) (.inl rfl) (.inl le_rfl) (.inl rfl)

theorem next_handling {e : Event Buf} (h : next index s pc e = some (s', pc')) :
    Handling s pc s' pc' := by
  unfold next at h
  split at h
  · exact start_handling h
  all_goals first
    | exact nextRef_handling h | exact nextSend_handling h | exact nextRealSend_handling h
    | exact nextLife_handling h

end Slot

end NetLib
