import NetLib.Queue.Concurrent
import NetLib.Slot.Pinning
/-!
# The send queue of a slot

Every action on the slot is one access of `_sendQ` or none, so the window
of the queue is an invariant of the slot, as long as one thread at a time
dequeues and no `Enqueue` is refused.
-/

namespace NetLib

namespace Slot

open LockFreeFixedQueue

variable {Buf : Type} {index : ℕ}

/-- Where a thread is inside `_sendQ`. -/
def Pc.access : Pc Buf → Access Buf
  | .enqLoad t b _ => .load t b
  | .enqPut t b _ => .put t b
  | .enqPublish t b _ => .publish t b
  | .deqLoad _ h => .headLoad h
  | .deqCas _ h => .cas h
  | .deqData _ h => .take h
  | .deqClear _ h b => .clear h b
  | _ => .outside

/-- `_sendQ` with its history. -/
def traced (s : Slot Buf) : Traced Buf MAX_SEND_COUNT := ⟨s.sendQ, s.tickets, s.taken⟩

/-- The threads as `_sendQ` sees them. -/
def queue (w : World Buf) : Pool (Traced Buf MAX_SEND_COUNT) (Access Buf) :=
  ⟨w.shared.traced, w.threads.map Pc.access⟩

/-- Is `Enqueue` about to take a ticket with a whole lap of tickets out, or
about to be refused? -/
def overruns (s : Slot Buf) : Pc Buf → Bool
  | .enqTicket _ _ => decide (MAX_SEND_COUNT ≤ s.sendQ.size)
  | .enqLoad tail _ _ => s.sendQ.loadUsed tail
  | _ => false

@[simp] theorem After.pc_access (k : After) : (k.pc : Pc Buf).access = .outside := by
  cases k <;> rfl

@[simp] theorem Use.found_access (id : SessionID) (use : Use Buf) :
    (use.found id).access = .outside := by cases use <;> rfl

@[simp] theorem Sender.canSend_access (c : Sender) : (c.canSend : Pc Buf).access = .outside := by
  cases c <;> rfl

@[simp] theorem Drain.empty_access (d : Drain Buf) : d.empty.access = .outside := by
  rcases d with ⟨c, _ | _⟩ | r <;> rfl

/-- An action that leaves the queue alone. -/
theorem access_quiet {s s' : Slot Buf} {pc pc' : Pc Buf} (hs : s'.traced = s.traced)
    (hpc : pc.access = .outside) (hpc' : pc'.access = .outside) :
    AccessStep s.traced pc.access s'.traced pc'.access := by
  rw [hs, hpc, hpc']
  exact .quiet

theorem nextRef_access {s s' : Slot Buf} {pc pc' : Pc Buf} (h : nextRef s pc = some (s', pc')) :
    AccessStep s.traced pc.access s'.traced pc'.access := by
  cases pc <;> simp only [nextRef, Option.some.injEq, Prod.mk.injEq, reduceCtorEq] at h
  case findCheck id result use =>
    split at h <;> obtain ⟨rfl, rfl⟩ := h
    · exact .quiet
    · exact access_quiet rfl rfl (use.found_access id)
  case release pin k =>
    obtain ⟨rfl, rfl⟩ := h
    refine access_quiet rfl rfl ?_
    split
    · rfl
    · exact k.pc_access
  case releaseCas k =>
    split at h <;> obtain ⟨rfl, rfl⟩ := h
    · exact .quiet
    · exact access_quiet rfl rfl k.pc_access
  case postRelease k =>
    obtain ⟨rfl, rfl⟩ := h
    exact access_quiet rfl rfl k.pc_access
  case find | holding | close | cancel =>
    obtain ⟨rfl, rfl⟩ := h
    exact .quiet

theorem nextSend_access {s s' : Slot Buf} {pc pc' : Pc Buf} (h : nextSend s pc = some (s', pc'))
    (hsize : s.sendQ.size = s.tickets.length - s.taken) (ho : overruns s pc = false) :
    AccessStep s.traced pc.access s'.traced pc'.access := by
  cases pc <;> simp only [nextSend, Option.some.injEq, Prod.mk.injEq, reduceCtorEq] at h
  case enqTicket b c =>
    obtain ⟨rfl, rfl⟩ := h
    refine .ticket b ?_
    change s.tickets.length < s.taken + MAX_SEND_COUNT
    simp only [overruns, decide_eq_false_iff_not] at ho
    omega
  case enqLoad tail b c =>
    split at h <;> rename_i hu <;> obtain ⟨rfl, rfl⟩ := h
    · exact absurd (hu.symm.trans ho) Bool.noConfusion
    · exact .vacant ho
  case enqPut tail b c =>
    obtain ⟨rfl, rfl⟩ := h
    exact .stored
  case enqPublish tail b c =>
    split at h
    · cases h
    · obtain ⟨rfl, rfl⟩ := Option.some.inj h
      exact .published
  case canConnect | canRef =>
    obtain ⟨rfl, rfl⟩ := h
    split <;> exact .quiet
  case canTail c first head =>
    split at h <;> obtain ⟨rfl, rfl⟩ := h <;> refine access_quiet rfl rfl ?_ <;> cases first
    all_goals first | rfl | exact c.canSend_access
  case canExchange =>
    split at h <;> obtain ⟨rfl, rfl⟩ := h <;> exact .quiet
  case enqFull | canHead | canClear | postSendExecutable =>
    obtain ⟨rfl, rfl⟩ := h
    exact .quiet

theorem nextRealSend_access {s s' : Slot Buf} {pc pc' : Pc Buf} {e : Event Buf}
    (h : nextRealSend s pc e = some (s', pc')) :
    AccessStep s.traced pc.access s'.traced pc'.access := by
  cases pc <;> simp only [nextRealSend, Option.some.injEq, Prod.mk.injEq, reduceCtorEq] at h
  case realSendCheck =>
    obtain ⟨rfl, rfl⟩ := h
    split <;> exact .quiet
  case realSendTail =>
    split at h
    · cases h
    · obtain ⟨rfl, rfl⟩ := Option.some.inj h
      exact .quiet
  case wsaSend c bufs =>
    cases e <;> simp only [reduceCtorEq] at h
    split at h <;> obtain ⟨rfl, rfl⟩ := Option.some.inj h
    · exact .quiet
    · exact access_quiet rfl rfl c.after.pc_access
  case deqHead d =>
    obtain ⟨rfl, rfl⟩ := h
    exact .readHead
  case deqLoad d head =>
    obtain ⟨rfl, rfl⟩ := h
    split
    · exact .used (by assumption)
    · rw [d.empty_access]
      exact .unused
  case deqCas d head =>
    split at h <;> obtain ⟨rfl, rfl⟩ := h
    · exact .won (by assumption)
    · exact .lost
  case deqData d head =>
    obtain ⟨rfl, rfl⟩ := h
    exact .read
  case deqClear d head b =>
    split at h
    · cases d <;> obtain ⟨rfl, rfl⟩ := Option.some.inj h
      · split <;> exact .cleared
      · exact .cleared
    · cases h
  case postSendRelease i =>
    split at h
    · obtain ⟨b, -, hb⟩ := Option.map_eq_some_iff.1 h
      obtain ⟨rfl, rfl⟩ := hb
      exact .quiet
    · obtain ⟨rfl, rfl⟩ := Option.some.inj h
      exact .quiet
  case realSend | realSendHead | realSendStore | postSendClear =>
    obtain ⟨rfl, rfl⟩ := h
    exact .quiet

theorem nextLife_access {s s' : Slot Buf} {pc pc' : Pc Buf} {e : Event Buf}
    (h : nextLife index s pc e = some (s', pc')) :
    AccessStep s.traced pc.access s'.traced pc'.access := by
  cases pc <;> simp only [nextLife, Option.some.injEq, Prod.mk.injEq, reduceCtorEq] at h
  case recvExecute =>
    cases e <;> simp only [reduceCtorEq] at h <;> obtain ⟨rfl, rfl⟩ := Option.some.inj h <;>
      exact .quiet
  case recvRef | recvConnect | recvRecheck | timeoutRef =>
    obtain ⟨rfl, rfl⟩ := h
    split <;> exact .quiet
  case wsaRecv =>
    cases e with
    | result r => cases r <;> obtain ⟨rfl, rfl⟩ := Option.some.inj h <;> exact .quiet
    | _ => cases h
  case resetSending r =>
    obtain ⟨rfl, rfl⟩ := h
    cases r <;> exact .quiet
  case acceptSetId | acceptOffFlag | recvCancel | timeoutInc | acceptIncreaseRef | acceptConnect |
      onDisconnect | reset | releaseFreeIndex =>
    obtain ⟨rfl, rfl⟩ := h
    exact .quiet

theorem start_access {s s' : Slot Buf} {pc' : Pc Buf} {e : Event Buf}
    (h : start index s e = some (s', pc')) :
    AccessStep s.traced .outside s'.traced pc'.access := by
  cases e <;> simp only [start, Option.some.injEq, Prod.mk.injEq, reduceCtorEq,
    Option.ite_none_right_eq_some] at h
  case hold | disconnect | sendPacket | sendPacketBlocking | timeout =>
    obtain ⟨rfl, rfl⟩ := h
    exact .quiet
  case sendExecutable =>
    split at h
    · cases h
    · obtain ⟨rfl, rfl⟩ := Option.some.inj h
      exact .quiet
  case releaseExecutable | accept | recvReady | sendReady | recvDone | recvFailed | recvAborted |
      sendDone | sendFailed | sendAborted =>
    obtain ⟨hpos, rfl, rfl⟩ := h
    exact .quiet

/-- **Each action is an access of the send queue**, unless it overruns it. -/
theorem next_access {s s' : Slot Buf} {pc pc' : Pc Buf} {e : Event Buf}
    (h : next index s pc e = some (s', pc'))
    (hsize : s.sendQ.size = s.tickets.length - s.taken) (ho : overruns s pc = false) :
    AccessStep s.traced pc.access s'.traced pc'.access := by
  unfold next at h
  split at h
  · exact start_access h
  all_goals first
    | exact nextRef_access h | exact nextSend_access h hsize ho | exact nextRealSend_access h
    | exact nextLife_access h

/-- `Size()` counts the tickets out. -/
theorem size_eq {b : ℕ} {w : World Buf} (h : Window b (queue w)) :
    w.shared.sendQ.size = w.shared.tickets.length - w.shared.taken := by
  have hsize := h.size_eq (show 9 ≤ 30 by decide)
  exact hsize

/-- **The window is kept** by every action that does not overrun it, as long
as one thread at a time dequeues. -/
theorem queue_step {b : ℕ} {w w' : World Buf} {e : ℕ × Event Buf} {pc pc' : Pc Buf}
    (h : Window b (queue w)) (hpc : w.threads[e.1]? = some pc)
    (hnext : next index w.shared pc e.2 = some (w'.shared, pc'))
    (ht : w'.threads = w.threads.set e.1 pc') (ho : overruns w.shared pc = false)
    (hone : w.total (fun pc => pc.access.drains) ≤ 1) : Window b (queue w') := by
  refine h.step (i := e.1) (a := pc.access) (by decide) ?_ ?_
    (next_access hnext (size_eq h) ho) ?_
  · simp [queue, hpc]
  · simp [queue, ht, List.map_set]
  · simp only [Pool.total, queue, List.map_map]
    exact hone

end Slot

end NetLib
