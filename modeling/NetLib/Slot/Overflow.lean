import NetLib.Queue.Overrun
import NetLib.Slot.Reset
/-!
# What a refused buffer leaves behind

A peer that stops reading keeps one send pending, and 512 calls of
`SendPacket` fill the queue. The next one is refused and the session
disconnected, but its ticket stays: `Reset` takes the 512 buffers, stops at
the cell nobody filled, and leaves a queue that counts one buffer.
-/

namespace NetLib

namespace Slot

open LockFreeFixedQueue

variable {Buf : Type} {index : ℕ} {s : Slot Buf}

/-! ## One thread alone -/

/-- `FindSession` of the session in the slot. -/
theorem find_solo {id : SessionID} {use : Use Buf} (hid : s.sessionId = id)
    (hfew : s.refCount + 1 < RELEASE_FLAG) :
    Pool.solo (next index) s (.find id use) [.go, .go] =
      some ({ s with refCount := s.refCount + 1 }, use.found id) := by
  have hcheck : ¬(RELEASE_FLAG < s.refCount + 1 ∨ s.sessionId ≠ id) := by
    rw [not_or, not_not]
    exact ⟨by omega, hid⟩
  simp only [Pool.solo, next, nextRef, Option.bind_some, if_neg hcheck]

/-- `Release` of a reference that is not the last. -/
theorem release_solo {pin : Option SessionID} {k : After} (h : s.refCount ≠ 1) :
    Pool.solo (next index) s (.release pin k) [.go] =
      some ({ s with refCount := s.refCount - 1 }, k.pc) := by
  have hzero : ¬s.refCount - 1 = 0 := by omega
  simp only [Pool.solo, next, nextRef, Option.bind_some, if_neg hzero]

/-- `Enqueue` that finds its cell free. -/
theorem enqueue_solo {b : Buf} {c : Sender} {q : LockFreeFixedQueue Buf MAX_SEND_COUNT}
    (h : s.sendQ.enqueue b = some (true, q)) :
    Pool.solo (next index) s (.enqTicket b c) [.go, .go, .go, .go] =
      some ({ s with sendQ := q, tickets := s.tickets ++ [b] }, .canConnect c) := by
  simp only [enqueue] at h
  by_cases hu : s.sendQ.fetchAddTail.2.loadUsed s.sendQ.fetchAddTail.1 = true
  · rw [if_pos hu] at h
    cases h
  · rw [if_neg hu] at h
    split at h
    · cases h
    · rename_i hx
      obtain ⟨-, rfl⟩ := Prod.mk.inj (Option.some.inj h)
      simp only [Pool.solo, next, nextSend, Option.bind_some, if_neg hu, if_neg hx]

/-- `CanSend` while another thread is sending. -/
theorem canSend_solo {c : Sender} (hconnect : s.connect = true) (hopen : s.refCount < RELEASE_FLAG)
    (hsending : s.isSending = true) (hsize : s.sendQ.size ≠ 0) :
    Pool.solo (next index) s (.canConnect c) [.go, .go, .go, .go, .go] = some (s, c.release) := by
  have hflag : ¬RELEASE_FLAG ≤ s.refCount := by omega
  have hqueue : ¬(s.sendQ.tailIndex - s.sendQ.headIndex).toInt = 0 := hsize
  simp only [Pool.solo, next, nextSend, Option.bind_some, hconnect, if_true, if_neg hflag,
    if_neg hqueue, hsending]

/-- A call of `SendPacket`, for a session that is open and sending, and a
buffer the queue takes. -/
theorem sendPacket_solo {id : SessionID} {b : Buf} {q : LockFreeFixedQueue Buf MAX_SEND_COUNT}
    (hid : s.sessionId = id) (hconnect : s.connect = true) (hpos : 0 < s.refCount)
    (hfew : s.refCount + 1 < RELEASE_FLAG) (hsending : s.isSending = true)
    (henq : s.sendQ.enqueue b = some (true, q)) (hsize : q.size ≠ 0) :
    Pool.solo (next index) s .idle (.sendPacket id b :: List.replicate 12 .go) =
      some ({ s with sendQ := q, tickets := s.tickets ++ [b] }, .idle) := by
  let s₁ : Slot Buf := { s with refCount := s.refCount + 1 }
  let s₂ : Slot Buf := { s₁ with sendQ := q, tickets := s.tickets ++ [b] }
  have hstart : Pool.solo (next index) s .idle [.sendPacket id b] =
      some (s, .find id (.sendPacket b)) := rfl
  have hfound : Pool.solo (next index) s (.find id (.sendPacket b)) [.go, .go] =
      some (s₁, .enqTicket b (.sendPacket id)) := find_solo hid hfew
  have hput : Pool.solo (next index) s₁ (.enqTicket b (.sendPacket id)) [.go, .go, .go, .go] =
      some (s₂, .canConnect (.sendPacket id)) := enqueue_solo henq
  have hcan : Pool.solo (next index) s₂ (.canConnect (.sendPacket id)) [.go, .go, .go, .go, .go] =
      some (s₂, .release (some id) .done) := canSend_solo hconnect hfew hsending hsize
  have hrel : Pool.solo (next index) s₂ (.release (some id) .done) [.go] =
      some ({ s₂ with refCount := s₂.refCount - 1 }, .idle) :=
    release_solo (show s.refCount + 1 ≠ 1 by omega)
  have hback : ({ s₂ with refCount := s₂.refCount - 1 } : Slot Buf) =
      { s with sendQ := q, tickets := s.tickets ++ [b] } := by
    simp [s₁, s₂]
  rw [← hback]
  exact Pool.solo_append hstart (Pool.solo_append hfound
    (Pool.solo_append hput (Pool.solo_append hcan hrel)))

/-- A call of `SendPacket` whose buffer is refused disconnects the session. -/
theorem sendPacket_refused_solo {id : SessionID} {b : Buf}
    {q : LockFreeFixedQueue Buf MAX_SEND_COUNT} (hid : s.sessionId = id) (hpos : 0 < s.refCount)
    (hfew : s.refCount + 2 < RELEASE_FLAG) (henq : s.sendQ.enqueue b = some (false, q)) :
    Pool.solo (next index) s .idle (.sendPacket id b :: List.replicate 12 .go) =
      some (({ s with connect := false, sendQ := q, tickets := s.tickets ++ [b] } :
        Slot Buf).cancelIo, .idle) := by
  subst hid
  let s₁ : Slot Buf := { s with refCount := s.refCount + 1 }
  let s₂ : Slot Buf := { s₁ with sendQ := q, tickets := s.tickets ++ [b] }
  let s₃ : Slot Buf := { s₂ with refCount := s₂.refCount + 1 }
  let s₄ : Slot Buf := ({ s₃ with connect := false } : Slot Buf).cancelIo
  let s₅ : Slot Buf := { s₄ with refCount := s₄.refCount - 1 }
  have hstart : Pool.solo (next index) s .idle [.sendPacket s.sessionId b] =
      some (s, .find s.sessionId (.sendPacket b)) := rfl
  have hfound : Pool.solo (next index) s (.find s.sessionId (.sendPacket b)) [.go, .go] =
      some (s₁, .enqTicket b (.sendPacket s.sessionId)) := find_solo rfl (by omega)
  have hfull : Pool.solo (next index) s₁ (.enqTicket b (.sendPacket s.sessionId)) [.go, .go, .go] =
      some (s₂, .find s.sessionId (.disconnect (.canSend (.sendPacket s.sessionId)))) := by
    simp only [enqueue] at henq
    by_cases hu : s.sendQ.fetchAddTail.2.loadUsed s.sendQ.fetchAddTail.1 = true
    · rw [if_pos hu] at henq
      obtain ⟨-, rfl⟩ := Prod.mk.inj (Option.some.inj henq)
      simp only [Pool.solo, next, nextSend, Option.bind_some, s₁, if_pos hu]
      rfl
    · rw [if_neg hu] at henq
      split at henq <;> cases henq
  have hfound' : Pool.solo (next index) s₂
      (.find s.sessionId (.disconnect (.canSend (.sendPacket s.sessionId)))) [.go, .go] =
        some (s₃, .close s.sessionId (.canSend (.sendPacket s.sessionId))) :=
    find_solo rfl (show s.refCount + 1 + 1 < RELEASE_FLAG by omega)
  have hclose : Pool.solo (next index) s₃
      (.close s.sessionId (.canSend (.sendPacket s.sessionId))) [.go, .go] =
      some (s₄, .release (some s.sessionId) (.canSend (.sendPacket s.sessionId))) := rfl
  have hrel : Pool.solo (next index) s₄
      (.release (some s.sessionId) (.canSend (.sendPacket s.sessionId))) [.go] =
      some (s₅, .canConnect (.sendPacket s.sessionId)) :=
    release_solo (show s.refCount + 1 + 1 ≠ 1 by omega)
  have hcan : Pool.solo (next index) s₅ (.canConnect (.sendPacket s.sessionId)) [.go] =
      some (s₅, .release (some s.sessionId) .done) := rfl
  have hrel' : Pool.solo (next index) s₅ (.release (some s.sessionId) .done) [.go] =
      some ({ s₅ with refCount := s₅.refCount - 1 }, .idle) :=
    release_solo (show s.refCount + 1 + 1 - 1 ≠ 1 by omega)
  have hback : ({ s₅ with refCount := s₅.refCount - 1 } : Slot Buf) =
      ({ s with
        connect := false, sendQ := q, tickets := s.tickets ++ [b] } : Slot Buf).cancelIo := by
    simp [s₁, s₂, s₃, s₄, s₅, cancelIo]
  rw [← hback]
  exact Pool.solo_append hstart (Pool.solo_append hfound (Pool.solo_append hfull
    (Pool.solo_append hfound' (Pool.solo_append hclose (Pool.solo_append hrel
      (Pool.solo_append hcan hrel'))))))

/-- `Dequeue` of a stored buffer, called by `Reset`. -/
theorem dequeue_reset_solo {r : Resetter} {b : Buf} {q : LockFreeFixedQueue Buf MAX_SEND_COUNT}
    (h : s.sendQ.dequeue = some (some b, q)) :
    Pool.solo (next index) s (.deqHead (.reset r)) (List.replicate 5 .go) =
      some ({ s with sendQ := q, taken := s.taken + 1, freed := s.freed ++ [b] },
        .deqHead (.reset r)) := by
  simp only [dequeue] at h
  by_cases hu : s.sendQ.loadUsed s.sendQ.headIndex = true
  · rw [if_pos hu] at h
    split at h
    · rename_i hx
      simp only [Option.some.injEq, Prod.mk.injEq] at h
      obtain ⟨rfl, rfl⟩ := h
      have hcas : (s.sendQ.casHead s.sendQ.headIndex).1 = true := by simp [casHead]
      simp only [List.replicate, Pool.solo, next, nextRealSend, Option.bind_some, if_pos hu,
        if_pos hcas, if_pos hx]
    · cases h
  · rw [if_neg hu] at h
    cases h

/-- The last `Dequeue` of `Reset`. -/
theorem dequeue_reset_none_solo {r : Resetter} {q : LockFreeFixedQueue Buf MAX_SEND_COUNT}
    (h : s.sendQ.dequeue = some (none, q)) :
    Pool.solo (next index) s (.deqHead (.reset r)) [.go, .go] = some (s, .resetSending r) := by
  simp only [dequeue] at h
  by_cases hu : s.sendQ.loadUsed s.sendQ.headIndex = true
  · rw [if_pos hu] at h
    split at h <;> cases h
  · simp only [Pool.solo, next, nextRealSend, Option.bind_some, if_neg hu, Drain.empty]

/-- **`Reset` takes what the queue stores**, and leaves the refused ticket. -/
theorem drain_solo (r : Resetter) {items : List Buf} {h : ℕ} (hq : Overrun s.sendQ items h) :
    ∃ es q, Pool.solo (next index) s (.deqHead (.reset r)) es =
        some ({ s with sendQ := q, taken := s.taken + items.length, freed := s.freed ++ items },
          .resetSending r) ∧ q.size = 1 := by
  induction items generalizing s h with
  | nil =>
    obtain ⟨hdeq, hsize⟩ := dequeue_overrun_nil (by decide) hq
    refine ⟨[.go, .go], s.sendQ, ?_, hsize⟩
    rw [List.append_nil]
    exact dequeue_reset_none_solo hdeq
  | cons b items ih =>
    obtain ⟨q, hdeq, hq'⟩ := dequeue_overrun_cons (by decide) hq
    obtain ⟨es, q', hsolo, hsize⟩ :=
      ih (s := { s with sendQ := q, taken := s.taken + 1, freed := s.freed ++ [b] }) hq'
    refine ⟨List.replicate 5 .go ++ es, q', ?_, hsize⟩
    have h := Pool.solo_append (dequeue_reset_solo hdeq) hsolo
    rw [h, List.length_cons, List.append_assoc, List.singleton_append, Nat.add_assoc,
      Nat.add_comm 1]

/-- The two cancelled operations of a session give their references back,
and `ReleaseExecutable` comes to the queue. -/
theorem released_solo (hcount : s.refCount = 2) (hrecv : 0 < s.recvAborted)
    (hsend : 0 < s.sendAborted) :
    (Pool.solo (next index) s .idle
        [.recvAborted, .go, .sendAborted, .go, .go, .go, .releaseExecutable, .go, .go]).map
      (fun r => (r.1.sendQ, r.2)) = some (s.sendQ, .deqHead (.reset .release)) := by
  let s₁ : Slot Buf := { s with recvAborted := s.recvAborted - 1 }
  let s₂ : Slot Buf := { s₁ with refCount := s₁.refCount - 1 }
  let s₃ : Slot Buf := { s₂ with sendAborted := s₂.sendAborted - 1 }
  let s₄ : Slot Buf := { s₃ with
    refCount := RELEASE_FLAG, releasePosted := s₃.releasePosted + 1,
    posted := s₃.posted ++ [s₃.sessionId] }
  let s₅ : Slot Buf := { s₄ with
    releasePosted := s₄.releasePosted - 1, disconnected := s₄.disconnected ++ [s₄.sessionId],
    isSending := false }
  have hfirst : Pool.solo (next index) s .idle [.recvAborted] = some (s₁, .release none .done) := by
    simp only [Pool.solo, next, start, if_pos hrecv, Option.bind_some, s₁]
  have hsecond : Pool.solo (next index) s₂ .idle [.sendAborted] =
      some (s₃, .release none .done) := by
    simp only [Pool.solo, next, start, s₁, s₂, s₃, if_pos hsend, Option.bind_some]
  have hlast : Pool.solo (next index) s₃ (.release none .done) [.go, .go, .go] =
      some (s₄, .idle) := by
    have hone : s₃.refCount - 1 = 0 := by
      change s.refCount - 1 - 1 = 0
      omega
    simp only [Pool.solo, next, nextRef, Option.bind_some, if_pos hone, After.pc, s₄]
  have hreset : Pool.solo (next index) s₄ .idle [.releaseExecutable, .go, .go] =
      some (s₅, .deqHead (.reset .release)) := by
    have hposted : 0 < s₄.releasePosted := Nat.succ_pos _
    simp only [Pool.solo, next, start, nextLife, Option.bind_some, if_pos hposted, s₅]
  have hrel : Pool.solo (next index) s₁ (.release none .done) [.go] = some (s₂, .idle) :=
    release_solo (show s.refCount ≠ 1 by omega)
  have hrun := Pool.solo_append hfirst (Pool.solo_append hrel
    (Pool.solo_append hsecond (Pool.solo_append hlast hreset)))
  exact congrArg (Option.map fun r => (r.1.sendQ, r.2)) hrun

/-! ## The run -/

/-- One session, whose send is pending. -/
def acceptAndStall : List (ℕ × Event ℕ) :=
  (0, .accept 0) :: List.replicate 10 (0, .go) ++ (0, .result .pending) :: (0, .go) ::
    (1, .sendPacketBlocking ⟨1, 0⟩ 7) :: List.replicate 25 (1, .go) ++
    (1, .result .pending) :: [(1, .go)]

/-- **Calls of `SendPacket` fill the queue** while the send is pending. -/
theorem fill_exec {w : World Buf} {id : SessionID} {i h n : ℕ} {b : Buf} {items : List Buf}
    (hq : Holds w.shared.sendQ items h) (hlen : items.length + n ≤ MAX_SEND_COUNT)
    (hi : w.threads[i]? = some .idle) (hid : w.shared.sessionId = id)
    (hconnect : w.shared.connect = true) (hpos : 0 < w.shared.refCount)
    (hfew : w.shared.refCount + 1 < RELEASE_FLAG) (hsending : w.shared.isSending = true) :
    ∃ es q, exec (Slot.step index) w es = some ⟨{ w.shared with
        sendQ := q, tickets := w.shared.tickets ++ List.replicate n b }, w.threads⟩ ∧
      Holds q (items ++ List.replicate n b) h := by
  induction n generalizing w items with
  | zero => exact ⟨[], w.shared.sendQ, by simp [exec], by simpa using hq⟩
  | succ n ih =>
    change items.length + (n + 1) ≤ 2 ^ 9 at hlen
    obtain ⟨q, henq, hq'⟩ := enqueue_of_room (by decide) hq (by omega) b
    have hsize : q.size ≠ 0 := by
      rw [size_of_holds (by decide) hq', List.length_append, List.length_singleton]
      omega
    have hone := Pool.exec_of_solo hi
      (sendPacket_solo hid hconnect hpos hfew hsending henq hsize :
        Pool.solo (next index) _ _ _ = _)
    obtain ⟨hlt, hget⟩ := List.getElem?_eq_some_iff.1 hi
    rw [← hget, List.set_getElem_self hlt] at hone
    obtain ⟨es, q', hrest, hq''⟩ :=
      ih (w := ⟨{ w.shared with sendQ := q, tickets := w.shared.tickets ++ [b] }, w.threads⟩) hq'
        (by rw [List.length_append, List.length_singleton]; change _ ≤ 2 ^ 9; omega) hi hid
        hconnect hpos hfew hsending
    refine ⟨_ ++ es, q', exec_append hone ?_, ?_⟩
    · rw [hrest, List.append_assoc, List.singleton_append, ← List.replicate_succ]
    · rwa [List.append_assoc, List.singleton_append, ← List.replicate_succ] at hq''

/-- The next call finds the queue full: its ticket stays, and the operations
of the session are cancelled. -/
theorem refuse_exec (index : ℕ) {w : World Buf} {id : SessionID} {i h : ℕ} {b : Buf}
    {items : List Buf}
    (hq : Holds w.shared.sendQ items h) (hfull : items.length = MAX_SEND_COUNT)
    (hi : w.threads[i]? = some .idle) (hid : w.shared.sessionId = id) (hpos : 0 < w.shared.refCount)
    (hfew : w.shared.refCount + 2 < RELEASE_FLAG) :
    ∃ es w', exec (Slot.step index) w es = some w' ∧ w'.threads = w.threads ∧
      Overrun w'.shared.sendQ items h ∧ w'.shared.refCount = w.shared.refCount ∧
      w'.shared.recvAborted = w.shared.recvAborted + (w.shared.recvIo - w.shared.recvReady) ∧
      w'.shared.sendAborted = w.shared.sendAborted + (w.shared.sendIo - w.shared.sendReady) := by
  obtain ⟨hrefused, hover⟩ := enqueue_full_overrun (by decide) hq hfull b
  have hrun := Pool.exec_of_solo hi
    (sendPacket_refused_solo hid hpos hfew hrefused : Pool.solo (next index) _ _ _ = _)
  obtain ⟨hlt, hget⟩ := List.getElem?_eq_some_iff.1 hi
  rw [← hget, List.set_getElem_self hlt] at hrun
  exact ⟨_, _, hrun, rfl, hover, rfl, rfl, rfl⟩

/-- The session goes, and `Reset` takes what is stored. -/
theorem reset_exec (index : ℕ) {w : World Buf} {i h : ℕ} {items : List Buf}
    (hq : Overrun w.shared.sendQ items h) (hi : w.threads[i]? = some .idle)
    (hcount : w.shared.refCount = 2) (hrecv : 0 < w.shared.recvAborted)
    (hsend : 0 < w.shared.sendAborted) :
    ∃ es w', exec (Slot.step index) w es = some w' ∧
      w'.threads = w.threads.set i .releaseFreeIndex ∧ w'.shared.sendQ.size = 1 := by
  obtain ⟨⟨s₁, pc⟩, hgone, heq⟩ := Option.map_eq_some_iff.1
    (released_solo hcount hrecv hsend : Option.map _ (Pool.solo (next index) _ _ _) = _)
  obtain ⟨hq₁, rfl⟩ := Prod.mk.inj heq
  change s₁.sendQ = w.shared.sendQ at hq₁
  rw [← hq₁] at hq
  obtain ⟨es, q, hdrain, hsize⟩ :
    ∃ es q, Pool.solo (next index) _ _ es = some (_, .resetSending .release) ∧ _ :=
      drain_solo .release hq
  have hsending : Pool.solo (next index) { s₁ with
      sendQ := q, taken := s₁.taken + items.length, freed := s₁.freed ++ items }
      (.resetSending .release) [.go] = some (_, .releaseFreeIndex) := rfl
  have hrun := Pool.exec_of_solo hi (Pool.solo_append hgone (Pool.solo_append hdrain hsending))
  exact ⟨_, _, hrun, rfl, hsize⟩

/-- **A ticket outlives `Reset`.** A session has one send pending and its
queue full, the next buffer is refused, the session is released and its slot
reset. No call is in progress but the one that has just come back from
`Reset`, and `_sendQ.Size()` is 1. -/
theorem reset_leaves_ticket : ∃ es, ∃ w : World ℕ,
    exec (Slot.step 0) (World.initial 3) es = some w ∧
      w.threads = [.releaseFreeIndex, .idle, .idle] ∧ w.shared.sendQ.size = 1 := by
  have hmap : (exec (Slot.step 0) (World.initial 3) acceptAndStall).map (fun w =>
        (w.threads, w.shared.sessionId, w.shared.connect, w.shared.refCount, w.shared.isSending,
          w.shared.tickets, w.shared.taken)) =
      some ([.idle, .idle, .idle], ⟨1, 0⟩, true, 2, true, [7], 1) := by rfl
  have hmapQ : (exec (Slot.step 0) (World.initial 3) acceptAndStall).map (fun w =>
        (w.shared.sendQ.headIndex, w.shared.sendQ.tailIndex, w.shared.recvIo, w.shared.recvReady,
          w.shared.sendIo, w.shared.sendReady)) =
      some (1, 1, 1, 0, 1, 0) := by rfl
  obtain ⟨w₀, hw₀, hall⟩ := Option.map_eq_some_iff.1 hmap
  rw [hw₀] at hmapQ
  simp only [Option.map_some, Option.some.injEq, Prod.mk.injEq] at hall hmapQ
  obtain ⟨hthreads, hid, hconnect, hcount, hsending, htickets, htaken⟩ := hall
  obtain ⟨hhead, htail, hrecvIo, hrecvReady, hsendIo, hsendReady⟩ := hmapQ
  have hempty : Holds w₀.shared.sendQ [] 1 := by
    have hrun : Runs (Slot.step 0) Sends (World.initial 3) w₀ := runs_of_exec hw₀ (by decide)
    obtain ⟨-, ho, -⟩ := Ledger.run hrun
    have hidle : (queue w₀).total Access.takes = 0 := by
      simp only [queue, Pool.total, hthreads]
      rfl
    have hunused := ho.unused hidle (by rw [htaken, htickets]; rfl)
    refine ⟨hhead, htail, Nat.zero_le _, fun j x hx => by simp at hx, fun j _ hj => ?_⟩
    rw [← cell_ofNat (k := 9) (by omega)]
    exact hunused _
  have hidle : w₀.threads[2]? = some .idle := by
    rw [hthreads]
    rfl
  have hcount' : 0 < w₀.shared.refCount ∧ w₀.shared.refCount + 1 < RELEASE_FLAG ∧
      w₀.shared.refCount + 2 < RELEASE_FLAG := by
    rw [hcount]
    decide
  obtain ⟨es₁, q, hfill, hq⟩ : ∃ es q, exec (Slot.step 0) w₀ es = some ⟨{ w₀.shared with
        sendQ := q, tickets := w₀.shared.tickets ++ List.replicate MAX_SEND_COUNT 8 },
        w₀.threads⟩ ∧ Holds q ([] ++ List.replicate MAX_SEND_COUNT 8) 1 :=
    fill_exec hempty (Nat.zero_add _).le hidle hid hconnect hcount'.1 hcount'.2.1 hsending
  obtain ⟨es₂, w₂, hrefuse, hthreads₂, hq₂, hcount₂, hrecv₂, hsend₂⟩ := refuse_exec 0
    (w := ⟨{ w₀.shared with
      sendQ := q, tickets := w₀.shared.tickets ++ List.replicate MAX_SEND_COUNT 8 }, w₀.threads⟩)
    (b := 9) hq (by rw [List.nil_append, List.length_replicate]) hidle hid hcount'.1 hcount'.2.2
  obtain ⟨es₃, w₃, hreset, hthreads₃, hsize⟩ := reset_exec 0 (w := w₂) (i := 0) hq₂
    (by rw [hthreads₂]; exact congrArg (·[0]?) hthreads) (hcount₂.trans hcount)
    (by rw [hrecv₂]; simp [hrecvIo, hrecvReady]) (by rw [hsend₂]; simp [hsendIo, hsendReady])
  refine ⟨acceptAndStall ++ (es₁ ++ (es₂ ++ es₃)), w₃,
    exec_append hw₀ (exec_append hfill (exec_append hrefuse hreset)), ?_, hsize⟩
  rw [hthreads₃, hthreads₂]
  exact congrArg (·.set 0 .releaseFreeIndex) hthreads

end Slot

end NetLib
