import NetLib.Library.Lifecycle
import NetLib.Slot.Model
/-!
# Who holds which references of a slot

Every program point holds a number of references on the slot, some of them
known to be on the open incarnation. Summed over the threads and with the
operations the kernel holds, the weights make the slot a `Lifecycle.Life`,
and each action of the code one of its steps.
-/

namespace NetLib

namespace Slot

open Lifecycle

variable {Buf : Type}

/-! ## What a program point holds -/

/-- References kept by the callers of `Release`. -/
def After.refs : After → ℕ
  | .done => 0
  | .canSend _ => 1
  | .release _ => 1

/-- The reference a caller of `RealSend` keeps. A posted `SendExecutable`
holds none. -/
def Caller.refs : Caller → ℕ
  | .sendExecutable _ => 0
  | _ => 1

def Use.refs : Use Buf → ℕ
  | .disconnect k => k.refs
  | _ => 0

def Drain.refs : Drain Buf → ℕ
  | .realSend c _ => 1 + c.refs
  | .reset _ => 0

/-- References held at a program point. -/
def Pc.refs : Pc Buf → ℕ
  | .idle | .recvRecheck _ | .timeoutRef | .timeoutInc | .acceptIncreaseRef _ | .onDisconnect
  | .releaseFreeIndex | .reset _ | .resetSending _ => 0
  | .find _ use => use.refs
  | .findCheck _ _ use => 1 + use.refs
  | .close _ k | .cancel _ k | .release _ k => 1 + k.refs
  | .releaseCas k | .postRelease k => k.refs
  | .realSend c => c.refs
  | .realSendCheck c _ | .realSendHead c | .realSendTail c _ | .realSendStore c _
  | .wsaSend c _ => 1 + c.refs
  | .deqHead d | .deqLoad d _ | .deqCas d _ | .deqData d _ | .deqClear d _ _ => d.refs
  | _ => 1

/-- Of those, the references that were taken with the flag clear. `Release`
may have been called for any reference; it is counted where it is known to
pin a session. -/
def Pc.pinned : Pc Buf → ℕ
  | .findCheck _ result use => (if RELEASE_FLAG < result then 0 else 1) + use.refs
  | .release pin k => (if pin.isSome then 1 else 0) + k.refs
  | .realSendCheck c result => (if RELEASE_FLAG ≤ result then 0 else 1) + c.refs
  | .acceptSetId _ | .acceptOffFlag => 0
  | pc => pc.refs

/-- A thread that brought the counter to zero. -/
def Pc.zeroed : Pc Buf → ℕ
  | .releaseCas _ => 1
  | _ => 0

/-- A thread that set the flag and is about to call `PostRelease`. -/
def Pc.owed : Pc Buf → ℕ
  | .postRelease _ => 1
  | _ => 0

def Drain.closed : Drain Buf → ℕ
  | .realSend _ _ => 0
  | .reset _ => 1

/-- A thread that works on the slot between its release and its next
opening. -/
def Pc.closed : Pc Buf → ℕ
  | .acceptIncreaseRef _ | .acceptSetId _ | .acceptOffFlag | .onDisconnect | .releaseFreeIndex
  | .reset _ | .resetSending _ => 1
  | .deqHead d | .deqLoad d _ | .deqCas d _ | .deqData d _ | .deqClear d _ _ => d.closed
  | _ => 0

/-- The operations in flight, each with the reference that was taken for it. -/
def io (s : Slot Buf) : ℕ := s.recvIo + s.recvAborted + s.sendIo + s.sendAborted

/-- `CancelIO` drops no operation. -/
theorem cancelIo_io (s : Slot Buf) : s.cancelIo.io = s.io := by
  simp only [io, cancelIo]
  omega

/-- The counts of the slot and one thread. -/
def share (s : Slot Buf) (pc : Pc Buf) : Life SessionID where
  count := s.refCount
  refs := s.io + pc.refs
  pinned := s.io + pc.pinned
  zeroed := pc.zeroed
  owed := pc.owed
  closed := s.releasePosted + s.free + pc.closed
  id := s.sessionId
  opened := s.accepted
  posted := s.posted

/-- The counts of the slot and all its threads. -/
def life (w : World Buf) : Life SessionID where
  count := w.shared.refCount
  refs := w.shared.io + w.total Pc.refs
  pinned := w.shared.io + w.total Pc.pinned
  zeroed := w.total Pc.zeroed
  owed := w.total Pc.owed
  closed := w.shared.releasePosted + w.shared.free + w.total Pc.closed
  id := w.shared.sessionId
  opened := w.shared.accepted
  posted := w.shared.posted

/-- Fewer references on the slot than the flag's bit. -/
def FewRefs (w : World Buf) : Prop := ((life w).refs : ℤ) < RELEASE_FLAG

instance decidableFewRefs (w : World Buf) : Decidable (FewRefs w) :=
  inferInstanceAs (Decidable (_ < _))

/-- Pinned references are among the references. -/
theorem Pc.pinned_le (pc : Pc Buf) : pc.pinned ≤ pc.refs := by
  cases pc <;> simp only [Pc.pinned, Pc.refs] <;> first | omega | (split <;> omega)

/-! ## Each action is a step of the slot's life -/

/-- An action that leaves the counters alone. -/
theorem share_stay {s s' : Slot Buf} {pc pc' : Pc Buf} (hcount : s'.refCount = s.refCount)
    (hid : s'.sessionId = s.sessionId) (hopened : s'.accepted = s.accepted)
    (hposted : s'.posted = s.posted) (hrefs : s'.io + pc'.refs = s.io + pc.refs)
    (hpinned : s'.io + pc'.pinned ≤ s.io + pc.pinned) (hzeroed : pc'.zeroed = pc.zeroed)
    (howed : pc'.owed = pc.owed)
    (hclosed : s'.releasePosted + s'.free + pc'.closed =
      s.releasePosted + s.free + pc.closed) :
    Step RELEASE_FLAG (s.share pc) (s'.share pc') :=
  .stay hcount hrefs hpinned hzeroed howed hclosed hid hopened hposted

@[simp] theorem After.pc_refs (k : After) : (k.pc : Pc Buf).refs = k.refs := by cases k <;> rfl

@[simp] theorem After.pc_zeroed (k : After) : (k.pc : Pc Buf).zeroed = 0 := by cases k <;> rfl

@[simp] theorem After.pc_owed (k : After) : (k.pc : Pc Buf).owed = 0 := by cases k <;> rfl

@[simp] theorem After.pc_closed (k : After) : (k.pc : Pc Buf).closed = 0 := by cases k <;> rfl

theorem After.pc_pinned (k : After) : (k.pc : Pc Buf).pinned ≤ k.refs := by
  simpa using (k.pc : Pc Buf).pinned_le

/-- An action that leaves the slot alone and comes to a point of the same
weights. -/
theorem share_skip {s : Slot Buf} {pc pc' : Pc Buf} (hrefs : pc'.refs = pc.refs)
    (hpinned : pc'.pinned ≤ pc.pinned) (hzeroed : pc'.zeroed = pc.zeroed)
    (howed : pc'.owed = pc.owed) (hclosed : pc'.closed = pc.closed) :
    Step RELEASE_FLAG (s.share pc) (s.share pc') :=
  share_stay rfl rfl rfl rfl (by omega) (by omega) hzeroed howed (by omega)

theorem Use.failed_refs (use : Use Buf) : use.failed.refs = use.refs := by cases use <;> rfl

theorem Use.found_refs (id : SessionID) (use : Use Buf) :
    (use.found id).refs = 1 + use.refs := by cases use <;> rfl

/-- `FindSession`, `Close` and `Release`. -/
theorem nextRef_share {s s' : Slot Buf} {pc pc' : Pc Buf} (h : nextRef s pc = some (s', pc')) :
    Step RELEASE_FLAG (s.share pc) (s'.share pc') := by
  cases pc <;> simp only [nextRef, Option.some.injEq, Prod.mk.injEq, reduceCtorEq] at h
  case find id use =>
    obtain ⟨rfl, rfl⟩ := h
    refine .take rfl ?_ ?_ rfl rfl rfl rfl rfl rfl
    · change s.io + (1 + use.refs) = s.io + use.refs + 1
      omega
    · change s.io + ((if RELEASE_FLAG < s.refCount + 1 then 0 else 1) + use.refs) ≤
          s.io + use.refs ∨
        s.io + ((if RELEASE_FLAG < s.refCount + 1 then 0 else 1) + use.refs) =
          s.io + use.refs + 1 ∧ s.refCount + 1 ≤ RELEASE_FLAG
      split <;> omega
  case findCheck id result use =>
    split at h <;> obtain ⟨rfl, rfl⟩ := h
    · refine share_skip ?_ ?_ rfl rfl rfl
      · change 1 + use.failed.refs = 1 + use.refs
        rw [use.failed_refs]
      · change 0 + use.failed.refs ≤ _ + use.refs
        rw [use.failed_refs]; omega
    · rename_i hok
      refine share_skip (use.found_refs id) ?_ ?_ ?_ ?_
      · refine (Pc.pinned_le _).trans ?_
        change (use.found id).refs ≤ (if RELEASE_FLAG < result then 0 else 1) + use.refs
        rw [use.found_refs, if_neg (by tauto)]
      all_goals cases use <;> rfl
  case holding id =>
    obtain ⟨rfl, rfl⟩ := h
    exact share_skip rfl le_rfl rfl rfl rfl
  case close id k =>
    obtain ⟨rfl, rfl⟩ := h
    exact share_stay rfl rfl rfl rfl rfl le_rfl rfl rfl rfl
  case cancel id k =>
    obtain ⟨rfl, rfl⟩ := h
    have hio := s.cancelIo_io
    exact share_stay rfl rfl rfl rfl (congrArg (· + (1 + k.refs)) hio)
      (Nat.add_le_add_right hio.le (1 + k.refs)) rfl rfl rfl
  case release found k =>
    obtain ⟨rfl, rfl⟩ := h
    split <;> rename_i hz
    · refine .give rfl ?_ ?_ (fun _ => rfl) (fun h1 => ?_) rfl rfl rfl rfl rfl
      · change s.io + k.refs + 1 = s.io + (1 + k.refs)
        omega
      · change s.io + k.refs ≤ s.io + (_ + k.refs)
        omega
      · change s.refCount ≠ 1 at h1
        omega
    · refine .give rfl ?_ ?_ (fun h1 => ?_) (fun _ => ?_) ?_ ?_ rfl rfl rfl
      · change s.io + (k.pc : Pc Buf).refs + 1 = s.io + (1 + k.refs)
        rw [k.pc_refs]; omega
      · change s.io + (k.pc : Pc Buf).pinned ≤ s.io + (_ + k.refs)
        have : (k.pc : Pc Buf).pinned ≤ k.refs := k.pc_pinned
        omega
      · change s.refCount = 1 at h1
        omega
      · exact k.pc_zeroed
      · exact k.pc_owed
      · exact congrArg (s.releasePosted + s.free + ·) k.pc_closed
  case releaseCas k =>
    split at h <;> rename_i hz <;> obtain ⟨rfl, rfl⟩ := h
    · exact .win hz rfl rfl le_rfl rfl rfl rfl rfl rfl rfl
    · refine .lose hz rfl ?_ ?_ ?_ ?_ ?_ rfl rfl rfl
      · exact congrArg (s.io + ·) k.pc_refs
      · exact Nat.add_le_add_left k.pc_pinned _
      · exact congrArg (· + 1) k.pc_zeroed
      · exact k.pc_owed
      · exact congrArg (s.releasePosted + s.free + ·) k.pc_closed
  case postRelease k =>
    obtain ⟨rfl, rfl⟩ := h
    refine .post rfl ?_ ?_ ?_ ?_ ?_ rfl rfl rfl
    · exact congrArg (s.io + ·) k.pc_refs
    · exact Nat.add_le_add_left k.pc_pinned _
    · exact k.pc_zeroed
    · exact congrArg (· + 1) k.pc_owed
    · change s.releasePosted + 1 + s.free + (k.pc : Pc Buf).closed =
        s.releasePosted + s.free + 0 + 1
      rw [k.pc_closed]; omega

theorem Sender.canSend_share {s : Slot Buf} {c : Sender} {pc : Pc Buf} (hrefs : pc.refs = 1)
    (hpinned : pc.pinned = 1) (hzeroed : pc.zeroed = 0) (howed : pc.owed = 0)
    (hclosed : pc.closed = 0) : Step RELEASE_FLAG (s.share pc) (s.share c.canSend) := by
  cases c <;> exact share_skip hrefs.symm hpinned.ge hzeroed.symm howed.symm hclosed.symm

theorem Sender.release_share {s : Slot Buf} {c : Sender} {pc : Pc Buf} (hrefs : pc.refs = 1)
    (hpinned : pc.pinned = 1) (hzeroed : pc.zeroed = 0) (howed : pc.owed = 0)
    (hclosed : pc.closed = 0) : Step RELEASE_FLAG (s.share pc) (s.share c.release) := by
  refine share_skip hrefs.symm ?_ hzeroed.symm howed.symm hclosed.symm
  rw [hpinned]
  simp [Sender.release, Pc.pinned, After.refs]

/-- `_sendQ.Enqueue` and `CanSend`: the caller's reference stays. -/
theorem nextSend_share {s s' : Slot Buf} {pc pc' : Pc Buf} (h : nextSend s pc = some (s', pc')) :
    Step RELEASE_FLAG (s.share pc) (s'.share pc') := by
  cases pc <;> simp only [nextSend, Option.some.injEq, Prod.mk.injEq, reduceCtorEq] at h
  case enqLoad tail b c =>
    split at h <;> obtain ⟨rfl, rfl⟩ := h <;> exact share_skip rfl le_rfl rfl rfl rfl
  case enqPublish tail b c =>
    split at h
    · cases h
    · obtain ⟨rfl, rfl⟩ := Option.some.inj h
      exact share_stay rfl rfl rfl rfl rfl le_rfl rfl rfl rfl
  case canConnect c =>
    obtain ⟨rfl, rfl⟩ := h
    split
    · exact share_skip rfl le_rfl rfl rfl rfl
    · exact Sender.release_share rfl rfl rfl rfl rfl
  case canRef c =>
    obtain ⟨rfl, rfl⟩ := h
    split
    · exact Sender.release_share rfl rfl rfl rfl rfl
    · exact share_skip rfl le_rfl rfl rfl rfl
  case canTail c first head =>
    cases first <;> simp only [Bool.false_eq_true, if_true, if_false] at h <;> split at h <;>
      obtain ⟨rfl, rfl⟩ := h
    · exact share_skip rfl le_rfl rfl rfl rfl
    · exact Sender.canSend_share rfl rfl rfl rfl rfl
    · exact Sender.release_share rfl rfl rfl rfl rfl
    · exact share_skip rfl le_rfl rfl rfl rfl
  case canExchange c =>
    split at h <;> obtain ⟨rfl, rfl⟩ := h
    · exact Sender.release_share rfl rfl rfl rfl rfl
    · exact share_stay rfl rfl rfl rfl rfl le_rfl rfl rfl rfl
  case enqTicket | enqPut | enqFull | canHead | canClear | postSendExecutable =>
    obtain ⟨rfl, rfl⟩ := h
    exact share_stay rfl rfl rfl rfl rfl le_rfl rfl rfl rfl

theorem Caller.after_refs (c : Caller) : c.after.refs = c.refs := by cases c <;> rfl

/-- `RealSend`, `Dequeue` and `PostSendExecutable::Execute`. -/
theorem nextRealSend_share {s s' : Slot Buf} {pc pc' : Pc Buf} {e : Event Buf}
    (h : nextRealSend s pc e = some (s', pc')) :
    Step RELEASE_FLAG (s.share pc) (s'.share pc') := by
  cases pc <;> simp only [nextRealSend, Option.some.injEq, Prod.mk.injEq, reduceCtorEq] at h
  case realSend c =>
    obtain ⟨rfl, rfl⟩ := h
    refine .take rfl ?_ ?_ rfl rfl rfl rfl rfl rfl
    · change s.io + (1 + c.refs) = s.io + c.refs + 1
      omega
    · change s.io + ((if RELEASE_FLAG ≤ s.refCount + 1 then 0 else 1) + c.refs) ≤ s.io + c.refs ∨
        s.io + ((if RELEASE_FLAG ≤ s.refCount + 1 then 0 else 1) + c.refs) =
          s.io + c.refs + 1 ∧ s.refCount + 1 ≤ RELEASE_FLAG
      split <;> omega
  case realSendCheck c result =>
    obtain ⟨rfl, rfl⟩ := h
    split
    · refine share_skip ?_ ?_ rfl rfl rfl
      · change 1 + c.after.refs = 1 + c.refs
        rw [c.after_refs]
      · change 0 + c.after.refs ≤ _ + c.refs
        rw [c.after_refs]; omega
    · rename_i hok
      refine share_skip rfl ?_ rfl rfl rfl
      change 1 + c.refs ≤ (if RELEASE_FLAG ≤ result then 0 else 1) + c.refs
      rw [if_neg hok]
  case realSendHead | realSendStore | deqHead | deqData =>
    obtain ⟨rfl, rfl⟩ := h
    exact share_stay rfl rfl rfl rfl rfl le_rfl rfl rfl rfl
  case realSendTail c head =>
    split at h
    · cases h
    · obtain ⟨rfl, rfl⟩ := Option.some.inj h
      exact share_skip rfl le_rfl rfl rfl rfl
  case wsaSend c bufs =>
    cases e <;> simp only [reduceCtorEq] at h
    split at h <;> obtain ⟨rfl, rfl⟩ := Option.some.inj h
    · refine share_stay rfl rfl rfl rfl ?_ ?_ rfl rfl rfl
      · change s.io + (1 + c.after.refs) = s.io + (1 + c.refs)
        rw [c.after_refs]
      · change s.io + (0 + c.after.refs) ≤ s.io + (1 + c.refs)
        rw [c.after_refs]; omega
    · have hrefs : s.recvIo + s.recvAborted + (s.sendIo + 1) + s.sendAborted +
          (c.after.pc : Pc Buf).refs =
          s.recvIo + s.recvAborted + s.sendIo + s.sendAborted + (1 + c.refs) := by
        rw [After.pc_refs, c.after_refs]; omega
      refine share_stay rfl rfl rfl rfl hrefs ?_ ?_ ?_ ?_
      · exact (Nat.add_le_add_left (Pc.pinned_le _) _).trans hrefs.le
      · exact c.after.pc_zeroed
      · exact c.after.pc_owed
      · exact congrArg (s.releasePosted + s.free + ·) c.after.pc_closed
  case deqLoad d head =>
    obtain ⟨rfl, rfl⟩ := h
    split
    · exact share_skip rfl le_rfl rfl rfl rfl
    · rcases d with ⟨c, _ | _⟩ | r <;> exact share_skip rfl le_rfl rfl rfl rfl
  case deqCas d head =>
    split at h <;> obtain ⟨rfl, rfl⟩ := h <;>
      exact share_stay rfl rfl rfl rfl rfl le_rfl rfl rfl rfl
  case deqClear d head b =>
    split at h
    · cases d <;> obtain ⟨rfl, rfl⟩ := Option.some.inj h
      · split <;> exact share_stay rfl rfl rfl rfl rfl le_rfl rfl rfl rfl
      · exact share_stay rfl rfl rfl rfl rfl le_rfl rfl rfl rfl
    · cases h
  case postSendRelease i =>
    split at h
    · obtain ⟨b, -, hb⟩ := Option.map_eq_some_iff.1 h
      obtain ⟨rfl, rfl⟩ := hb
      exact share_stay rfl rfl rfl rfl rfl le_rfl rfl rfl rfl
    · obtain ⟨rfl, rfl⟩ := Option.some.inj h
      exact share_stay rfl rfl rfl rfl rfl le_rfl rfl rfl rfl
  case postSendClear =>
    obtain ⟨rfl, rfl⟩ := h
    exact share_stay rfl rfl rfl rfl rfl le_rfl rfl rfl rfl

/-- Below the next power of two, clearing bit 20 takes the flag away. -/
theorem bitTestAndReset20_of_flag {n : ℤ} (h : RELEASE_FLAG ≤ n) (h' : n < 2 * RELEASE_FLAG) :
    bitTestAndReset20 n = n - RELEASE_FLAG := by
  unfold bitTestAndReset20 RELEASE_FLAG at *
  rw [if_pos (by omega)]

/-- Receives, time-outs, accepts and releases. The slot index a release
gives back is the slot's own. -/
theorem nextLife_share {index : ℕ} {s s' : Slot Buf} {pc pc' : Pc Buf} {e : Event Buf}
    (h : nextLife index s pc e = some (s', pc'))
    (hindex : pc = .releaseFreeIndex → s.sessionId.index = index) :
    Step RELEASE_FLAG (s.share pc) (s'.share pc') := by
  cases pc <;> simp only [nextLife, Option.some.injEq, Prod.mk.injEq, reduceCtorEq] at h
  case recvExecute =>
    cases e <;> simp only [reduceCtorEq] at h <;> obtain ⟨rfl, rfl⟩ := Option.some.inj h <;>
      exact share_stay rfl rfl rfl rfl rfl le_rfl rfl rfl rfl
  case recvCancel =>
    obtain ⟨rfl, rfl⟩ := h
    have hio := s.cancelIo_io
    exact share_stay rfl rfl rfl rfl (congrArg (· + 1) hio) (Nat.add_le_add_right hio.le 1)
      rfl rfl rfl
  case recvRef =>
    obtain ⟨rfl, rfl⟩ := h
    split
    · exact share_skip rfl (Nat.zero_le _) rfl rfl rfl
    · exact share_skip rfl le_rfl rfl rfl rfl
  case recvConnect =>
    obtain ⟨rfl, rfl⟩ := h
    split
    · exact share_skip rfl le_rfl rfl rfl rfl
    · exact share_skip rfl (Nat.zero_le _) rfl rfl rfl
  case wsaRecv =>
    have hio : s.recvIo + 1 + s.recvAborted + s.sendIo + s.sendAborted =
        s.recvIo + s.recvAborted + s.sendIo + s.sendAborted + 1 := by omega
    cases e with
    | result r =>
      cases r <;> obtain ⟨rfl, rfl⟩ := Option.some.inj h
      · exact share_stay rfl rfl rfl rfl hio hio.le rfl rfl rfl
      · exact share_stay rfl rfl rfl rfl hio hio.le rfl rfl rfl
      · exact share_skip rfl (Nat.zero_le _) rfl rfl rfl
    | _ => cases h
  case recvRecheck id =>
    obtain ⟨rfl, rfl⟩ := h
    split <;> exact share_skip rfl le_rfl rfl rfl rfl
  case timeoutRef =>
    obtain ⟨rfl, rfl⟩ := h
    split
    · exact share_skip rfl le_rfl rfl rfl rfl
    · exact share_skip rfl le_rfl rfl rfl rfl
  case timeoutInc =>
    obtain ⟨rfl, rfl⟩ := h
    exact .take rfl rfl (.inl le_rfl) rfl rfl rfl rfl rfl rfl
  case acceptIncreaseRef id =>
    obtain ⟨rfl, rfl⟩ := h
    exact .take rfl rfl (.inl le_rfl) rfl rfl rfl rfl rfl rfl
  case acceptSetId id =>
    obtain ⟨rfl, rfl⟩ := h
    exact .rename (Nat.succ_pos _) rfl rfl le_rfl rfl rfl rfl rfl rfl
  case acceptOffFlag =>
    obtain ⟨rfl, rfl⟩ := h
    exact .reopen bitTestAndReset20_of_flag (Nat.succ_pos _) rfl rfl rfl rfl rfl rfl rfl
  case acceptConnect | onDisconnect =>
    obtain ⟨rfl, rfl⟩ := h
    exact share_stay rfl rfl rfl rfl rfl le_rfl rfl rfl rfl
  case releaseFreeIndex =>
    obtain ⟨rfl, rfl⟩ := h
    refine share_stay rfl rfl rfl rfl rfl le_rfl rfl rfl ?_
    change s.releasePosted + (s.free + if s.sessionId.index = index then 1 else 0) + 0 =
      s.releasePosted + s.free + 1
    rw [if_pos (hindex rfl)]; omega
  case reset r =>
    obtain ⟨rfl, rfl⟩ := h
    exact share_stay rfl rfl rfl rfl rfl le_rfl rfl rfl rfl
  case resetSending r =>
    obtain ⟨rfl, rfl⟩ := h
    cases r <;> exact share_stay rfl rfl rfl rfl rfl le_rfl rfl rfl rfl

/-- What an idle thread starts takes over the reference of a completion. -/
theorem start_share {index : ℕ} {s s' : Slot Buf} {pc' : Pc Buf} {e : Event Buf}
    (h : start index s e = some (s', pc')) :
    Step RELEASE_FLAG (s.share .idle) (s'.share pc') := by
  cases e <;> simp only [start, Option.some.injEq, Prod.mk.injEq, reduceCtorEq,
    Option.ite_none_right_eq_some] at h
  case hold | disconnect | sendPacket | sendPacketBlocking | timeout =>
    obtain ⟨rfl, rfl⟩ := h
    exact share_skip rfl le_rfl rfl rfl rfl
  case recvReady | sendReady =>
    obtain ⟨-, rfl, rfl⟩ := h
    exact share_stay rfl rfl rfl rfl rfl le_rfl rfl rfl rfl
  case recvDone | recvFailed | recvAborted | sendDone | sendFailed | sendAborted =>
    obtain ⟨hpos, rfl, rfl⟩ := h
    refine share_stay rfl rfl rfl rfl ?_ ?_ rfl rfl rfl <;>
      simp [io, Pc.refs, Pc.pinned, After.refs] <;> omega
  case sendExecutable =>
    split at h
    · cases h
    · obtain ⟨rfl, rfl⟩ := Option.some.inj h
      exact share_stay rfl rfl rfl rfl rfl le_rfl rfl rfl rfl
  case releaseExecutable =>
    obtain ⟨hpos, rfl, rfl⟩ := h
    refine share_stay rfl rfl rfl rfl rfl le_rfl rfl rfl ?_
    simp only [Pc.closed]; omega
  case accept others =>
    obtain ⟨hpos, rfl, rfl⟩ := h
    refine share_stay rfl rfl rfl rfl rfl le_rfl rfl rfl ?_
    simp only [Pc.closed]; omega

/-- **Each action is a step of the slot's life**, as seen from the thread
that takes it. -/
theorem next_share {index : ℕ} {s s' : Slot Buf} {pc pc' : Pc Buf} {e : Event Buf}
    (h : next index s pc e = some (s', pc'))
    (hindex : pc = .releaseFreeIndex → s.sessionId.index = index) :
    Step RELEASE_FLAG (s.share pc) (s'.share pc') := by
  unfold next at h
  split at h
  · exact start_share h
  all_goals first
    | exact nextRef_share h | exact nextSend_share h | exact nextRealSend_share h
    | exact nextLife_share h hindex

/-- The counts of all threads are those of one and what the others add. -/
theorem life_eq_add {w : World Buf} {pc : Pc Buf} {r p z o cl : ℕ}
    (hr : w.total Pc.refs = pc.refs + r) (hp : w.total Pc.pinned = pc.pinned + p)
    (hz : w.total Pc.zeroed = pc.zeroed + z) (ho : w.total Pc.owed = pc.owed + o)
    (hcl : w.total Pc.closed = pc.closed + cl) :
    life w = (w.shared.share pc).add r p z o cl := by
  simp only [life, share, Life.add, hr, hp, hz, ho, hcl, Nat.add_assoc]

/-- **And as seen from the whole pool.** -/
theorem life_step {index : ℕ} {w w' : World Buf} {e : ℕ × Event Buf}
    (h : step index w e = some w')
    (hindex : Pc.releaseFreeIndex ∈ w.threads → w.shared.sessionId.index = index) :
    Step RELEASE_FLAG (life w) (life w') := by
  obtain ⟨pc, pc', hpc, hnext, ht⟩ := Pool.step_eq_some h
  have hmem := List.mem_of_getElem? hpc
  have hle (f : Pc Buf → ℕ) := Pool.le_total f hmem
  have hmove (f : Pc Buf → ℕ) := Pool.total_step f hpc ht
  have hsplit (f : Pc Buf → ℕ) : w.total f = f pc + (w.total f - f pc) ∧
      w'.total f = f pc' + (w.total f - f pc) := by
    have := hle f
    have := hmove f
    omega
  rw [life_eq_add (hsplit _).1 (hsplit _).1 (hsplit _).1 (hsplit _).1 (hsplit _).1,
    life_eq_add (hsplit _).2 (hsplit _).2 (hsplit _).2 (hsplit _).2 (hsplit _).2]
  exact (next_share hnext fun hfree => hindex (hfree ▸ hmem)).frame _ _ _ _ _

end Slot

end NetLib
