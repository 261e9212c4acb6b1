import NetLib.Slot.SendQueue
/-!
# Who owns the sending of a slot

`CanSend` sets `_isSending` for one caller; the right to send then passes
from hand to hand, through the posted `SendExecutable`, `RealSend` and the
completion of `WSASend`, until `PostSendExecutable` clears the flag. The
hands are counted, and while a session is open there is at most one.
-/

namespace NetLib

namespace Slot

open Lifecycle LockFreeFixedQueue

variable {Buf : Type} {index : ℕ}

/-! ## The hands -/

def Drain.owns : Drain Buf → ℕ
  | .realSend _ _ => 1
  | .reset _ => 0

/-- Does the thread hold the right to send? -/
def Pc.owns : Pc Buf → ℕ
  | .canHead _ first | .canTail _ first _ => if first then 0 else 1
  | .realSendCheck _ result => if RELEASE_FLAG ≤ result then 0 else 1
  | .deqHead d | .deqLoad d _ | .deqCas d _ | .deqData d _ | .deqClear d _ _ => d.owns
  | .canClear _ | .postSendExecutable _ | .realSend _ | .realSendHead _ | .realSendTail _ _
  | .realSendStore _ _ | .wsaSend _ _ | .postSendRelease _ | .postSendClear => 1
  | _ => 0

/-- A worker with a `SendExecutable`, before `IncreaseRef`. -/
def Pc.unpinned : Pc Buf → Bool
  | .realSend (.sendExecutable _) => true
  | _ => false

/-- Hands outside the threads: posted, or with the kernel. -/
def inFlight (s : Slot Buf) : ℕ := s.sendPosted.length + s.sendIo + s.sendAborted

/-- `CancelIO` takes no send out of flight. -/
theorem cancelIo_inFlight (s : Slot Buf) : s.cancelIo.inFlight = s.inFlight := by
  simp only [inFlight, cancelIo]
  omega

/-- All hands. -/
def owners (w : World Buf) : ℕ := w.total Pc.owns + w.shared.inFlight

/-- What an action does to the flag and the hands. -/
inductive Passing (s : Slot Buf) (pc : Pc Buf) (s' : Slot Buf) (pc' : Pc Buf) : Prop
  | keep (hflag : s'.isSending = s.isSending)
      (hle : pc'.owns + s'.inFlight ≤ pc.owns + s.inFlight)
  /-- `CanSend`, `_isSending.exchange(true)` -/
  | set (hold : s.isSending = false) (hflag : s'.isSending = true)
      (hle : pc'.owns + s'.inFlight ≤ pc.owns + s.inFlight + 1) (hpin : 0 < pc.pinned)
  | clear (hle : pc'.owns + s'.inFlight + 1 ≤ pc.owns + s.inFlight)
  /-- `Reset` -/
  | reset (hstage : pc.stage ≠ .outside) (hle : pc'.owns + s'.inFlight ≤ pc.owns + s.inFlight)

@[simp] theorem After.pc_owns (k : After) : (k.pc : Pc Buf).owns = 0 := by cases k <;> rfl

@[simp] theorem Use.found_owns (id : SessionID) (use : Use Buf) : (use.found id).owns = 0 := by
  cases use <;> rfl

@[simp] theorem Sender.canSend_owns (c : Sender) : (c.canSend : Pc Buf).owns = 1 := by
  cases c <;> rfl

@[simp] theorem Drain.empty_owns (d : Drain Buf) : d.empty.owns = d.owns := by
  rcases d with ⟨c, _ | _⟩ | r <;> rfl

theorem nextRef_passing {s s' : Slot Buf} {pc pc' : Pc Buf} (h : nextRef s pc = some (s', pc')) :
    Passing s pc s' pc' := by
  cases pc <;> simp only [nextRef, Option.some.injEq, Prod.mk.injEq, reduceCtorEq] at h
  case findCheck id result use =>
    split at h <;> obtain ⟨rfl, rfl⟩ := h
    · exact .keep rfl le_rfl
    · exact .keep rfl (Nat.add_le_add_right ((use.found_owns id).trans_le (Nat.zero_le _)) _)
  case cancel id k =>
    obtain ⟨rfl, rfl⟩ := h
    exact .keep rfl (Nat.add_le_add_left s.cancelIo_inFlight.le 0)
  case release pin k =>
    obtain ⟨rfl, rfl⟩ := h
    refine .keep rfl ?_
    split
    · exact le_rfl
    · rw [k.pc_owns]; exact le_rfl
  case releaseCas k =>
    split at h <;> obtain ⟨rfl, rfl⟩ := h
    · exact .keep rfl le_rfl
    · exact .keep rfl (by rw [k.pc_owns]; exact le_rfl)
  case postRelease k =>
    obtain ⟨rfl, rfl⟩ := h
    exact .keep rfl (by rw [k.pc_owns]; exact le_rfl)
  case find | holding | close =>
    obtain ⟨rfl, rfl⟩ := h
    exact .keep rfl le_rfl

theorem nextSend_passing {s s' : Slot Buf} {pc pc' : Pc Buf} (h : nextSend s pc = some (s', pc')) :
    Passing s pc s' pc' := by
  cases pc <;> simp only [nextSend, Option.some.injEq, Prod.mk.injEq, reduceCtorEq] at h
  case enqLoad =>
    split at h <;> obtain ⟨rfl, rfl⟩ := h <;> exact .keep rfl le_rfl
  case enqPublish =>
    split at h
    · cases h
    · obtain ⟨rfl, rfl⟩ := Option.some.inj h
      exact .keep rfl le_rfl
  case canConnect | canRef =>
    obtain ⟨rfl, rfl⟩ := h
    split <;> exact .keep rfl le_rfl
  case canTail c first head =>
    split at h <;> obtain ⟨rfl, rfl⟩ := h <;> refine .keep rfl ?_ <;> cases first
    · exact le_rfl
    · exact le_rfl
    · exact Nat.add_le_add_right c.canSend_owns.le _
    · exact le_rfl
  case canExchange =>
    split at h <;> rename_i hs <;> obtain ⟨rfl, rfl⟩ := h
    · exact .keep rfl le_rfl
    · refine .set (Bool.eq_false_of_not_eq_true hs) rfl ?_ Nat.one_pos
      simp only [Pc.owns, inFlight, Bool.false_eq_true, if_false]
      omega
  case canClear =>
    obtain ⟨rfl, rfl⟩ := h
    refine .clear ?_
    simp only [Pc.owns, inFlight]
    omega
  case postSendExecutable id =>
    obtain ⟨rfl, rfl⟩ := h
    refine .keep rfl ?_
    simp only [Pc.owns, inFlight, List.length_append, List.length_singleton]
    omega
  case enqTicket | enqPut | enqFull | canHead =>
    obtain ⟨rfl, rfl⟩ := h
    exact .keep rfl le_rfl

theorem nextRealSend_passing {s s' : Slot Buf} {pc pc' : Pc Buf} {e : Event Buf}
    (h : nextRealSend s pc e = some (s', pc')) : Passing s pc s' pc' := by
  cases pc <;> simp only [nextRealSend, Option.some.injEq, Prod.mk.injEq, reduceCtorEq] at h
  case realSend c =>
    obtain ⟨rfl, rfl⟩ := h
    refine .keep rfl (Nat.add_le_add_right ?_ _)
    simp only [Pc.owns]
    split <;> omega
  case realSendCheck c result =>
    obtain ⟨rfl, rfl⟩ := h
    refine .keep rfl (Nat.add_le_add_right ?_ _)
    by_cases hr : RELEASE_FLAG ≤ result <;> simp [Pc.owns, hr]
  case realSendTail =>
    split at h
    · cases h
    · obtain ⟨rfl, rfl⟩ := Option.some.inj h
      exact .keep rfl le_rfl
  case wsaSend c bufs =>
    cases e <;> simp only [reduceCtorEq] at h
    split at h <;> obtain ⟨rfl, rfl⟩ := Option.some.inj h
    · exact .keep rfl (by simp only [Pc.owns, inFlight]; omega)
    · refine .keep rfl ?_
      rw [c.after.pc_owns]
      simp only [Pc.owns, inFlight]
      omega
  case deqLoad d head =>
    obtain ⟨rfl, rfl⟩ := h
    refine .keep rfl (Nat.add_le_add_right ?_ _)
    split
    · exact le_rfl
    · rw [d.empty_owns]; exact le_rfl
  case deqCas d head =>
    split at h <;> obtain ⟨rfl, rfl⟩ := h <;> exact .keep rfl le_rfl
  case deqClear d head b =>
    split at h
    · cases d <;> obtain ⟨rfl, rfl⟩ := Option.some.inj h
      · split <;> exact .keep rfl le_rfl
      · exact .keep rfl le_rfl
    · cases h
  case postSendRelease i =>
    split at h
    · obtain ⟨b, -, hb⟩ := Option.map_eq_some_iff.1 h
      obtain ⟨rfl, rfl⟩ := hb
      exact .keep rfl le_rfl
    · obtain ⟨rfl, rfl⟩ := Option.some.inj h
      exact .keep rfl le_rfl
  case postSendClear =>
    obtain ⟨rfl, rfl⟩ := h
    refine .clear ?_
    simp only [Pc.owns, inFlight]
    omega
  case realSendHead | realSendStore | deqHead | deqData =>
    obtain ⟨rfl, rfl⟩ := h
    exact .keep rfl le_rfl

theorem nextLife_passing {s s' : Slot Buf} {pc pc' : Pc Buf} {e : Event Buf}
    (h : nextLife index s pc e = some (s', pc')) : Passing s pc s' pc' := by
  cases pc <;> simp only [nextLife, Option.some.injEq, Prod.mk.injEq, reduceCtorEq] at h
  case recvExecute =>
    cases e <;> simp only [reduceCtorEq] at h <;> obtain ⟨rfl, rfl⟩ := Option.some.inj h <;>
      exact .keep rfl le_rfl
  case recvCancel =>
    obtain ⟨rfl, rfl⟩ := h
    exact .keep rfl (Nat.add_le_add_left s.cancelIo_inFlight.le 0)
  case recvRef | recvConnect | recvRecheck | timeoutRef =>
    obtain ⟨rfl, rfl⟩ := h
    split <;> exact .keep rfl le_rfl
  case wsaRecv =>
    cases e with
    | result r => cases r <;> obtain ⟨rfl, rfl⟩ := Option.some.inj h <;> exact .keep rfl le_rfl
    | _ => cases h
  case reset r =>
    obtain ⟨rfl, rfl⟩ := h
    exact .reset (by cases r <;> simp [Pc.stage, Resetter.stage]) le_rfl
  case resetSending r =>
    obtain ⟨rfl, rfl⟩ := h
    cases r <;> exact .keep rfl le_rfl
  case acceptSetId | acceptOffFlag | timeoutInc | acceptIncreaseRef | acceptConnect | onDisconnect |
      releaseFreeIndex =>
    obtain ⟨rfl, rfl⟩ := h
    exact .keep rfl le_rfl

theorem start_passing {s s' : Slot Buf} {pc' : Pc Buf} {e : Event Buf}
    (h : start index s e = some (s', pc')) : Passing s .idle s' pc' := by
  cases e <;> simp only [start, Option.some.injEq, Prod.mk.injEq, reduceCtorEq,
    Option.ite_none_right_eq_some] at h
  case hold | disconnect | sendPacket | sendPacketBlocking | timeout =>
    obtain ⟨rfl, rfl⟩ := h
    exact .keep rfl le_rfl
  case sendExecutable =>
    split at h
    · cases h
    · rename_i hp
      obtain ⟨rfl, rfl⟩ := Option.some.inj h
      refine .keep rfl ?_
      simp only [Pc.owns, inFlight, hp, List.length_cons]
      omega
  case sendDone | sendFailed | sendAborted =>
    obtain ⟨hpos, rfl, rfl⟩ := h
    refine .keep rfl ?_
    simp only [Pc.owns, inFlight]
    omega
  case releaseExecutable | accept | recvReady | sendReady | recvDone | recvFailed | recvAborted =>
    obtain ⟨hpos, rfl, rfl⟩ := h
    exact .keep rfl le_rfl

theorem next_passing {s s' : Slot Buf} {pc pc' : Pc Buf} {e : Event Buf}
    (h : next index s pc e = some (s', pc')) : Passing s pc s' pc' := by
  unfold next at h
  split at h
  · exact start_passing h
  all_goals first
    | exact nextRef_passing h | exact nextSend_passing h | exact nextRealSend_passing h
    | exact nextLife_passing h

/-! ## Sessions and tickets along the way -/

/-- The session a posted `SendExecutable` is for. -/
def Caller.postedFor : Caller → List SessionID
  | .sendExecutable id => [id]
  | _ => []

def Drain.postedFor : Drain Buf → List SessionID
  | .realSend c _ => c.postedFor
  | .reset _ => []

/-- The session whose posted `SendExecutable` the thread executes. -/
def Pc.postedFor : Pc Buf → List SessionID
  | .realSendCheck c result => if RELEASE_FLAG ≤ result then [] else c.postedFor
  | .realSend c | .realSendHead c | .realSendTail c _ | .realSendStore c _ | .wsaSend c _ =>
    c.postedFor
  | .deqHead d | .deqLoad d _ | .deqCas d _ | .deqData d _ | .deqClear d _ _ => d.postedFor
  | _ => []

def Drain.ready : Drain Buf → ℕ
  | .realSend _ [] => 1
  | _ => 0

/-- From the answer of `CanSend` to the first buffer taken. -/
def Pc.ready : Pc Buf → ℕ
  | .postSendExecutable _ | .realSend _ | .realSendHead _ | .realSendTail _ _ => 1
  | .realSendCheck _ result => if RELEASE_FLAG ≤ result then 0 else 1
  | .deqHead d | .deqLoad d _ | .deqCas d _ => d.ready
  | _ => 0

/-- The head index that a thread is about to compare with the tail, when
nobody else may move it. -/
def Pc.headRead : Pc Buf → Option (BitVec 32)
  | .canTail _ first head => if first then none else some head
  | .realSendTail _ head => some head
  | _ => none

/-- What an action does to the sessions and the tickets. -/
structure Advance (s : Slot Buf) (pc : Pc Buf) (s' : Slot Buf) (pc' : Pc Buf) : Prop where
  posted : ∀ id, id ∈ s'.sendPosted ∨ id ∈ pc'.postedFor →
    id ∈ s.sendPosted ∨ id ∈ pc.postedFor ∨ id ∈ pc.held
  ready : pc'.ready + s'.sendPosted.length ≤ pc.ready + s.sendPosted.length ∨
    ∃ h, pc.headRead = some h ∧ (s.sendQ.tailIndex - h).toInt ≠ 0
  head : ∀ h, pc'.headRead = some h → h = s.sendQ.headIndex ∧ pc.access = .outside

/-- An action outside the way from `CanSend` to the first buffer. -/
theorem Advance.of_outside {s s' : Slot Buf} {pc pc' : Pc Buf} (hs : s'.sendPosted = s.sendPosted)
    (hfor : pc'.postedFor = []) (hready : pc'.ready = 0) (hhead : pc'.headRead = none) :
    Advance s pc s' pc' where
  posted id hid := by
    rw [hs, hfor] at hid
    simpa using Or.inl (hid.resolve_right List.not_mem_nil)
  ready := .inl (by rw [hs, hready]; omega)
  head h hh := by rw [hhead] at hh; cases hh

/-- An action that stays on it. -/
theorem Advance.of_eq {s s' : Slot Buf} {pc pc' : Pc Buf} (hs : s'.sendPosted = s.sendPosted)
    (hfor : pc'.postedFor = pc.postedFor) (hready : pc'.ready ≤ pc.ready)
    (hhead : pc'.headRead = none) : Advance s pc s' pc' where
  posted id hid := by
    rw [hs, hfor] at hid
    exact hid.imp_right .inl
  ready := .inl (by rw [hs]; omega)
  head h hh := by rw [hhead] at hh; cases hh

theorem nextRef_advance {s s' : Slot Buf} {pc pc' : Pc Buf} (h : nextRef s pc = some (s', pc')) :
    Advance s pc s' pc' := by
  have hk (k : After) : (k.pc : Pc Buf).postedFor = [] ∧ (k.pc : Pc Buf).ready = 0 ∧
      (k.pc : Pc Buf).headRead = none := by cases k <;> exact ⟨rfl, rfl, rfl⟩
  cases pc <;> simp only [nextRef, Option.some.injEq, Prod.mk.injEq, reduceCtorEq] at h
  case findCheck id result use =>
    split at h <;> obtain ⟨rfl, rfl⟩ := h
    · exact .of_outside rfl rfl rfl rfl
    · cases use <;> exact .of_outside rfl rfl rfl rfl
  case release pin k =>
    obtain ⟨rfl, rfl⟩ := h
    split
    · exact .of_outside rfl rfl rfl rfl
    · exact .of_outside rfl (hk k).1 (hk k).2.1 (hk k).2.2
  case releaseCas k =>
    split at h <;> obtain ⟨rfl, rfl⟩ := h
    · exact .of_outside rfl rfl rfl rfl
    · exact .of_outside rfl (hk k).1 (hk k).2.1 (hk k).2.2
  case postRelease k =>
    obtain ⟨rfl, rfl⟩ := h
    exact .of_outside rfl (hk k).1 (hk k).2.1 (hk k).2.2
  case find | holding | close | cancel =>
    obtain ⟨rfl, rfl⟩ := h
    exact .of_outside rfl rfl rfl rfl

theorem nextSend_advance {s s' : Slot Buf} {pc pc' : Pc Buf} (h : nextSend s pc = some (s', pc')) :
    Advance s pc s' pc' := by
  cases pc <;> simp only [nextSend, Option.some.injEq, Prod.mk.injEq, reduceCtorEq] at h
  case enqLoad | canExchange =>
    split at h <;> obtain ⟨rfl, rfl⟩ := h <;> exact .of_outside rfl rfl rfl rfl
  case enqPublish =>
    split at h
    · cases h
    · obtain ⟨rfl, rfl⟩ := Option.some.inj h
      exact .of_outside rfl rfl rfl rfl
  case canConnect | canRef =>
    obtain ⟨rfl, rfl⟩ := h
    split <;> exact .of_outside rfl rfl rfl rfl
  case canHead c first =>
    obtain ⟨rfl, rfl⟩ := h
    cases first
    · refine ⟨fun id hid => ?_, .inl le_rfl, fun h hh => ⟨(Option.some.inj hh).symm, rfl⟩⟩
      exact .inl (hid.resolve_right List.not_mem_nil)
    · exact .of_outside rfl rfl rfl rfl
  case canTail c first head =>
    split at h <;> rename_i hz <;> obtain ⟨rfl, rfl⟩ := h <;> cases first
    · exact .of_outside rfl rfl rfl rfl
    · exact .of_outside rfl rfl rfl rfl
    · -- `CanSend` answers true
      have hc : (c.canSend : Pc Buf).postedFor = [] ∧ (c.canSend : Pc Buf).headRead = none := by
        cases c <;> exact ⟨rfl, rfl⟩
      refine ⟨fun id hid => ?_, .inr ⟨head, rfl, hz⟩, fun h hh => ?_⟩
      · exact .inl (hid.resolve_right fun hid => List.not_mem_nil (hc.1 ▸ hid))
      · exact absurd (hc.2.symm.trans hh) (by simp)
    · exact .of_outside rfl rfl rfl rfl
  case postSendExecutable id =>
    obtain ⟨rfl, rfl⟩ := h
    refine ⟨fun i hi => ?_, .inl ?_, fun h hh => by cases hh⟩
    · rcases List.mem_append.1 (hi.resolve_right List.not_mem_nil) with hi | hi
      · exact .inl hi
      · exact .inr (.inr hi)
    · simp only [Pc.ready, List.length_append, List.length_singleton]
      omega
  case enqTicket | enqPut | enqFull | canClear =>
    obtain ⟨rfl, rfl⟩ := h
    exact .of_outside rfl rfl rfl rfl

theorem nextRealSend_advance {s s' : Slot Buf} {pc pc' : Pc Buf} {e : Event Buf}
    (h : nextRealSend s pc e = some (s', pc')) : Advance s pc s' pc' := by
  cases pc <;> simp only [nextRealSend, Option.some.injEq, Prod.mk.injEq, reduceCtorEq] at h
  case realSend c =>
    obtain ⟨rfl, rfl⟩ := h
    refine ⟨fun id hid => hid.imp_right fun hid => .inl ?_, .inl ?_, fun h hh => by cases hh⟩
    · simp only [Pc.postedFor] at hid ⊢
      split at hid
      · cases hid
      · exact hid
    · simp only [Pc.ready]
      split <;> omega
  case realSendCheck c result =>
    obtain ⟨rfl, rfl⟩ := h
    split
    · exact .of_outside rfl rfl rfl rfl
    · rename_i hr
      refine .of_eq rfl ?_ ?_ rfl
      · simp only [Pc.postedFor, if_neg hr]
      · simp only [Pc.ready, if_neg hr, le_refl]
  case realSendHead c =>
    obtain ⟨rfl, rfl⟩ := h
    exact ⟨fun id hid => hid.imp_right .inl, .inl le_rfl,
      fun h hh => ⟨(Option.some.inj hh).symm, rfl⟩⟩
  case realSendTail =>
    split at h
    · cases h
    · obtain ⟨rfl, rfl⟩ := Option.some.inj h
      exact .of_eq rfl rfl le_rfl rfl
  case wsaSend c bufs =>
    have hk (k : After) : (k.pc : Pc Buf).postedFor = [] ∧ (k.pc : Pc Buf).ready = 0 ∧
        (k.pc : Pc Buf).headRead = none := by cases k <;> exact ⟨rfl, rfl, rfl⟩
    cases e <;> simp only [reduceCtorEq] at h
    split at h <;> obtain ⟨rfl, rfl⟩ := Option.some.inj h
    · exact .of_outside rfl rfl rfl rfl
    · exact .of_outside rfl (hk _).1 (hk _).2.1 (hk _).2.2
  case deqLoad d head =>
    obtain ⟨rfl, rfl⟩ := h
    split
    · exact .of_eq rfl rfl le_rfl rfl
    · rcases d with ⟨c, _ | _⟩ | r <;> exact .of_eq rfl rfl le_rfl rfl
  case deqCas d head =>
    split at h <;> obtain ⟨rfl, rfl⟩ := h
    · exact .of_eq rfl rfl (Nat.zero_le _) rfl
    · exact .of_eq rfl rfl le_rfl rfl
  case deqClear d head b =>
    split at h
    · cases d with
      | realSend c bufs =>
        obtain ⟨rfl, rfl⟩ := Option.some.inj h
        have hr : (Drain.realSend c (bufs ++ [b])).ready = 0 := by cases bufs <;> rfl
        split
        · exact .of_eq rfl rfl le_rfl rfl
        · exact .of_eq rfl rfl hr.le rfl
      | reset r =>
        obtain ⟨rfl, rfl⟩ := Option.some.inj h
        exact .of_eq rfl rfl le_rfl rfl
    · cases h
  case postSendRelease i =>
    split at h
    · obtain ⟨b, -, hb⟩ := Option.map_eq_some_iff.1 h
      obtain ⟨rfl, rfl⟩ := hb
      exact .of_eq rfl rfl le_rfl rfl
    · obtain ⟨rfl, rfl⟩ := Option.some.inj h
      exact .of_eq rfl rfl le_rfl rfl
  case deqData d head =>
    obtain ⟨rfl, rfl⟩ := h
    exact .of_eq rfl rfl le_rfl rfl
  case realSendStore | deqHead | postSendClear =>
    obtain ⟨rfl, rfl⟩ := h
    exact .of_eq rfl rfl le_rfl rfl

theorem nextLife_advance {s s' : Slot Buf} {pc pc' : Pc Buf} {e : Event Buf}
    (h : nextLife index s pc e = some (s', pc')) : Advance s pc s' pc' := by
  cases pc <;> simp only [nextLife, Option.some.injEq, Prod.mk.injEq, reduceCtorEq] at h
  case recvExecute =>
    cases e <;> simp only [reduceCtorEq] at h <;> obtain ⟨rfl, rfl⟩ := Option.some.inj h <;>
      exact .of_outside rfl rfl rfl rfl
  case recvRef | recvConnect | recvRecheck | timeoutRef =>
    obtain ⟨rfl, rfl⟩ := h
    split <;> exact .of_outside rfl rfl rfl rfl
  case wsaRecv =>
    cases e with
    | result r =>
      cases r <;> obtain ⟨rfl, rfl⟩ := Option.some.inj h <;> exact .of_outside rfl rfl rfl rfl
    | _ => cases h
  case resetSending r =>
    obtain ⟨rfl, rfl⟩ := h
    cases r <;> exact .of_outside rfl rfl rfl rfl
  case acceptSetId | acceptOffFlag | recvCancel | timeoutInc | acceptIncreaseRef | acceptConnect |
      onDisconnect | reset | releaseFreeIndex =>
    obtain ⟨rfl, rfl⟩ := h
    exact .of_outside rfl rfl rfl rfl

theorem start_advance {s s' : Slot Buf} {pc' : Pc Buf} {e : Event Buf}
    (h : start index s e = some (s', pc')) : Advance s .idle s' pc' := by
  cases e <;> simp only [start, Option.some.injEq, Prod.mk.injEq, reduceCtorEq,
    Option.ite_none_right_eq_some] at h
  case hold | disconnect | sendPacket | sendPacketBlocking | timeout =>
    obtain ⟨rfl, rfl⟩ := h
    exact .of_outside rfl rfl rfl rfl
  case sendExecutable =>
    split at h
    · cases h
    · rename_i id rest hp
      obtain ⟨rfl, rfl⟩ := Option.some.inj h
      refine ⟨fun i hi => .inl ?_, .inl ?_, fun h hh => by cases hh⟩
      · rw [hp]
        rcases hi with hi | hi
        · exact List.mem_cons_of_mem _ hi
        · exact List.mem_singleton.1 hi ▸ List.mem_cons_self
      · rw [hp]
        simp only [Pc.ready, List.length_cons]
        omega
  case releaseExecutable | accept | recvReady | sendReady | recvDone | recvFailed | recvAborted |
      sendDone | sendFailed | sendAborted =>
    obtain ⟨hpos, rfl, rfl⟩ := h
    exact .of_outside rfl rfl rfl rfl

theorem next_advance {s s' : Slot Buf} {pc pc' : Pc Buf} {e : Event Buf}
    (h : next index s pc e = some (s', pc')) : Advance s pc s' pc' := by
  unfold next at h
  split at h
  · exact start_advance h
  all_goals first
    | exact nextRef_advance h | exact nextSend_advance h | exact nextRealSend_advance h
    | exact nextLife_advance h

end Slot

end NetLib
