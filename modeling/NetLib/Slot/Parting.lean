import NetLib.Slot.Pinning
/-!
# From `PostRelease` back to `_freeIndex`

What `ReleaseExecutable::Execute` does for a posted session, in its order:
`OnDisconnect`, `Reset`, `ReleaseFreeIndex`.
-/

namespace NetLib

namespace Slot

variable {Buf : Type} {index : ℕ}

/-- Where a thread stands in `ReleaseExecutable::Execute`. -/
inductive Parting
  | off
  /-- Before `OnDisconnect`. -/
  | disconnecting
  /-- Inside `Reset`, until its queue is empty. -/
  | resetting
  /-- On from there, up to `ReleaseFreeIndex`. -/
  | returning
  deriving DecidableEq

def Resetter.parting : Resetter → Parting
  | .accept _ => .off
  | .release => .resetting

def Drain.parting : Drain Buf → Parting
  | .realSend _ _ => .off
  | .reset r => r.parting

def Pc.parting : Pc Buf → Parting
  | .onDisconnect => .disconnecting
  | .reset r => r.parting
  | .deqHead d | .deqLoad d _ | .deqCas d _ | .deqData d _ | .deqClear d _ _ => d.parting
  | .resetSending .release | .releaseFreeIndex => .returning
  | _ => .off

/-- What an action does to a posted session. -/
inductive Ending (s : Slot Buf) (pc : Pc Buf) (s' : Slot Buf) (pc' : Pc Buf) : Prop
  | same (hphase : pc'.parting = pc.parting) (hposted : s'.posted = s.posted)
      (hdis : s'.disconnected = s.disconnected) (hrel : s'.releasePosted = s.releasePosted)
  | post (hold : 0 < pc.owed) (hnew : pc'.parting = .off)
      (hposted : s'.posted = s.posted ++ [s.sessionId]) (hdis : s'.disconnected = s.disconnected)
      (hrel : s'.releasePosted = s.releasePosted + 1)
  | take (hold : pc = .idle) (hnew : pc'.parting = .disconnecting) (hposted : s'.posted = s.posted)
      (hdis : s'.disconnected = s.disconnected) (hrel : s'.releasePosted + 1 = s.releasePosted)
  | call (hold : pc = .onDisconnect) (hnew : pc'.parting = .resetting)
      (hposted : s'.posted = s.posted) (hdis : s'.disconnected = s.disconnected ++ [s.sessionId])
      (hrel : s'.releasePosted = s.releasePosted)
  | clear (hold : pc.parting = .resetting) (hnew : pc' = .resetSending .release)
      (hposted : s'.posted = s.posted) (hdis : s'.disconnected = s.disconnected)
      (hrel : s'.releasePosted = s.releasePosted)
  | giveBack (hold : pc = .releaseFreeIndex) (hnew : pc'.parting = .off)
      (hposted : s'.posted = s.posted) (hdis : s'.disconnected = s.disconnected)
      (hrel : s'.releasePosted = s.releasePosted)

@[simp] theorem After.pc_parting (k : After) : (k.pc : Pc Buf).parting = .off := by cases k <;> rfl

@[simp] theorem Use.found_parting (id : SessionID) (use : Use Buf) :
    (use.found id).parting = .off := by cases use <;> rfl

@[simp] theorem Sender.canSend_parting (c : Sender) : (c.canSend : Pc Buf).parting = .off := by
  cases c <;> rfl

theorem nextRef_ending {s s' : Slot Buf} {pc pc' : Pc Buf}
    (h : nextRef s pc = some (s', pc')) : Ending s pc s' pc' := by
  cases pc <;> simp only [nextRef, Option.some.injEq, Prod.mk.injEq, reduceCtorEq] at h
  case findCheck id result use =>
    split at h <;> obtain ⟨rfl, rfl⟩ := h
    · exact .same rfl rfl rfl rfl
    · exact .same (use.found_parting id) rfl rfl rfl
  case release pin k =>
    obtain ⟨rfl, rfl⟩ := h
    refine .same ?_ rfl rfl rfl
    split
    · rfl
    · exact k.pc_parting
  case releaseCas k =>
    split at h <;> obtain ⟨rfl, rfl⟩ := h
    · exact .same rfl rfl rfl rfl
    · exact .same k.pc_parting rfl rfl rfl
  case postRelease k =>
    obtain ⟨rfl, rfl⟩ := h
    exact .post Nat.one_pos k.pc_parting rfl rfl rfl
  case find | holding | close | cancel =>
    obtain ⟨rfl, rfl⟩ := h
    exact .same rfl rfl rfl rfl

theorem nextSend_ending {s s' : Slot Buf} {pc pc' : Pc Buf}
    (h : nextSend s pc = some (s', pc')) : Ending s pc s' pc' := by
  cases pc <;> simp only [nextSend, Option.some.injEq, Prod.mk.injEq, reduceCtorEq] at h
  case enqLoad | canExchange =>
    split at h <;> obtain ⟨rfl, rfl⟩ := h <;> exact .same rfl rfl rfl rfl
  case enqPublish =>
    split at h
    · cases h
    · obtain ⟨rfl, rfl⟩ := Option.some.inj h
      exact .same rfl rfl rfl rfl
  case canConnect | canRef =>
    obtain ⟨rfl, rfl⟩ := h
    split <;> exact .same rfl rfl rfl rfl
  case canTail c first head =>
    split at h <;> obtain ⟨rfl, rfl⟩ := h <;> refine .same ?_ rfl rfl rfl <;>
      cases first <;> first | rfl | exact c.canSend_parting
  case enqTicket | enqPut | enqFull | canHead | canClear | postSendExecutable =>
    obtain ⟨rfl, rfl⟩ := h
    exact .same rfl rfl rfl rfl

theorem nextRealSend_ending {s s' : Slot Buf} {pc pc' : Pc Buf} {e : Event Buf}
    (h : nextRealSend s pc e = some (s', pc')) : Ending s pc s' pc' := by
  cases pc <;> simp only [nextRealSend, Option.some.injEq, Prod.mk.injEq, reduceCtorEq] at h
  case realSendCheck =>
    obtain ⟨rfl, rfl⟩ := h
    split <;> exact .same rfl rfl rfl rfl
  case realSendTail =>
    split at h
    · cases h
    · obtain ⟨rfl, rfl⟩ := Option.some.inj h
      exact .same rfl rfl rfl rfl
  case wsaSend c bufs =>
    cases e <;> simp only [reduceCtorEq] at h
    split at h <;> obtain ⟨rfl, rfl⟩ := Option.some.inj h
    · exact .same rfl rfl rfl rfl
    · exact .same c.after.pc_parting rfl rfl rfl
  case deqLoad d head =>
    obtain ⟨rfl, rfl⟩ := h
    split
    · exact .same rfl rfl rfl rfl
    · rcases d with ⟨c, _ | _⟩ | _ | _
      · exact .same rfl rfl rfl rfl
      · exact .same rfl rfl rfl rfl
      · exact .same rfl rfl rfl rfl
      · exact .clear rfl rfl rfl rfl rfl
  case deqCas d head =>
    split at h <;> obtain ⟨rfl, rfl⟩ := h <;> exact .same rfl rfl rfl rfl
  case deqClear d head b =>
    split at h
    · cases d <;> obtain ⟨rfl, rfl⟩ := Option.some.inj h
      · split <;> exact .same rfl rfl rfl rfl
      · exact .same rfl rfl rfl rfl
    · cases h
  case postSendRelease i =>
    split at h
    · obtain ⟨b, -, hb⟩ := Option.map_eq_some_iff.1 h
      obtain ⟨rfl, rfl⟩ := hb
      exact .same rfl rfl rfl rfl
    · obtain ⟨rfl, rfl⟩ := Option.some.inj h
      exact .same rfl rfl rfl rfl
  case realSend | realSendHead | realSendStore | deqHead | deqData | postSendClear =>
    obtain ⟨rfl, rfl⟩ := h
    exact .same rfl rfl rfl rfl

theorem nextLife_ending {s s' : Slot Buf} {pc pc' : Pc Buf} {e : Event Buf}
    (h : nextLife index s pc e = some (s', pc')) : Ending s pc s' pc' := by
  cases pc <;> simp only [nextLife, Option.some.injEq, Prod.mk.injEq, reduceCtorEq] at h
  case recvExecute =>
    cases e <;> simp only [reduceCtorEq] at h <;> obtain ⟨rfl, rfl⟩ := Option.some.inj h <;>
      exact .same rfl rfl rfl rfl
  case recvRef | recvConnect | recvRecheck | timeoutRef =>
    obtain ⟨rfl, rfl⟩ := h
    split <;> exact .same rfl rfl rfl rfl
  case wsaRecv =>
    cases e with
    | result r =>
      cases r <;> obtain ⟨rfl, rfl⟩ := Option.some.inj h <;> exact .same rfl rfl rfl rfl
    | _ => cases h
  case resetSending r =>
    obtain ⟨rfl, rfl⟩ := h
    cases r <;> exact .same rfl rfl rfl rfl
  case onDisconnect =>
    obtain ⟨rfl, rfl⟩ := h
    exact .call rfl rfl rfl rfl rfl
  case releaseFreeIndex =>
    obtain ⟨rfl, rfl⟩ := h
    exact .giveBack rfl rfl rfl rfl rfl
  case recvCancel | timeoutInc | acceptIncreaseRef | acceptSetId | acceptOffFlag | acceptConnect |
      reset =>
    obtain ⟨rfl, rfl⟩ := h
    exact .same rfl rfl rfl rfl

theorem start_ending {s s' : Slot Buf} {pc' : Pc Buf} {e : Event Buf}
    (h : start index s e = some (s', pc')) : Ending s .idle s' pc' := by
  cases e <;> simp only [start, Option.some.injEq, Prod.mk.injEq, reduceCtorEq,
    Option.ite_none_right_eq_some] at h
  case hold | disconnect | sendPacket | sendPacketBlocking | timeout =>
    obtain ⟨rfl, rfl⟩ := h
    exact .same rfl rfl rfl rfl
  case releaseExecutable =>
    obtain ⟨hpos, rfl, rfl⟩ := h
    exact .take rfl rfl rfl rfl (Nat.sub_add_cancel hpos)
  case accept | recvReady | sendReady | recvDone | recvFailed | recvAborted | sendDone |
      sendFailed | sendAborted =>
    obtain ⟨hpos, rfl, rfl⟩ := h
    exact .same rfl rfl rfl rfl
  case sendExecutable =>
    split at h
    · cases h
    · obtain ⟨rfl, rfl⟩ := Option.some.inj h
      exact .same rfl rfl rfl rfl

theorem next_ending {s s' : Slot Buf} {pc pc' : Pc Buf} {e : Event Buf}
    (h : next index s pc e = some (s', pc')) : Ending s pc s' pc' := by
  unfold next at h
  split at h
  · exact start_ending h
  all_goals first
    | exact nextRef_ending h | exact nextSend_ending h | exact nextRealSend_ending h
    | exact nextLife_ending h

/-- A thread at any of these closes the slot. -/
theorem Pc.closed_of_parting {pc : Pc Buf} (h : pc.parting ≠ .off) : pc.closed = 1 := by
  have hr : ∀ r : Resetter, r.parting ≠ .off → r = .release := by
    rintro (_ | _) hr
    · exact absurd rfl hr
    · rfl
  cases pc
  case onDisconnect | releaseFreeIndex | reset | resetSending => rfl
  case deqHead d | deqLoad d _ | deqCas d _ | deqData d _ | deqClear d _ _ =>
    cases d with
    | realSend => exact absurd rfl h
    | reset r => rfl
  all_goals exact absurd rfl h

end Slot

end NetLib
