import NetLib.Slot.Refs
/-!
# Pinning a session by its reference count

What a reference from `FindSession` is worth: while it is held, the slot
keeps its session. The counts come from `Lifecycle`; here they are joined
with the names, that is, with the session ids.
-/

namespace NetLib

namespace Slot

open Lifecycle

variable {Buf : Type} {index : ℕ}

/-! ## The ids along a slot's life -/

/-- What a thread is doing with the slot's names. -/
inductive Stage
  | outside
  /-- `AcceptThread`, up to `SetSessionId`. -/
  | accepting (id : SessionID)
  /-- `AcceptThread`, before `OffReleaseFlag`. -/
  | opening
  /-- `ReleaseExecutable::Execute`. -/
  | releasing
  deriving DecidableEq

def Resetter.stage : Resetter → Stage
  | .accept id => .accepting id
  | .release => .releasing

def Drain.stage : Drain Buf → Stage
  | .realSend _ _ => .outside
  | .reset r => r.stage

def Pc.stage : Pc Buf → Stage
  | .reset r | .resetSending r => r.stage
  | .deqHead d | .deqLoad d _ | .deqCas d _ | .deqData d _ | .deqClear d _ _ => d.stage
  | .acceptIncreaseRef id | .acceptSetId id => .accepting id
  | .acceptOffFlag => .opening
  | .onDisconnect | .releaseFreeIndex => .releasing
  | _ => .outside

/-- A thread is in a stage exactly while it closes the slot. -/
theorem Pc.closed_eq (pc : Pc Buf) : pc.closed = if pc.stage = .outside then 0 else 1 := by
  have hd : ∀ d : Drain Buf, d.closed = if d.stage = .outside then 0 else 1 := by
    rintro (_ | ⟨_ | _⟩) <;> rfl
  cases pc
  case deqHead d | deqLoad d _ | deqCas d _ | deqData d _ | deqClear d _ _ => exact hd d
  case reset r | resetSending r => cases r <;> rfl
  all_goals rfl

/-- What an action does to the ids and to the slot's place among the free
ones. -/
inductive Naming (index : ℕ) (s : Slot Buf) (pc : Pc Buf) (e : Event Buf) (s' : Slot Buf)
    (pc' : Pc Buf) : Prop
  | same (hid : s'.sessionId = s.sessionId) (hacc : s'.accepted = s.accepted)
      (hg : s'.gSessionId = s.gSessionId) (hrel : s'.releasePosted = s.releasePosted)
      (hfree : s'.free = s.free) (hstage : pc'.stage = pc.stage ∨ pc'.stage = .outside)
  /-- `AcceptThread` draws an id. -/
  | draw (others : ℕ) (hold : pc = .idle) (he : e = .accept others) (hpos : 0 < s.free)
      (hid : s'.sessionId = s.sessionId) (hacc : s'.accepted = s.accepted)
      (hg : s'.gSessionId = s.gSessionId + others + 1)
      (hrel : s'.releasePosted = s.releasePosted) (hfree : s'.free = s.free - 1)
      (hstage : pc'.stage = .accepting ⟨s.gSessionId + others + 1, index⟩)
  /-- `SetSessionId` -/
  | name (id : SessionID) (hold : pc = .acceptSetId id) (hid : s'.sessionId = id)
      (hacc : s'.accepted = s.accepted) (hg : s'.gSessionId = s.gSessionId)
      (hrel : s'.releasePosted = s.releasePosted) (hfree : s'.free = s.free)
      (hnew : pc' = .acceptOffFlag)
  /-- `OffReleaseFlag` -/
  | openUp (hold : pc = .acceptOffFlag) (hid : s'.sessionId = s.sessionId)
      (hacc : s'.accepted = s.accepted ++ [s.sessionId]) (hg : s'.gSessionId = s.gSessionId)
      (hrel : s'.releasePosted = s.releasePosted) (hfree : s'.free = s.free)
      (hstage : pc'.stage = .outside)
  /-- `PostRelease` -/
  | post (hold : 0 < pc.owed) (hid : s'.sessionId = s.sessionId) (hacc : s'.accepted = s.accepted)
      (hg : s'.gSessionId = s.gSessionId) (hfree : s'.free = s.free) (hstage : pc'.stage = .outside)
  /-- A worker takes the `ReleaseExecutable`. -/
  | take (hpos : 0 < s.releasePosted) (hid : s'.sessionId = s.sessionId)
      (hacc : s'.accepted = s.accepted) (hg : s'.gSessionId = s.gSessionId)
      (hrel : s'.releasePosted ≤ s.releasePosted) (hfree : s'.free = s.free)
      (hstage : pc'.stage = .releasing)
  /-- `ReleaseFreeIndex` -/
  | giveBack (hold : pc = .releaseFreeIndex) (hid : s'.sessionId = s.sessionId)
      (hacc : s'.accepted = s.accepted) (hg : s'.gSessionId = s.gSessionId)
      (hrel : s'.releasePosted = s.releasePosted)
      (hfree : s'.free = s.free + if s.sessionId.index = index then 1 else 0)
      (hstage : pc'.stage = .outside)

@[simp] theorem After.pc_stage (k : After) : (k.pc : Pc Buf).stage = .outside := by cases k <;> rfl

@[simp] theorem Use.found_stage (id : SessionID) (use : Use Buf) :
    (use.found id).stage = .outside := by cases use <;> rfl

@[simp] theorem Sender.canSend_stage (c : Sender) : (c.canSend : Pc Buf).stage = .outside := by
  cases c <;> rfl

@[simp] theorem Drain.empty_stage (d : Drain Buf) : d.empty.stage = d.stage := by
  rcases d with ⟨c, _ | _⟩ | r <;> rfl

theorem nextRef_naming {s s' : Slot Buf} {pc pc' : Pc Buf} {e : Event Buf}
    (h : nextRef s pc = some (s', pc')) :
    Naming index s pc e s' pc' := by
  cases pc <;> simp only [nextRef, Option.some.injEq, Prod.mk.injEq, reduceCtorEq] at h
  case findCheck id result use =>
    split at h <;> obtain ⟨rfl, rfl⟩ := h
    · exact .same rfl rfl rfl rfl rfl (.inr rfl)
    · exact .same rfl rfl rfl rfl rfl (.inr (use.found_stage id))
  case release found k =>
    obtain ⟨rfl, rfl⟩ := h
    refine .same rfl rfl rfl rfl rfl (.inr ?_)
    split
    · rfl
    · exact k.pc_stage
  case releaseCas k =>
    split at h <;> obtain ⟨rfl, rfl⟩ := h
    · exact .same rfl rfl rfl rfl rfl (.inr rfl)
    · exact .same rfl rfl rfl rfl rfl (.inr k.pc_stage)
  case postRelease k =>
    obtain ⟨rfl, rfl⟩ := h
    exact .post Nat.one_pos rfl rfl rfl rfl k.pc_stage
  case find | holding | close | cancel =>
    obtain ⟨rfl, rfl⟩ := h
    exact .same rfl rfl rfl rfl rfl (.inr rfl)

theorem nextSend_naming {s s' : Slot Buf} {pc pc' : Pc Buf} {e : Event Buf}
    (h : nextSend s pc = some (s', pc')) :
    Naming index s pc e s' pc' := by
  cases pc <;> simp only [nextSend, Option.some.injEq, Prod.mk.injEq, reduceCtorEq] at h
  case enqLoad | canExchange =>
    split at h <;> obtain ⟨rfl, rfl⟩ := h <;> exact .same rfl rfl rfl rfl rfl (.inr rfl)
  case enqPublish =>
    split at h
    · cases h
    · obtain ⟨rfl, rfl⟩ := Option.some.inj h
      exact .same rfl rfl rfl rfl rfl (.inr rfl)
  case canConnect | canRef =>
    obtain ⟨rfl, rfl⟩ := h
    split <;> exact .same rfl rfl rfl rfl rfl (.inr rfl)
  case canTail c first head =>
    split at h <;> obtain ⟨rfl, rfl⟩ := h <;> refine .same rfl rfl rfl rfl rfl (.inr ?_) <;>
      cases first <;> first | rfl | exact c.canSend_stage
  case enqTicket | enqPut | enqFull | canHead | canClear | postSendExecutable =>
    obtain ⟨rfl, rfl⟩ := h
    exact .same rfl rfl rfl rfl rfl (.inr rfl)

theorem nextRealSend_naming {s s' : Slot Buf} {pc pc' : Pc Buf} {e : Event Buf}
    (h : nextRealSend s pc e = some (s', pc')) : Naming index s pc e s' pc' := by
  cases pc <;> simp only [nextRealSend, Option.some.injEq, Prod.mk.injEq, reduceCtorEq] at h
  case realSendCheck =>
    obtain ⟨rfl, rfl⟩ := h
    split <;> exact .same rfl rfl rfl rfl rfl (.inr rfl)
  case realSendTail =>
    split at h
    · cases h
    · obtain ⟨rfl, rfl⟩ := Option.some.inj h
      exact .same rfl rfl rfl rfl rfl (.inr rfl)
  case wsaSend c bufs =>
    cases e <;> simp only [reduceCtorEq] at h
    split at h <;> obtain ⟨rfl, rfl⟩ := Option.some.inj h
    · exact .same rfl rfl rfl rfl rfl (.inr rfl)
    · exact .same rfl rfl rfl rfl rfl (.inr c.after.pc_stage)
  case deqLoad d head =>
    obtain ⟨rfl, rfl⟩ := h
    split
    · exact .same rfl rfl rfl rfl rfl (.inl rfl)
    · exact .same rfl rfl rfl rfl rfl (.inl d.empty_stage)
  case deqCas d head =>
    split at h <;> obtain ⟨rfl, rfl⟩ := h <;> exact .same rfl rfl rfl rfl rfl (.inl rfl)
  case deqClear d head b =>
    split at h
    · cases d <;> obtain ⟨rfl, rfl⟩ := Option.some.inj h
      · split <;> exact .same rfl rfl rfl rfl rfl (.inl rfl)
      · exact .same rfl rfl rfl rfl rfl (.inl rfl)
    · cases h
  case postSendRelease i =>
    split at h
    · obtain ⟨b, -, hb⟩ := Option.map_eq_some_iff.1 h
      obtain ⟨rfl, rfl⟩ := hb
      exact .same rfl rfl rfl rfl rfl (.inr rfl)
    · obtain ⟨rfl, rfl⟩ := Option.some.inj h
      exact .same rfl rfl rfl rfl rfl (.inr rfl)
  case realSend | realSendHead | realSendStore | deqHead | deqData | postSendClear =>
    obtain ⟨rfl, rfl⟩ := h
    exact .same rfl rfl rfl rfl rfl (.inl rfl)

theorem nextLife_naming {s s' : Slot Buf} {pc pc' : Pc Buf} {e : Event Buf}
    (h : nextLife index s pc e = some (s', pc')) : Naming index s pc e s' pc' := by
  cases pc <;> simp only [nextLife, Option.some.injEq, Prod.mk.injEq, reduceCtorEq] at h
  case recvExecute =>
    cases e <;> simp only [reduceCtorEq] at h <;> obtain ⟨rfl, rfl⟩ := Option.some.inj h <;>
      exact .same rfl rfl rfl rfl rfl (.inr rfl)
  case recvRef | recvConnect | recvRecheck | timeoutRef =>
    obtain ⟨rfl, rfl⟩ := h
    split <;> exact .same rfl rfl rfl rfl rfl (.inr rfl)
  case wsaRecv =>
    cases e with
    | result r =>
      cases r <;> obtain ⟨rfl, rfl⟩ := Option.some.inj h <;>
        exact .same rfl rfl rfl rfl rfl (.inr rfl)
    | _ => cases h
  case acceptSetId id =>
    obtain ⟨rfl, rfl⟩ := h
    exact .name id rfl rfl rfl rfl rfl rfl rfl
  case acceptOffFlag =>
    obtain ⟨rfl, rfl⟩ := h
    exact .openUp rfl rfl rfl rfl rfl rfl rfl
  case resetSending r =>
    obtain ⟨rfl, rfl⟩ := h
    cases r <;> exact .same rfl rfl rfl rfl rfl (.inl rfl)
  case recvCancel | timeoutInc | acceptIncreaseRef | acceptConnect | onDisconnect | reset =>
    obtain ⟨rfl, rfl⟩ := h
    exact .same rfl rfl rfl rfl rfl (.inl rfl)
  case releaseFreeIndex =>
    obtain ⟨rfl, rfl⟩ := h
    exact .giveBack rfl rfl rfl rfl rfl rfl rfl

theorem start_naming {s s' : Slot Buf} {pc' : Pc Buf} {e : Event Buf}
    (h : start index s e = some (s', pc')) : Naming index s .idle e s' pc' := by
  cases e <;> simp only [start, Option.some.injEq, Prod.mk.injEq, reduceCtorEq,
    Option.ite_none_right_eq_some] at h
  case hold | disconnect | sendPacket | sendPacketBlocking | timeout =>
    obtain ⟨rfl, rfl⟩ := h
    exact .same rfl rfl rfl rfl rfl (.inl rfl)
  case releaseExecutable =>
    obtain ⟨hpos, rfl, rfl⟩ := h
    exact .take hpos rfl rfl rfl (Nat.sub_le _ _) rfl rfl
  case accept others =>
    obtain ⟨hpos, rfl, rfl⟩ := h
    exact .draw others rfl rfl hpos rfl rfl rfl rfl rfl rfl
  case recvReady | sendReady | recvDone | recvFailed | recvAborted | sendDone | sendFailed |
      sendAborted =>
    obtain ⟨hpos, rfl, rfl⟩ := h
    exact .same rfl rfl rfl rfl rfl (.inl rfl)
  case sendExecutable =>
    split at h
    · cases h
    · obtain ⟨rfl, rfl⟩ := Option.some.inj h
      exact .same rfl rfl rfl rfl rfl (.inl rfl)

theorem next_naming {s s' : Slot Buf} {pc pc' : Pc Buf} {e : Event Buf}
    (h : next index s pc e = some (s', pc')) : Naming index s pc e s' pc' := by
  unfold next at h
  split at h
  · exact start_naming h
  all_goals first
    | exact nextRef_naming h | exact nextSend_naming h | exact nextRealSend_naming h
    | exact nextLife_naming h

/-! ## The sessions references pin -/

def After.held : After → List SessionID
  | .done => []
  | .canSend c => [c.id]
  | .release id => [id]

def Use.held : Use Buf → List SessionID
  | .disconnect k => k.held
  | _ => []

/-- A posted `SendExecutable` runs without a reference of its own. -/
def Caller.held : Caller → List SessionID
  | .sendPacketBlocking id | .postSend id => [id]
  | .sendExecutable _ => []

def Drain.held : Drain Buf → List SessionID
  | .realSend c _ => c.held
  | .reset _ => []

/-- The sessions that the references held at a program point were taken
for: by `FindSession`, or for the send that completed. -/
def Pc.held : Pc Buf → List SessionID
  | .find _ use | .findCheck _ _ use => use.held
  | .holding id | .postSendExecutable id => [id]
  | .close id k | .cancel id k => id :: k.held
  | .release pin k => pin.toList ++ k.held
  | .releaseCas k | .postRelease k => k.held
  | .enqTicket _ c | .enqLoad _ _ c | .enqPut _ _ c | .enqPublish _ _ c | .enqFull c
  | .canConnect c | .canRef c | .canHead c _ | .canTail c _ _ | .canExchange c
  | .canClear c => [c.id]
  | .realSend c | .realSendCheck c _ | .realSendHead c | .realSendTail c _ | .realSendStore c _
  | .wsaSend c _ => c.held
  | .deqHead d | .deqLoad d _ | .deqCas d _ | .deqData d _ | .deqClear d _ _ => d.held
  | _ => []

@[simp] theorem After.pc_held (k : After) : (k.pc : Pc Buf).held = k.held := by cases k <;> rfl

@[simp] theorem Use.failed_held (use : Use Buf) : use.failed.held = use.held := by
  cases use <;> rfl

@[simp] theorem Caller.after_held (c : Caller) : c.after.held = c.held := by cases c <;> rfl

@[simp] theorem Sender.canSend_held (c : Sender) : (c.canSend : Pc Buf).held = [c.id] := by
  cases c <;> rfl

@[simp] theorem Sender.release_held (c : Sender) : (c.release : Pc Buf).held = [c.id] := rfl

@[simp] theorem Drain.empty_held (d : Drain Buf) : d.empty.held = d.held := by
  rcases d with ⟨c, _ | _⟩ | r <;> rfl

/-- Every one of them is pinned. -/
theorem Pc.held_length_le (pc : Pc Buf) : pc.held.length ≤ pc.pinned := by
  have hk : ∀ k : After, k.held.length ≤ k.refs := by rintro (_ | _ | _) <;> exact le_rfl
  have hu : ∀ use : Use Buf, use.held.length ≤ use.refs := by
    rintro (_ | k | _ | _)
    · exact le_rfl
    · exact hk k
    · exact le_rfl
    · exact le_rfl
  have hc : ∀ c : Caller, c.held.length ≤ c.refs := by
    rintro (_ | _ | _) <;> simp [Caller.held, Caller.refs]
  have hd : ∀ d : Drain Buf, d.held.length ≤ d.refs := by
    rintro (⟨c, _⟩ | _)
    · exact (hc c).trans (Nat.le_add_left _ _)
    · exact le_rfl
  cases pc
  case find id use => exact hu use
  case findCheck id result use => exact (hu use).trans (Nat.le_add_left _ _)
  case close id k | cancel id k =>
    change k.held.length + 1 ≤ 1 + k.refs
    have := hk k
    omega
  case release pin k =>
    simp only [Pc.held, Pc.pinned, List.length_append]
    have := hk k
    cases pin <;> simp <;> omega
  case releaseCas k | postRelease k => exact hk k
  case enqTicket c | enqLoad c | enqPut c | enqPublish c | enqFull c | canConnect c | canRef c |
      canHead c _ | canTail c _ _ | canExchange c | canClear c => exact le_rfl
  case realSend c => exact hc c
  case realSendCheck c _ | realSendHead c | realSendTail c _ | realSendStore c _ | wsaSend c _ =>
    exact (hc c).trans (Nat.le_add_left _ _)
  case deqHead d | deqLoad d _ | deqCas d _ | deqData d _ | deqClear d _ _ => exact hd d
  case holding | postSendExecutable => exact le_rfl
  all_goals exact Nat.zero_le _

/-- An action comes by no id but the slot's own: `FindSession` compared it,
a completed send has it from the slot. -/
def Found (s : Slot Buf) (pc pc' : Pc Buf) : Prop :=
  ∀ id ∈ pc'.held, id ∈ pc.held ∨ s.sessionId = id

theorem Found.of_eq {s : Slot Buf} {pc pc' : Pc Buf} (h : pc'.held = pc.held) : Found s pc pc' :=
  fun _ hid => .inl (h ▸ hid)

theorem Found.of_nil {s : Slot Buf} {pc pc' : Pc Buf} (h : pc'.held = []) : Found s pc pc' :=
  fun _ hid => absurd (h ▸ hid) List.not_mem_nil

theorem nextRef_found {s s' : Slot Buf} {pc pc' : Pc Buf} (h : nextRef s pc = some (s', pc')) :
    Found s pc pc' := by
  cases pc <;> simp only [nextRef, Option.some.injEq, Prod.mk.injEq, reduceCtorEq] at h
  case findCheck id result use =>
    split at h <;> obtain ⟨rfl, rfl⟩ := h
    · exact .of_eq use.failed_held
    · rename_i hok
      intro i hi
      have hs : s.sessionId = id := by tauto
      cases use with
      | disconnect k =>
        rcases List.mem_cons.1 hi with rfl | hk
        · exact .inr hs
        · exact .inl hk
      | hold | sendPacket b | sendPacketBlocking b =>
        exact .inr (hs.trans (List.mem_singleton.1 hi).symm)
  case release found k =>
    obtain ⟨rfl, rfl⟩ := h
    intro id hid
    refine .inl (List.mem_append_right _ ?_)
    split at hid
    · exact hid
    · exact k.pc_held ▸ hid
  case releaseCas k =>
    split at h <;> obtain ⟨rfl, rfl⟩ := h
    · exact .of_eq rfl
    · exact .of_eq k.pc_held
  case postRelease k =>
    obtain ⟨rfl, rfl⟩ := h
    exact .of_eq k.pc_held
  case find | holding | close | cancel =>
    obtain ⟨rfl, rfl⟩ := h
    exact .of_eq rfl

theorem nextSend_found {s s' : Slot Buf} {pc pc' : Pc Buf} (h : nextSend s pc = some (s', pc')) :
    Found s pc pc' := by
  cases pc <;> simp only [nextSend, Option.some.injEq, Prod.mk.injEq, reduceCtorEq] at h
  case enqLoad =>
    split at h <;> obtain ⟨rfl, rfl⟩ := h <;> exact .of_eq rfl
  case canExchange c =>
    split at h <;> obtain ⟨rfl, rfl⟩ := h
    · exact .of_eq c.release_held
    · exact .of_eq rfl
  case enqPublish =>
    split at h
    · cases h
    · obtain ⟨rfl, rfl⟩ := Option.some.inj h
      exact .of_eq rfl
  case canConnect c | canRef c =>
    obtain ⟨rfl, rfl⟩ := h
    split <;> exact .of_eq rfl
  case canTail c first head =>
    split at h <;> obtain ⟨rfl, rfl⟩ := h <;> refine .of_eq ?_ <;> cases first
    all_goals first | rfl | exact c.canSend_held
  case enqTicket | enqPut | enqFull | canHead | canClear | postSendExecutable =>
    obtain ⟨rfl, rfl⟩ := h
    exact .of_eq rfl

theorem nextRealSend_found {s s' : Slot Buf} {pc pc' : Pc Buf} {e : Event Buf}
    (h : nextRealSend s pc e = some (s', pc')) : Found s pc pc' := by
  cases pc <;> simp only [nextRealSend, Option.some.injEq, Prod.mk.injEq, reduceCtorEq] at h
  case realSendCheck c _ =>
    obtain ⟨rfl, rfl⟩ := h
    split
    · exact .of_eq c.after_held
    · exact .of_eq rfl
  case realSendTail =>
    split at h
    · cases h
    · obtain ⟨rfl, rfl⟩ := Option.some.inj h
      exact .of_eq rfl
  case wsaSend c bufs =>
    cases e <;> simp only [reduceCtorEq] at h
    split at h <;> obtain ⟨rfl, rfl⟩ := Option.some.inj h
    · exact .of_eq c.after_held
    · exact .of_eq (c.after.pc_held.trans c.after_held)
  case deqLoad d head =>
    obtain ⟨rfl, rfl⟩ := h
    split
    · exact .of_eq rfl
    · exact .of_eq d.empty_held
  case deqCas d head =>
    split at h <;> obtain ⟨rfl, rfl⟩ := h <;> exact .of_eq rfl
  case deqClear d head b =>
    split at h
    · cases d <;> obtain ⟨rfl, rfl⟩ := Option.some.inj h
      · split <;> exact .of_eq rfl
      · exact .of_eq rfl
    · cases h
  case postSendRelease i =>
    split at h
    · obtain ⟨b, -, hb⟩ := Option.map_eq_some_iff.1 h
      obtain ⟨rfl, rfl⟩ := hb
      exact .of_eq rfl
    · obtain ⟨rfl, rfl⟩ := Option.some.inj h
      exact .of_eq rfl
  case postSendClear =>
    obtain ⟨rfl, rfl⟩ := h
    exact fun id hid => .inr (List.mem_singleton.1 hid).symm
  case realSend | realSendHead | realSendStore | deqHead | deqData =>
    obtain ⟨rfl, rfl⟩ := h
    exact .of_eq rfl

theorem nextLife_found {s s' : Slot Buf} {pc pc' : Pc Buf} {e : Event Buf}
    (h : nextLife index s pc e = some (s', pc')) : Found s pc pc' := by
  cases pc <;> simp only [nextLife, Option.some.injEq, Prod.mk.injEq, reduceCtorEq] at h
  case recvExecute =>
    cases e <;> simp only [reduceCtorEq] at h <;> obtain ⟨rfl, rfl⟩ := Option.some.inj h <;>
      exact .of_nil rfl
  case recvRef | recvConnect | recvRecheck | timeoutRef =>
    obtain ⟨rfl, rfl⟩ := h
    split <;> exact .of_nil rfl
  case wsaRecv =>
    cases e with
    | result r => cases r <;> obtain ⟨rfl, rfl⟩ := Option.some.inj h <;> exact .of_nil rfl
    | _ => cases h
  case resetSending r =>
    obtain ⟨rfl, rfl⟩ := h
    cases r <;> exact .of_nil rfl
  case acceptSetId | acceptOffFlag | recvCancel | timeoutInc | acceptIncreaseRef | acceptConnect |
      onDisconnect | reset | releaseFreeIndex =>
    obtain ⟨rfl, rfl⟩ := h
    exact .of_nil rfl

theorem start_found {s s' : Slot Buf} {pc' : Pc Buf} {e : Event Buf}
    (h : start index s e = some (s', pc')) : Found s .idle pc' := by
  cases e <;> simp only [start, Option.some.injEq, Prod.mk.injEq, reduceCtorEq,
    Option.ite_none_right_eq_some] at h
  case hold | disconnect | sendPacket | sendPacketBlocking | timeout =>
    obtain ⟨rfl, rfl⟩ := h
    exact .of_nil rfl
  case releaseExecutable | accept | recvReady | sendReady | recvDone | recvFailed | recvAborted |
      sendDone | sendFailed | sendAborted =>
    obtain ⟨hpos, rfl, rfl⟩ := h
    exact .of_nil rfl
  case sendExecutable =>
    split at h
    · cases h
    · obtain ⟨rfl, rfl⟩ := Option.some.inj h
      exact .of_nil rfl

theorem next_found {s s' : Slot Buf} {pc pc' : Pc Buf} {e : Event Buf}
    (h : next index s pc e = some (s', pc')) : Found s pc pc' := by
  unfold next at h
  split at h
  · exact start_found h
  all_goals first
    | exact nextRef_found h | exact nextSend_found h | exact nextRealSend_found h
    | exact nextLife_found h

/-! ## The invariant -/

/-- The id `AcceptThread` is about to open the slot under. -/
def Stage.newId (s : Slot Buf) : Stage → Option SessionID
  | .accepting id => some id
  | .opening => some s.sessionId
  | _ => none

/-- The counts and the names of a slot, over all its threads. -/
structure Sound (index : ℕ) (w : World Buf) : Prop where
  few : FewRefs w
  counted : Counted RELEASE_FLAG (life w)
  logged : Logged (life w)
  sorted : w.shared.accepted.Pairwise (·.serial < ·.serial)
  drawn : ∀ i ∈ w.shared.accepted, i.index = index ∧ i.serial ≤ w.shared.gSessionId
  fresh : ∀ pc ∈ w.threads, ∀ id, pc.stage.newId w.shared = some id →
    id.index = index ∧ id.serial ≤ w.shared.gSessionId ∧
      ∀ i ∈ w.shared.accepted, i.serial < id.serial
  posted : 0 < w.shared.releasePosted → w.shared.sessionId ∈ w.shared.accepted
  releasing : ∀ pc ∈ w.threads, pc.stage = .releasing → w.shared.sessionId ∈ w.shared.accepted
  held : ∀ pc ∈ w.threads, ∀ id ∈ pc.held, w.shared.sessionId = id

theorem total_initial [Inhabited Buf] (f : Pc Buf → ℕ) (n : ℕ) (h : f .idle = 0) :
    (World.initial n : World Buf).total f = 0 := by
  simp [Pool.total, World.initial, h]

theorem life_initial [Inhabited Buf] (n : ℕ) : life (World.initial n : World Buf) =
    ⟨RELEASE_FLAG, 0, 0, 0, 0, 1, ⟨0, 0⟩, [], []⟩ := by
  simp only [life, total_initial _ n (rfl : Pc.refs .idle = 0),
    total_initial _ n (rfl : Pc.pinned .idle = 0), total_initial _ n (rfl : Pc.zeroed .idle = 0),
    total_initial _ n (rfl : Pc.owed .idle = 0), total_initial _ n (rfl : Pc.closed .idle = 0)]
  rfl

theorem Sound.initial [Inhabited Buf] (n : ℕ) : Sound index (World.initial n : World Buf) := by
  have hidle := World.initial_idle Buf n
  have hlife : life (World.initial n : World Buf) = _ := life_initial n
  refine ⟨?_, ?_, ?_, .nil, ?_, ?_, ?_, ?_, ?_⟩
  · rw [FewRefs, hlife]; decide
  · rw [hlife]; constructor <;> simp
  · rw [hlife]; simp [Logged]
  · exact fun i hi => absurd hi List.not_mem_nil
  · intro pc hpc id hid
    rw [hidle pc hpc] at hid
    cases hid
  · exact fun h => absurd h (lt_irrefl 0)
  · intro pc hpc hst
    rw [hidle pc hpc] at hst
    cases hst
  · intro pc hpc id hid
    rw [hidle pc hpc] at hid
    cases hid

/-- At most one thread is in a stage, and none while anything of the slot's
life is going on elsewhere. -/
theorem stage_unique {w : World Buf} (h : Counted RELEASE_FLAG (life w)) {i j : ℕ}
    {p q : Pc Buf} (hij : i ≠ j) (hi : w.threads[i]? = some p) (hj : w.threads[j]? = some q)
    (hp : p.stage ≠ .outside) : q.stage = .outside := by
  have hone := h.one
  simp only [life] at hone
  have hp1 : p.closed = 1 := by rw [p.closed_eq, if_neg hp]
  have hq := Pool.eq_zero_of_other (f := Pc.closed) (by omega) hij hi hj
  rw [q.closed_eq] at hq
  by_contra hne
  rw [if_neg hne] at hq
  cases hq

/-- No thread is in a stage while the slot waits for one. -/
theorem outside_of_waiting {w : World Buf} (h : Counted RELEASE_FLAG (life w))
    (hpos : 0 < w.shared.releasePosted + w.shared.free + w.total Pc.owed) {pc : Pc Buf}
    (hpc : pc ∈ w.threads) : pc.stage = .outside := by
  have hone := h.one
  simp only [life] at hone
  have hcl := pc.closed_eq
  rw [Pool.eq_zero_of_total (f := Pc.closed) (by omega) hpc] at hcl
  by_contra hne
  rw [if_neg hne] at hcl
  cases hcl

/-- No reference is held while a thread is in a stage. -/
theorem held_nil_of_stage {w : World Buf} (h : Counted RELEASE_FLAG (life w)) {pc q : Pc Buf}
    (hpc : pc ∈ w.threads) (hst : pc.stage ≠ .outside) (hq : q ∈ w.threads) : q.held = [] := by
  have hcl : pc.closed = 1 := by rw [pc.closed_eq, if_neg hst]
  have hle := Pool.le_total Pc.closed hpc
  have hpin := h.pinned
  simp only [life] at hpin
  have hlen := (Pc.held_length_le q).trans (Pool.le_total Pc.pinned hq)
  exact List.eq_nil_of_length_eq_zero (by omega)

theorem Stage.newId_congr {s s' : Slot Buf} (h : s'.sessionId = s.sessionId) (st : Stage) :
    st.newId s' = st.newId s := by
  cases st <;> simp [Stage.newId, h]

theorem Sound.indexed {w : World Buf} (h : Sound index w)
    (hfree : Pc.releaseFreeIndex ∈ w.threads) : w.shared.sessionId.index = index :=
  (h.drawn _ (h.releasing _ hfree rfl)).1

section Step

variable {w w' : World Buf} {e : ℕ × Event Buf} {pc pc' : Pc Buf}

/-- The histories of the ids after a step. -/
theorem Sound.sorted_step (h : Sound index w) (hpc : w.threads[e.1]? = some pc)
    (hn : Naming index w.shared pc e.2 w'.shared pc') :
    w'.shared.accepted.Pairwise (·.serial < ·.serial) ∧
      ∀ i ∈ w'.shared.accepted, i.index = index ∧ i.serial ≤ w'.shared.gSessionId := by
  have hsame (hacc : w'.shared.accepted = w.shared.accepted)
      (hg : w.shared.gSessionId ≤ w'.shared.gSessionId) :
      w'.shared.accepted.Pairwise (·.serial < ·.serial) ∧
        ∀ i ∈ w'.shared.accepted, i.index = index ∧ i.serial ≤ w'.shared.gSessionId := by
    rw [hacc]
    exact ⟨h.sorted, fun i hi => ⟨(h.drawn i hi).1, (h.drawn i hi).2.trans hg⟩⟩
  cases hn with
  | same _ hacc hg => exact hsame hacc hg.ge
  | draw others _ _ _ _ hacc hg => exact hsame hacc (by omega)
  | name _ _ _ hacc hg => exact hsame hacc hg.ge
  | post _ _ hacc hg => exact hsame hacc hg.ge
  | take _ _ hacc hg => exact hsame hacc hg.ge
  | giveBack _ _ hacc hg => exact hsame hacc hg.ge
  | openUp hold _ hacc hg =>
    obtain ⟨hidx, hle, hlt⟩ := h.fresh pc (List.mem_of_getElem? hpc) w.shared.sessionId
      (by rw [hold]; rfl)
    rw [hacc, hg]
    refine ⟨List.pairwise_append.2 ⟨h.sorted, List.pairwise_singleton _ _, fun a ha b hb => ?_⟩,
      fun i hi => ?_⟩
    · rw [List.mem_singleton.1 hb]
      exact hlt a ha
    · rcases List.mem_append.1 hi with hi | hi
      · exact h.drawn i hi
      · rw [List.mem_singleton.1 hi]
        exact ⟨hidx, hle⟩

/-- The id drawn but not yet in use, after a step. -/
theorem Sound.fresh_step (h : Sound index w) (hpc : w.threads[e.1]? = some pc)
    (ht : w'.threads = w.threads.set e.1 pc') (hn : Naming index w.shared pc e.2 w'.shared pc') :
    ∀ pc ∈ w'.threads, ∀ id, pc.stage.newId w'.shared = some id →
      id.index = index ∧ id.serial ≤ w'.shared.gSessionId ∧
        ∀ i ∈ w'.shared.accepted, i.serial < id.serial := by
  have hmem := List.mem_of_getElem? hpc
  have hout {st : Stage} (hst : st = .outside) {id : SessionID}
      (hid : st.newId w'.shared = some id) :
      False := by
    subst hst
    cases hid
  cases hn with
  | same hid hacc hg _ _ hstage =>
    rw [hacc, hg]
    refine Pool.forall_threads ht (fun q hq => ?_) ?_
    · rw [Stage.newId_congr hid]
      exact h.fresh q hq
    · rcases hstage with hst | hst
      · rw [hst, Stage.newId_congr hid]
        exact h.fresh pc hmem
      · exact fun id hid => (hout hst hid).elim
  | giveBack _ hid hacc hg _ _ hstage =>
    rw [hacc, hg]
    refine Pool.forall_threads ht (fun q hq => ?_) fun id hid => (hout hstage hid).elim
    rw [Stage.newId_congr hid]
    exact h.fresh q hq
  | draw others _ _ hpos hid hacc hg _ _ hstage =>
    rw [hacc, hg]
    refine Pool.forall_threads ht (fun q hq id hid' => ?_) ?_
    · exact (hout (outside_of_waiting h.counted (by omega) hq) hid').elim
    · rw [hstage]
      rintro id ⟨⟩
      exact ⟨rfl, le_rfl, fun i hi => by have := (h.drawn i hi).2; simp only; omega⟩
  | name id hold hid hacc hg _ _ hnew =>
    rw [hacc, hg]
    refine Pool.forall_threads_of_others ht (fun j q hj hq i hi => ?_) ?_
    · exact (hout (stage_unique h.counted hj hpc hq (by rw [hold]; simp [Pc.stage])) hi).elim
    · rw [hnew]
      intro i hi
      refine h.fresh pc hmem i ?_
      rw [hold]
      exact (congrArg some hid.symm).trans hi
  | openUp hold _ hacc hg _ _ hstage =>
    refine Pool.forall_threads_of_others ht (fun j q hj hq i hi => ?_) ?_
    · exact (hout (stage_unique h.counted hj hpc hq (by rw [hold]; simp [Pc.stage])) hi).elim
    · exact fun i hi => (hout hstage hi).elim
  | post hold hid hacc hg _ hstage =>
    have howed := Pool.le_total Pc.owed hmem
    refine Pool.forall_threads ht (fun q hq i hi => ?_) fun i hi => (hout hstage hi).elim
    exact (hout (outside_of_waiting h.counted (by omega) hq) hi).elim
  | take hpos hid hacc hg _ _ hstage =>
    refine Pool.forall_threads ht (fun q hq i hi => ?_) fun i hi => ?_
    · exact (hout (outside_of_waiting h.counted (by omega) hq) hi).elim
    · rw [hstage] at hi
      cases hi

/-- A released slot still carries the id it was opened under. -/
theorem Sound.releasing_step (h : Sound index w) (hpc : w.threads[e.1]? = some pc)
    (ht : w'.threads = w.threads.set e.1 pc') (hn : Naming index w.shared pc e.2 w'.shared pc') :
    (0 < w'.shared.releasePosted → w'.shared.sessionId ∈ w'.shared.accepted) ∧
      ∀ pc ∈ w'.threads, pc.stage = .releasing → w'.shared.sessionId ∈ w'.shared.accepted := by
  have hmem := List.mem_of_getElem? hpc
  have hone := h.counted.one
  simp only [life] at hone
  -- a step of `AcceptThread` while it closes the slot leaves no other closer
  have halone (hst : pc.stage ≠ .outside) (hrel : w'.shared.releasePosted = w.shared.releasePosted)
      (hst' : pc'.stage ≠ .releasing) :
      (0 < w'.shared.releasePosted → w'.shared.sessionId ∈ w'.shared.accepted) ∧
        ∀ pc ∈ w'.threads, pc.stage = .releasing → w'.shared.sessionId ∈ w'.shared.accepted := by
    refine ⟨fun hpos => ?_, ?_⟩
    · exact absurd (outside_of_waiting h.counted (by omega) hmem) hst
    · refine Pool.forall_threads_of_others ht (fun j q hj hq hr => ?_) fun hr => absurd hr hst'
      exact absurd ((stage_unique h.counted hj hpc hq hst).symm.trans hr) (by decide)
  cases hn with
  | same hid hacc hg hrel _ hstage =>
    rw [hid, hacc, hrel]
    refine ⟨h.posted, Pool.forall_threads ht h.releasing fun hr => ?_⟩
    rcases hstage with hst | hst
    · exact h.releasing pc hmem (hst ▸ hr)
    · rw [hst] at hr
      cases hr
  | draw others _ _ hpos hid hacc hg hrel _ hstage =>
    rw [hid, hacc, hrel]
    refine ⟨h.posted, Pool.forall_threads ht h.releasing fun hr => ?_⟩
    rw [hstage] at hr
    cases hr
  | giveBack _ hid hacc hg hrel _ hstage =>
    rw [hid, hacc, hrel]
    refine ⟨h.posted, Pool.forall_threads ht h.releasing fun hr => ?_⟩
    rw [hstage] at hr
    cases hr
  | name id hold hid hacc hg hrel _ hnew =>
    exact halone (by rw [hold]; simp [Pc.stage]) hrel (by rw [hnew]; simp [Pc.stage])
  | openUp hold hid hacc hg hrel _ hstage =>
    exact halone (by rw [hold]; simp [Pc.stage]) hrel (by rw [hstage]; simp)
  | post hold hid hacc hg _ hstage =>
    have howed := Pool.le_total Pc.owed hmem
    have hlog := h.logged
    rw [Logged, if_pos (by simp only [life]; omega)] at hlog
    have hin : w'.shared.sessionId ∈ w'.shared.accepted := by
      rw [hid, hacc, show w.shared.accepted = _ from hlog]
      exact List.mem_append_right _ List.mem_cons_self
    exact ⟨fun _ => hin, fun _ _ _ => hin⟩
  | take hpos hid hacc hg hrel _ hstage =>
    rw [hid, hacc]
    exact ⟨fun _ => h.posted hpos, fun _ _ _ => h.posted hpos⟩

/-- The references found keep their session. -/
theorem Sound.held_step (h : Sound index w) (hpc : w.threads[e.1]? = some pc)
    (ht : w'.threads = w.threads.set e.1 pc') (hn : Naming index w.shared pc e.2 w'.shared pc')
    (hf : Found w.shared pc pc') : ∀ pc ∈ w'.threads, ∀ id ∈ pc.held, w'.shared.sessionId = id := by
  have hmem := List.mem_of_getElem? hpc
  have hsame (hid : w'.shared.sessionId = w.shared.sessionId) :
      ∀ pc ∈ w'.threads, ∀ id ∈ pc.held, w'.shared.sessionId = id := by
    rw [hid]
    refine Pool.forall_threads ht h.held fun id hid' => ?_
    rcases hf id hid' with hold | hs
    · exact h.held pc hmem id hold
    · exact hs
  cases hn with
  | same hid => exact hsame hid
  | draw _ _ _ _ hid => exact hsame hid
  | giveBack _ hid => exact hsame hid
  | openUp _ hid => exact hsame hid
  | post _ hid => exact hsame hid
  | take _ hid => exact hsame hid
  | name id hold hid _ _ _ _ hnew =>
    have hst : pc.stage ≠ .outside := by rw [hold]; simp [Pc.stage]
    refine Pool.forall_threads ht (fun q hq i hi => ?_) fun i hi => ?_
    · rw [held_nil_of_stage h.counted hmem hst hq] at hi
      cases hi
    · rw [hnew] at hi
      cases hi

/-- **Every step keeps the slot sound**, as long as the references stay few. -/
theorem Sound.step (h : Sound index w) (hst : Slot.step index w e = some w')
    (hfew : FewRefs w') : Sound index w' := by
  obtain ⟨pc, pc', hpc, hnext, ht⟩ := Pool.step_eq_some hst
  have hlife := life_step hst h.indexed
  have hn := next_naming hnext
  have hle : (life w).pinned ≤ (life w).refs := by
    simp only [life, Pool.total]
    exact Nat.add_le_add_left (List.sum_le_sum fun pc _ => pc.pinned_le) _
  exact {
    few := hfew
    counted := h.counted.step hlife h.few hfew hle
    logged := h.logged.step h.counted hlife
    sorted := (h.sorted_step hpc hn).1
    drawn := (h.sorted_step hpc hn).2
    fresh := h.fresh_step hpc ht hn
    posted := (h.releasing_step hpc ht hn).1
    releasing := (h.releasing_step hpc ht hn).2
    held := h.held_step hpc ht hn (next_found hnext) }

/-- **Every run keeps the slot sound.** -/
theorem Sound.run [Inhabited Buf] {n : ℕ}
    (h : Runs (Slot.step index) (fun _ _ => FewRefs) (World.initial n) w) : Sound index w :=
  h.invariant (Sound.initial n) Sound.step

end Step

/-! ## What a reference is worth -/

section Consequences

variable {w : World Buf}

/-- A pinned reference is on an incarnation that has not been posted. -/
theorem Sound.unreleased (h : Sound index w) {pc : Pc Buf} (hpc : pc ∈ w.threads)
    (hpin : 0 < pc.pinned) :
    w.shared.accepted = w.shared.posted ++ [w.shared.sessionId] ∧
      ∀ q ∈ w.threads, q.stage = .outside := by
  have hle := Pool.le_total Pc.pinned hpc
  have hopen := h.counted.pinned
  have hlog := h.logged
  simp only [life] at hopen
  rw [Logged, if_pos (by simp only [life]; omega)] at hlog
  refine ⟨hlog, fun q hq => ?_⟩
  have hcl := q.closed_eq
  rw [Pool.eq_zero_of_total (f := Pc.closed) (by omega) hq] at hcl
  by_contra hne
  rw [if_neg hne] at hcl
  cases hcl

/-- **`FindSession` answers only for the session it was asked for**, and
only while that session is not released. -/
theorem Sound.find (h : Sound index w) {id : SessionID} {result : ℤ} {use : Use Buf}
    (hpc : Pc.findCheck id result use ∈ w.threads)
    (hok : ¬(RELEASE_FLAG < result ∨ w.shared.sessionId ≠ id)) :
    w.shared.accepted = w.shared.posted ++ [id] := by
  have hid : w.shared.sessionId = id := by tauto
  rw [← hid]
  refine (h.unreleased hpc ?_).1
  simp only [Pc.pinned]
  rw [if_neg (by tauto)]
  omega

/-- **While the reference is held, the slot is neither reset nor renamed.** -/
theorem Sound.pinned (h : Sound index w) {pc : Pc Buf} (hpc : pc ∈ w.threads) {id : SessionID}
    (hid : id ∈ pc.held) :
    w.shared.sessionId = id ∧ w.shared.accepted = w.shared.posted ++ [id] ∧
      ∀ q ∈ w.threads, q.stage = .outside := by
  have hs := h.held pc hpc id hid
  have hpin : 0 < pc.pinned := (List.length_pos_of_mem hid).trans_le pc.held_length_le
  rw [← hs]
  exact ⟨rfl, h.unreleased hpc hpin⟩

/-- **A post comes after the last reference was given back**: no thread
holds one, and no operation is in flight. -/
theorem Sound.last (h : Sound index w) {pc : Pc Buf} (hpc : pc ∈ w.threads) (howed : 0 < pc.owed) :
    w.shared.io = 0 ∧ ∀ q ∈ w.threads, q.pinned = 0 := by
  have hle := Pool.le_total Pc.owed hpc
  have hpin := h.counted.pinned
  simp only [life] at hpin
  exact ⟨by omega, fun q hq => Pool.eq_zero_of_total (f := Pc.pinned) (by omega) hq⟩

/-- **Nothing is posted twice**, and nothing that was not opened. -/
theorem Sound.posted_once (h : Sound index w) :
    w.shared.accepted.Nodup ∧
      (w.shared.accepted = w.shared.posted ∨
        w.shared.accepted = w.shared.posted ++ [w.shared.sessionId]) := by
  refine ⟨h.sorted.imp fun hlt heq => ?_, ?_⟩
  · rw [heq] at hlt
    exact lt_irrefl _ hlt
  · have hlog := h.logged
    unfold Logged at hlog
    split at hlog
    · exact .inr hlog
    · exact .inl hlog

/-- **Nothing is left unposted**: once no thread uses the slot and no
operation is in flight, every incarnation was posted. -/
theorem Sound.posted_all (h : Sound index w) (hio : w.shared.io = 0)
    (hidle : ∀ pc ∈ w.threads, pc = .idle) : w.shared.accepted = w.shared.posted := by
  have hzero (f : Pc Buf → ℕ) (hf : f .idle = 0) : w.total f = 0 :=
    Pool.total_of_forall_eq hidle hf
  have hcl := h.counted.closed_of_unused (by simp only [life]; rw [hio, hzero _ rfl])
    (hzero _ rfl) (hzero _ rfl)
  have hlog := h.logged
  rw [Logged, if_neg (by omega)] at hlog
  exact hlog

/-! ### An incarnation from one state to the next -/

/-- **The flag is clear exactly while the slot is open.** -/
theorem Sound.open_iff (h : Sound index w) :
    w.shared.refCount < RELEASE_FLAG ↔ (life w).owed + (life w).closed = 0 := by
  have hone := h.counted.one
  have hopen := h.counted.count_open
  have hclosed := h.counted.count_closed
  have hfew : ((life w).refs : ℤ) < RELEASE_FLAG := h.few
  change (life w).count < RELEASE_FLAG ↔ _
  constructor
  · intro hlt
    by_contra hne
    have := hclosed (by omega)
    omega
  · intro hz
    rw [hopen hz]
    exact hfew

/-- A slot with a pinned reference is open. -/
theorem Sound.open_of_pinned (h : Sound index w) {pc : Pc Buf} (hpc : pc ∈ w.threads)
    (hpin : 0 < pc.pinned) : w.shared.refCount < RELEASE_FLAG := by
  have hle := Pool.le_total Pc.pinned hpc
  exact h.open_iff.2 (h.counted.pinned (by simp only [life]; omega))

/-- A slot with an operation in flight is open. -/
theorem Sound.open_of_io (h : Sound index w) (hio : 0 < w.shared.io) :
    w.shared.refCount < RELEASE_FLAG :=
  h.open_iff.2 (h.counted.pinned (by simp only [life]; omega))

/-- No thread works on the life of an open slot. -/
theorem Sound.outside_of_open (h : Sound index w) (hopen : w.shared.refCount < RELEASE_FLAG)
    {pc : Pc Buf} (hpc : pc ∈ w.threads) : pc.stage = .outside := by
  have hz := h.open_iff.1 hopen
  simp only [life] at hz
  have hcl := pc.closed_eq
  rw [Pool.eq_zero_of_total (f := Pc.closed) (by omega) hpc] at hcl
  by_contra hne
  rw [if_neg hne] at hcl
  cases hcl

section Back

variable {w' : World Buf} {e : ℕ × Event Buf} {pc pc' : Pc Buf} {id : SessionID}

theorem Naming.accepted_mem {s s' : Slot Buf} {ev : Event Buf} (h : Naming index s pc ev s' pc')
    (hid : id ∈ s.accepted) : id ∈ s'.accepted := by
  cases h with
  | openUp _ _ hacc => rw [hacc]; exact List.mem_append_left _ hid
  | same _ hacc | draw _ _ _ _ _ hacc | name _ _ _ hacc | post _ _ hacc | take _ _ hacc
  | giveBack _ _ hacc => rwa [hacc]

/-- The slot gets another name only at `SetSessionId`. -/
theorem Naming.sessionId_cases {s s' : Slot Buf} {ev : Event Buf}
    (h : Naming index s pc ev s' pc') :
    s'.sessionId = s.sessionId ∨ ∃ id, pc = .acceptSetId id ∧ s'.sessionId = id := by
  cases h with
  | name id hold hid => exact .inr ⟨id, hold, hid⟩
  | same hid | draw _ _ _ _ hid | openUp _ hid | post _ hid | take _ hid | giveBack _ hid =>
    exact .inl hid

/-- A name once given is not given again. -/
theorem Sound.sessionId_back (h : Sound index w) (hpc : w.threads[e.1]? = some pc)
    (hn : Naming index w.shared pc e.2 w'.shared pc') (hacc : id ∈ w.shared.accepted)
    (hid : w'.shared.sessionId = id) : w.shared.sessionId = id := by
  cases hn with
  | same hs | draw _ _ _ _ hs | openUp _ hs | post _ hs | take _ hs | giveBack _ hs =>
    rw [← hs, hid]
  | name i hold hs =>
    obtain ⟨-, -, hlt⟩ := h.fresh pc (List.mem_of_getElem? hpc) i (by rw [hold]; rfl)
    have := hlt id hacc
    rw [← hs, hid] at this
    exact absurd this (lt_irrefl _)

/-- **An incarnation that is open after a step was open before it**, but for
the step that opens it. -/
theorem Sound.open_back (h : Sound index w) (h' : Sound index w')
    (hst : Slot.step index w e = some w') (hacc : id ∈ w.shared.accepted)
    (hid : w'.shared.sessionId = id) (hopen : w'.shared.refCount < RELEASE_FLAG) :
    w.shared.refCount < RELEASE_FLAG := by
  rcases (life_step hst h.indexed).reopened (h'.open_iff.1 hopen) with hz | ⟨hsame, hopened⟩
  · exact h.open_iff.2 hz
  · -- the name just opened is new
    have hnodup := h'.posted_once.1
    have hid' : w.shared.sessionId = id := hsame.symm.trans hid
    rw [show w'.shared.accepted = w.shared.accepted ++ [w.shared.sessionId] from hopened, hid',
      List.nodup_append] at hnodup
    exact absurd rfl (hnodup.2.2 id hacc id List.mem_cons_self)

/-- An open slot keeps its name. -/
theorem Sound.sessionId_eq (h : Sound index w) (hpc : w.threads[e.1]? = some pc)
    (hn : Naming index w.shared pc e.2 w'.shared pc')
    (hopen : w.shared.refCount < RELEASE_FLAG) : w'.shared.sessionId = w.shared.sessionId := by
  cases hn with
  | same hs | draw _ _ _ _ hs | openUp _ hs | post _ hs | take _ hs | giveBack _ hs => exact hs
  | name i hold =>
    have := h.outside_of_open hopen (List.mem_of_getElem? hpc)
    rw [hold] at this
    cases this

end Back

end Consequences

end Slot

end NetLib
