import NetLib.Slot.Pinning
/-!
# A disconnect and the pending receive

`Close` clears `_connect` and then cancels what is pending. `RecvNotIncrease`
tests `_connect`, posts, and tests `_connect` again when the receive went
pending. Whichever comes first, a receive that stays pending on a session
with `_connect` cleared has a thread on its way to cancel it (`Caught`); and
once `_connect` is cleared nothing is posted until the next `OnConnect`.
-/

namespace NetLib

namespace Slot

open Lifecycle

variable {Buf : Type} {index : ℕ}

/-! ## Who closes and who posts -/

/-- Receives that are pending: neither cancelled nor completed. -/
def pendingRecv (s : Slot Buf) : ℕ := s.recvIo - s.recvReady

/-- A thread in `DisconnectSession` of the session, before `Close`. One whose
`IncreaseRef` saw the release flag will find nothing. -/
def Pc.closes (id : SessionID) : Pc Buf → Prop
  | .find i (.disconnect _) | .close i _ => i = id
  | .findCheck i result (.disconnect _) => i = id ∧ result ≤ RELEASE_FLAG
  | _ => False

/-- A thread that will cancel what the session has pending, if `_connect` is
still clear when it looks. -/
def Pc.cancels (id : SessionID) : Pc Buf → Prop
  | .cancel i _ | .recvRecheck i => i = id
  | .recvCancel => True
  | pc => pc.closes id

/-- The two points of the receive path that matter to a disconnect. -/
inductive RecvPoint
  | post
  | connect
  | other
  deriving DecidableEq

def Pc.recvPoint : Pc Buf → RecvPoint
  | .wsaRecv => .post
  | .acceptConnect => .connect
  | _ => .other

@[simp] theorem After.pc_recvPoint (k : After) : (k.pc : Pc Buf).recvPoint = .other := by
  cases k <;> rfl

@[simp] theorem Use.found_recvPoint (id : SessionID) (use : Use Buf) :
    (use.found id).recvPoint = .other := by cases use <;> rfl

@[simp] theorem Sender.canSend_recvPoint (c : Sender) :
    (c.canSend : Pc Buf).recvPoint = .other := by cases c <;> rfl

@[simp] theorem Drain.empty_recvPoint (d : Drain Buf) : d.empty.recvPoint = .other := by
  rcases d with ⟨c, _ | _⟩ | r <;> rfl

/-- What an action does to `_connect`, to the pending receives and to the
threads that look after them. -/
structure Watch (s : Slot Buf) (pc : Pc Buf) (s' : Slot Buf) (pc' : Pc Buf) : Prop where
  connect : s'.connect = s.connect ∨ s'.connect = false ∧ pc'.cancels s'.sessionId ∨
    pc.recvPoint = .connect ∧ s'.connect = true
  post : pc'.recvPoint = .post → pc = .recvConnect ∧ s.connect = true
  connecting : pc'.recvPoint = .connect → pc = .acceptOffFlag
  pending : s'.pendingRecv ≤ s.pendingRecv ∨ pc.recvPoint = .post ∧ pc'.cancels s'.sessionId
  closes : s'.refCount ≤ RELEASE_FLAG → pc.closes s.sessionId →
    pc'.closes s.sessionId ∨ s'.connect = false
  cancels : s'.refCount ≤ RELEASE_FLAG → s'.connect = false → pc.cancels s.sessionId →
    pc'.cancels s.sessionId ∨ s'.pendingRecv = 0

/-- An action that leads to none of the points that matter. -/
theorem Watch.of_other {s s' : Slot Buf} {pc pc' : Pc Buf} (hpoint : pc'.recvPoint = .other)
    (hconnect : s'.connect = s.connect ∨ s'.connect = false ∧ pc'.cancels s'.sessionId ∨
      pc.recvPoint = .connect ∧ s'.connect = true)
    (hpending : s'.pendingRecv ≤ s.pendingRecv ∨
      pc.recvPoint = .post ∧ pc'.cancels s'.sessionId)
    (hcloses : s'.refCount ≤ RELEASE_FLAG → pc.closes s.sessionId →
      pc'.closes s.sessionId ∨ s'.connect = false)
    (hcancels : s'.refCount ≤ RELEASE_FLAG → s'.connect = false → pc.cancels s.sessionId →
      pc'.cancels s.sessionId ∨ s'.pendingRecv = 0) : Watch s pc s' pc' where
  connect := hconnect
  post h := by rw [hpoint] at h; cases h
  connecting h := by rw [hpoint] at h; cases h
  pending := hpending
  closes := hcloses
  cancels := hcancels

/-- An action that has no part in it. -/
theorem Watch.aside {s s' : Slot Buf} {pc pc' : Pc Buf} (hconn : s'.connect = s.connect)
    (hpend : s'.pendingRecv ≤ s.pendingRecv) (hpoint : pc'.recvPoint = .other)
    (hcloses : ∀ id, ¬pc.closes id) (hcancels : ∀ id, ¬pc.cancels id) : Watch s pc s' pc' :=
  .of_other hpoint (.inl hconn) (.inl hpend) (fun _ h => (hcloses _ h).elim)
    fun _ _ h => (hcancels _ h).elim

/-- The same, for an action that leaves the fields alone. -/
theorem Watch.quiet {s s' : Slot Buf} {pc pc' : Pc Buf} (hconn : s'.connect = s.connect)
    (hpend : s'.pendingRecv = s.pendingRecv) (hpoint : pc'.recvPoint = .other)
    (hcloses : ∀ id, ¬pc.closes id) (hcancels : ∀ id, ¬pc.cancels id) : Watch s pc s' pc' :=
  .aside hconn hpend.le hpoint hcloses hcancels

theorem nextRef_watch {s s' : Slot Buf} {pc pc' : Pc Buf} (h : nextRef s pc = some (s', pc'))
    (hheld : ∀ id ∈ pc.held, s.sessionId = id) : Watch s pc s' pc' := by
  cases pc <;> simp only [nextRef, Option.some.injEq, Prod.mk.injEq, reduceCtorEq] at h
  case find id use =>
    obtain ⟨rfl, rfl⟩ := h
    have hcloses (hle : s.refCount + 1 ≤ RELEASE_FLAG) (hc : (Pc.find id use).closes s.sessionId) :
        (Pc.findCheck id (s.refCount + 1) use).closes s.sessionId := by
      cases use with
      | disconnect k => exact ⟨hc, hle⟩
      | _ => exact hc
    exact .of_other rfl (.inl rfl) (.inl le_rfl) (fun hle hc => .inl (hcloses hle hc))
      fun hle _ hc => .inl (hcloses hle hc)
  case findCheck id result use =>
    split at h <;> rename_i hok <;> obtain ⟨rfl, rfl⟩ := Option.some.inj h
    · -- whoever saw the flag clear and asks for the slot's session is answered
      have hfound : ¬(Pc.findCheck id result use).closes s.sessionId := by
        intro hc
        cases use with
        | disconnect k =>
          obtain ⟨rfl, hle⟩ := hc
          rcases hok with hlt | hne
          · omega
          · exact hne rfl
        | _ => exact hc
      exact .of_other rfl (.inl rfl) (.inl le_rfl) (fun _ hc => (hfound hc).elim)
        fun _ _ hc => (hfound hc).elim
    · cases use with
      | disconnect k =>
        exact .of_other rfl (.inl rfl) (.inl le_rfl) (fun _ hc => .inl hc.1) fun _ _ hc => .inl hc.1
      | _ => exact .quiet rfl rfl rfl (fun _ hc => hc) (fun _ hc => hc)
  case close id k =>
    obtain ⟨rfl, rfl⟩ := h
    have hid : s.sessionId = id := hheld id List.mem_cons_self
    exact .of_other rfl (.inr (.inl ⟨rfl, hid.symm⟩)) (.inl le_rfl) (fun _ _ => .inr rfl)
      fun _ _ hc => .inl hc
  case cancel id k =>
    obtain ⟨rfl, rfl⟩ := h
    have hzero : s.cancelIo.pendingRecv = 0 := by
      simp only [pendingRecv, cancelIo]
      omega
    exact .of_other rfl (.inl rfl) (.inl (by omega)) (fun _ hc => hc.elim) fun _ _ _ => .inr hzero
  case release pin k =>
    obtain ⟨rfl, rfl⟩ := h
    refine .quiet rfl rfl ?_ (fun _ => id) (fun _ => id)
    split
    · rfl
    · exact k.pc_recvPoint
  case releaseCas k =>
    split at h <;> obtain ⟨rfl, rfl⟩ := h
    · exact .quiet rfl rfl rfl (fun _ => id) (fun _ => id)
    · exact .quiet rfl rfl k.pc_recvPoint (fun _ => id) (fun _ => id)
  case postRelease k =>
    obtain ⟨rfl, rfl⟩ := h
    exact .quiet rfl rfl k.pc_recvPoint (fun _ => id) (fun _ => id)
  case holding =>
    obtain ⟨rfl, rfl⟩ := h
    exact .quiet rfl rfl rfl (fun _ => id) (fun _ => id)

theorem nextSend_watch {s s' : Slot Buf} {pc pc' : Pc Buf} (h : nextSend s pc = some (s', pc')) :
    Watch s pc s' pc' := by
  cases pc <;> simp only [nextSend, Option.some.injEq, Prod.mk.injEq, reduceCtorEq] at h
  case enqLoad | canExchange =>
    split at h <;> obtain ⟨rfl, rfl⟩ := h <;>
      exact .quiet rfl rfl rfl (fun _ => id) (fun _ => id)
  case enqPublish =>
    split at h
    · cases h
    · obtain ⟨rfl, rfl⟩ := Option.some.inj h
      exact .quiet rfl rfl rfl (fun _ => id) (fun _ => id)
  case canConnect | canRef =>
    obtain ⟨rfl, rfl⟩ := h
    refine .quiet rfl rfl ?_ (fun _ => id) (fun _ => id)
    split <;> rfl
  case canTail c first head =>
    split at h <;> obtain ⟨rfl, rfl⟩ := h <;>
      refine .quiet rfl rfl ?_ (fun _ => id) (fun _ => id) <;>
      cases first <;> first | rfl | exact c.canSend_recvPoint
  case enqTicket | enqPut | enqFull | canHead | canClear | postSendExecutable =>
    obtain ⟨rfl, rfl⟩ := h
    exact .quiet rfl rfl rfl (fun _ => id) (fun _ => id)

theorem nextRealSend_watch {s s' : Slot Buf} {pc pc' : Pc Buf} {e : Event Buf}
    (h : nextRealSend s pc e = some (s', pc')) : Watch s pc s' pc' := by
  cases pc <;> simp only [nextRealSend, Option.some.injEq, Prod.mk.injEq, reduceCtorEq] at h
  case realSendCheck =>
    obtain ⟨rfl, rfl⟩ := h
    refine .quiet rfl rfl ?_ (fun _ => id) (fun _ => id)
    split <;> rfl
  case realSendTail =>
    split at h
    · cases h
    · obtain ⟨rfl, rfl⟩ := Option.some.inj h
      exact .quiet rfl rfl rfl (fun _ => id) (fun _ => id)
  case wsaSend c bufs =>
    cases e <;> simp only [reduceCtorEq] at h
    split at h <;> obtain ⟨rfl, rfl⟩ := Option.some.inj h
    · exact .quiet rfl rfl rfl (fun _ => id) (fun _ => id)
    · exact .quiet rfl rfl c.after.pc_recvPoint (fun _ => id) (fun _ => id)
  case deqLoad d head =>
    obtain ⟨rfl, rfl⟩ := h
    refine .quiet rfl rfl ?_ (fun _ => id) (fun _ => id)
    split
    · rfl
    · exact d.empty_recvPoint
  case deqCas d head =>
    split at h <;> obtain ⟨rfl, rfl⟩ := h <;>
      exact .quiet rfl rfl rfl (fun _ => id) (fun _ => id)
  case deqClear d head b =>
    split at h
    · cases d <;> obtain ⟨rfl, rfl⟩ := Option.some.inj h
      · refine .quiet rfl rfl ?_ (fun _ => id) (fun _ => id)
        split <;> rfl
      · exact .quiet rfl rfl rfl (fun _ => id) (fun _ => id)
    · cases h
  case postSendRelease i =>
    split at h
    · obtain ⟨b, -, hb⟩ := Option.map_eq_some_iff.1 h
      obtain ⟨rfl, rfl⟩ := hb
      exact .quiet rfl rfl rfl (fun _ => id) (fun _ => id)
    · obtain ⟨rfl, rfl⟩ := Option.some.inj h
      exact .quiet rfl rfl rfl (fun _ => id) (fun _ => id)
  case realSend | realSendHead | realSendStore | deqHead | deqData | postSendClear =>
    obtain ⟨rfl, rfl⟩ := h
    exact .quiet rfl rfl rfl (fun _ => id) (fun _ => id)

theorem nextLife_watch {s s' : Slot Buf} {pc pc' : Pc Buf} {e : Event Buf}
    (h : nextLife index s pc e = some (s', pc')) : Watch s pc s' pc' := by
  cases pc <;> simp only [nextLife, Option.some.injEq, Prod.mk.injEq, reduceCtorEq] at h
  case recvExecute =>
    cases e <;> simp only [reduceCtorEq] at h <;> obtain ⟨rfl, rfl⟩ := Option.some.inj h
    · exact .quiet rfl rfl rfl (fun _ => id) (fun _ => id)
    · exact .of_other rfl (.inr (.inl ⟨rfl, trivial⟩)) (.inl le_rfl) (fun _ hc => hc.elim)
        fun _ _ hc => hc.elim
  case recvCancel =>
    obtain ⟨rfl, rfl⟩ := h
    have hzero : s.cancelIo.pendingRecv = 0 := by
      simp only [pendingRecv, cancelIo]
      omega
    exact .of_other rfl (.inl rfl) (.inl (by omega)) (fun _ hc => hc.elim) fun _ _ _ => .inr hzero
  case recvRef | timeoutRef =>
    obtain ⟨rfl, rfl⟩ := h
    refine .quiet rfl rfl ?_ (fun _ => id) (fun _ => id)
    split <;> rfl
  case recvConnect =>
    obtain ⟨rfl, rfl⟩ := h
    refine ⟨.inl rfl, fun hp => ⟨rfl, ?_⟩, fun hp => ?_, .inl le_rfl, fun _ hc => hc.elim,
      fun _ _ hc => hc.elim⟩
    · by_contra hconn
      rw [if_neg hconn] at hp
      cases hp
    · split at hp <;> cases hp
  case recvRecheck id =>
    obtain ⟨rfl, rfl⟩ := h
    refine ⟨.inl rfl, fun hp => ?_, fun hp => ?_, .inl le_rfl, fun _ hc => hc.elim,
      fun _ hconn hc => .inl ?_⟩
    · split at hp <;> cases hp
    · split at hp <;> cases hp
    · rw [if_neg (by rw [hconn]; decide)]
      exact hc
  case wsaRecv =>
    have hsucc : s.recvIo + 1 - (s.recvReady + 1) = s.recvIo - s.recvReady := by omega
    cases e with
    | result r =>
      cases r <;> obtain ⟨rfl, rfl⟩ := Option.some.inj h
      · exact .quiet rfl hsucc rfl (fun _ => id) (fun _ => id)
      · exact .of_other rfl (.inl rfl) (.inr ⟨rfl, rfl⟩) (fun _ hc => hc.elim)
          fun _ _ hc => hc.elim
      · exact .quiet rfl rfl rfl (fun _ => id) (fun _ => id)
    | _ => cases h
  case acceptConnect =>
    obtain ⟨rfl, rfl⟩ := h
    exact .of_other rfl (.inr (.inr ⟨rfl, rfl⟩)) (.inl le_rfl) (fun _ hc => hc.elim)
      fun _ _ hc => hc.elim
  case acceptOffFlag =>
    obtain ⟨rfl, rfl⟩ := h
    exact ⟨.inl rfl, (fun hp => by cases hp), fun _ => rfl, .inl le_rfl, fun _ hc => hc.elim,
      fun _ _ hc => hc.elim⟩
  case resetSending r =>
    obtain ⟨rfl, rfl⟩ := h
    refine .quiet rfl rfl ?_ (fun _ => id) (fun _ => id)
    cases r <;> rfl
  case timeoutInc | acceptIncreaseRef | acceptSetId | onDisconnect | releaseFreeIndex | reset =>
    obtain ⟨rfl, rfl⟩ := h
    exact .quiet rfl rfl rfl (fun _ => id) (fun _ => id)

theorem start_watch {s s' : Slot Buf} {pc' : Pc Buf} {e : Event Buf}
    (h : start index s e = some (s', pc')) : Watch s .idle s' pc' := by
  cases e <;> simp only [start, Option.some.injEq, Prod.mk.injEq, reduceCtorEq,
    Option.ite_none_right_eq_some] at h
  case hold | disconnect | sendPacket | sendPacketBlocking | timeout =>
    obtain ⟨rfl, rfl⟩ := h
    exact .quiet rfl rfl rfl (fun _ => id) (fun _ => id)
  case sendExecutable =>
    split at h
    · cases h
    · obtain ⟨rfl, rfl⟩ := Option.some.inj h
      exact .quiet rfl rfl rfl (fun _ => id) (fun _ => id)
  case recvReady | recvDone | recvFailed =>
    obtain ⟨hpos, rfl, rfl⟩ := h
    refine .aside rfl ?_ rfl (fun _ => id) (fun _ => id)
    simp only [pendingRecv]
    omega
  case releaseExecutable | accept | recvAborted | sendReady | sendDone | sendFailed |
      sendAborted =>
    obtain ⟨hpos, rfl, rfl⟩ := h
    exact .quiet rfl rfl rfl (fun _ => id) (fun _ => id)

theorem next_watch {s s' : Slot Buf} {pc pc' : Pc Buf} {e : Event Buf}
    (h : next index s pc e = some (s', pc')) (hheld : ∀ id ∈ pc.held, s.sessionId = id) :
    Watch s pc s' pc' := by
  unfold next at h
  split at h
  · exact start_watch h
  all_goals first
    | exact nextRef_watch h hheld | exact nextSend_watch h | exact nextRealSend_watch h
    | exact nextLife_watch h

/-! ## What the runs keep -/

/-- The session whose `DisconnectSession` the step calls. -/
def called (w' : World Buf) (e : ℕ × Event Buf) : Option SessionID :=
  match w'.threads[e.1]? with
  | some (.find id (.disconnect _)) => some id
  | _ => none

/-- `DisconnectSession(id)` is called at or after `OnConnect(id)`: when the
slot was opened for the session and `_connect` was set. -/
def AfterConnect (w : World Buf) (e : ℕ × Event Buf) (w' : World Buf) : Prop :=
  (∀ id ∈ called w' e, id ∈ w.shared.accepted ∧
    (w.shared.sessionId = id → ∀ pc ∈ w.threads, pc.recvPoint ≠ .connect)) ∧ FewRefs w'

instance decidableAfterConnect (w : World Buf) (e : ℕ × Event Buf) (w' : World Buf) :
    Decidable (AfterConnect w e w') := inferInstanceAs (Decidable (_ ∧ _))

/-- A receive that stays pending with `_connect` clear has a thread that
will cancel it. -/
def Caught (w : World Buf) : Prop :=
  w.shared.connect = false → 0 < w.shared.pendingRecv →
    ∃ pc ∈ w.threads, pc.cancels w.shared.sessionId

/-- The session is disconnected: `_connect` is clear, or someone is about to
clear it, and its `OnConnect` is past. -/
structure Disconnected (id : SessionID) (w : World Buf) : Prop where
  accepted : id ∈ w.shared.accepted
  connected : w.shared.sessionId = id → ∀ pc ∈ w.threads, pc.recvPoint ≠ .connect
  closing : w.shared.sessionId = id → w.shared.refCount < RELEASE_FLAG →
    w.shared.connect = false ∨ ∃ pc ∈ w.threads, pc.closes id

/-- The calls in progress have returned, as far as the session is concerned:
no thread is on its way to close or cancel, and none is between the test of
`_connect` and `WSARecv`. -/
def Returned (id : SessionID) (w : World Buf) : Prop :=
  ∀ pc ∈ w.threads, ¬pc.cancels id ∧ pc.recvPoint ≠ .post

/-- The session receives no more. -/
structure Deaf (id : SessionID) (w : World Buf) : Prop where
  disconnected : Disconnected id w
  closed : w.shared.sessionId = id → w.shared.refCount < RELEASE_FLAG → w.shared.connect = false
  pending : w.shared.sessionId = id → w.shared.pendingRecv = 0
  posting : w.shared.sessionId = id → ∀ pc ∈ w.threads, pc.recvPoint ≠ .post

theorem pendingRecv_le_io (s : Slot Buf) : s.pendingRecv ≤ s.io := by
  simp only [pendingRecv, io]
  omega

theorem Pc.cancels_of_closes {id : SessionID} {pc : Pc Buf} (h : pc.closes id) :
    pc.cancels id := by
  cases pc <;> first | exact h | exact h.elim

section Step

variable {w w' : World Buf} {e : ℕ × Event Buf} {pc pc' : Pc Buf} {id : SessionID}

theorem Caught.step (h : Caught w) (hs : Sound index w) (hs' : Sound index w')
    (hst : Slot.step index w e = some w') : Caught w' := by
  obtain ⟨pc, pc', hpc, hnext, ht⟩ := Pool.step_eq_some hst
  have hmem := List.mem_of_getElem? hpc
  have hwatch := next_watch hnext (hs.held pc hmem)
  intro hconn hpend
  have hopen := hs'.open_of_io (hpend.trans_le (pendingRecv_le_io _))
  have hnew := Pool.mem_threads hpc ht
  rcases hwatch.pending with hle | ⟨-, hcan⟩
  · rcases hwatch.connect with heq | ⟨-, hcan⟩ | ⟨-, htrue⟩
    · have hid := hs.sessionId_eq hpc (next_naming hnext)
        (hs.open_of_io (hpend.trans_le (hle.trans (pendingRecv_le_io _))))
      rw [hid]
      rcases Pool.exists_threads hpc ht (h (heq.symm.trans hconn) (hpend.trans_le hle)) with hq | hq
      · rcases hwatch.cancels hopen.le hconn hq with hcan | hzero
        · exact ⟨pc', hnew, hcan⟩
        · omega
      · exact hq
    · exact ⟨pc', hnew, hcan⟩
    · rw [hconn] at htrue
      cases htrue
  · exact ⟨pc', hnew, hcan⟩

/-- A thread comes to `OnConnect` only with a name that is new. -/
theorem Sound.connecting_new (h' : Sound index w') (hacc : id ∈ w.shared.accepted)
    (hn : next index w.shared pc e.2 = some (w'.shared, pc')) (hold : pc = .acceptOffFlag) :
    w'.shared.sessionId ≠ id := by
  subst hold
  obtain ⟨hs, -⟩ := Prod.mk.inj (Option.some.inj hn)
  have hnodup := h'.posted_once.1
  rw [← hs, List.nodup_append] at hnodup
  rw [← hs]
  exact fun heq => hnodup.2.2 id hacc _ List.mem_cons_self heq.symm

theorem Disconnected.step (h : Disconnected id w) (hs : Sound index w) (hs' : Sound index w')
    (hst : Slot.step index w e = some w') : Disconnected id w' := by
  obtain ⟨pc, pc', hpc, hnext, ht⟩ := Pool.step_eq_some hst
  have hmem := List.mem_of_getElem? hpc
  have hwatch := next_watch hnext (hs.held pc hmem)
  have hn := next_naming hnext
  have hback := hs.sessionId_back hpc hn h.accepted
  refine ⟨hn.accepted_mem h.accepted, fun hid => ?_, fun hid hopen => ?_⟩
  · refine Pool.forall_threads ht (h.connected (hback hid)) fun hcon => ?_
    exact hs'.connecting_new h.accepted hnext (hwatch.connecting hcon) hid
  · have hid₀ := hback hid
    have hopen₀ := hs.open_back hs' hst h.accepted hid hopen
    rcases hwatch.connect with heq | ⟨hfalse, -⟩ | ⟨hcon, -⟩
    · rcases h.closing hid₀ hopen₀ with hfalse | hq
      · exact .inl (heq.trans hfalse)
      · rcases Pool.exists_threads hpc ht hq with hq | hq
        · rw [← hid₀] at hq ⊢
          rcases hwatch.closes hopen.le hq with hq | hfalse
          · exact .inr ⟨pc', Pool.mem_threads hpc ht, hq⟩
          · exact .inl hfalse
        · exact .inr hq
    · exact .inl hfalse
    · exact absurd hcon (h.connected hid₀ pc hmem)

theorem Deaf.step (h : Deaf id w) (hs : Sound index w) (hs' : Sound index w')
    (hst : Slot.step index w e = some w') : Deaf id w' := by
  obtain ⟨pc, pc', hpc, hnext, ht⟩ := Pool.step_eq_some hst
  have hmem := List.mem_of_getElem? hpc
  have hwatch := next_watch hnext (hs.held pc hmem)
  have hback := hs.sessionId_back hpc (next_naming hnext) h.disconnected.accepted
  refine ⟨h.disconnected.step hs hs' hst, fun hid hopen => ?_, fun hid => ?_, fun hid => ?_⟩
  · have hopen₀ := hs.open_back hs' hst h.disconnected.accepted hid hopen
    rcases hwatch.connect with heq | ⟨hfalse, -⟩ | ⟨hcon, -⟩
    · exact heq.trans (h.closed (hback hid) hopen₀)
    · exact hfalse
    · exact absurd hcon (h.disconnected.connected (hback hid) pc hmem)
  · rcases hwatch.pending with hle | ⟨hpost, -⟩
    · exact Nat.le_zero.1 (hle.trans (h.pending (hback hid)).le)
    · exact absurd hpost (h.posting (hback hid) pc hmem)
  · refine Pool.forall_threads ht (h.posting (hback hid)) fun hpost => ?_
    obtain ⟨rfl, htrue⟩ := hwatch.post hpost
    -- the reference of `RecvNotIncrease` keeps the session open
    have hfalse := h.closed (hback hid) (hs.open_of_pinned hmem Nat.one_pos)
    rw [htrue] at hfalse
    cases hfalse

/-- **Once the calls have returned, the session receives no more.** -/
theorem Deaf.of_returned (h : Disconnected id w) (hs : Sound index w) (hc : Caught w)
    (hr : Returned id w) : Deaf id w := by
  have hclosed (hid : w.shared.sessionId = id) (hopen : w.shared.refCount < RELEASE_FLAG) :
      w.shared.connect = false := by
    rcases h.closing hid hopen with hfalse | ⟨pc, hpc, hcl⟩
    · exact hfalse
    · exact absurd (Pc.cancels_of_closes hcl) (hr pc hpc).1
  refine ⟨h, hclosed, fun hid => ?_, fun _ pc hpc => (hr pc hpc).2⟩
  by_contra hne
  have hpend : 0 < w.shared.pendingRecv := Nat.pos_of_ne_zero hne
  have hopen := hs.open_of_io (hpend.trans_le (pendingRecv_le_io _))
  obtain ⟨pc, hpc, hcan⟩ := hc (hclosed hid hopen) hpend
  exact (hr pc hpc).1 (hid ▸ hcan)

/-- `DisconnectSession` is called. -/
theorem Disconnected.of_called (hs : Sound index w) (hst : Slot.step index w e = some w')
    (hok : AfterConnect w e w') (hcall : id ∈ called w' e) : Disconnected id w' := by
  obtain ⟨pc, pc', hpc, hnext, ht⟩ := Pool.step_eq_some hst
  obtain ⟨hacc, hcon⟩ := hok.1 id hcall
  have hs' := hs.step hst hok.2
  have hn := next_naming hnext
  have hwatch := next_watch hnext (hs.held pc (List.mem_of_getElem? hpc))
  have hback := hs.sessionId_back hpc hn hacc
  refine ⟨hn.accepted_mem hacc, fun hid => ?_, fun _ _ => .inr ?_⟩
  · refine Pool.forall_threads ht (hcon (hback hid)) fun hp => ?_
    exact hs'.connecting_new hacc hnext (hwatch.connecting hp) hid
  · simp only [called] at hcall
    split at hcall
    · rename_i i k hi
      obtain rfl := Option.some.inj hcall
      exact ⟨_, List.mem_of_getElem? hi, rfl⟩
    · cases hcall

/-- **The invariant along a run.** -/
theorem Caught.run [Inhabited Buf] {n : ℕ}
    (h : Runs (Slot.step index) AfterConnect (World.initial n) w) : Sound index w ∧ Caught w := by
  have hinit : Sound index (World.initial n : World Buf) ∧ Caught (World.initial n : World Buf) :=
    ⟨Sound.initial n, fun _ hpend => absurd hpend (lt_irrefl 0)⟩
  refine h.invariant (I := fun w => Sound index w ∧ Caught w) hinit ?_
  intro v u ev hv hst hok
  have hs' := hv.1.step hst hok.2
  exact ⟨hs', hv.2.step hv.1 hs' hst⟩

end Step

/-- **A disconnect is not lost on the receive side and hits no other
session.** In every run in which `DisconnectSession` is called at or after
`OnConnect`, `Close` runs only on the session it was called for, which is not
released; and after a call for `id`, once the calls in progress have
returned, the slot holds no pending receive of that session and comes to no
`WSARecv` for it again. -/
theorem disconnect_not_lost [Inhabited Buf] {n : ℕ} {w : World Buf}
    (h : Runs (Slot.step index) AfterConnect (World.initial n) w) :
    (∀ pc ∈ w.threads, ∀ id k, pc = .close id k ∨ pc = .cancel id k →
        w.shared.sessionId = id ∧ w.shared.accepted = w.shared.posted ++ [id]) ∧
      ∀ e w₁ id, Slot.step index w e = some w₁ → AfterConnect w e w₁ → id ∈ called w₁ e →
        ∀ w₂, Runs (Slot.step index) AfterConnect w₁ w₂ → Returned id w₂ →
          ∀ w₃, Runs (Slot.step index) AfterConnect w₂ w₃ → w₃.shared.sessionId = id →
            w₃.shared.pendingRecv = 0 ∧ Pc.wsaRecv ∉ w₃.threads := by
  obtain ⟨hs, hc⟩ := Caught.run h
  refine ⟨fun pc hpc id k hclose => ?_, fun e w₁ id hst hok hcall w₂ h₂ hret w₃ h₃ hid => ?_⟩
  · have hheld : id ∈ pc.held := by rcases hclose with rfl | rfl <;> exact List.mem_cons_self
    exact ⟨(hs.pinned hpc hheld).1, (hs.pinned hpc hheld).2.1⟩
  · have hs₁ := hs.step hst hok.2
    have hd₁ : Disconnected id w₁ := .of_called hs hst hok hcall
    -- up to the return of the calls, and from there on
    obtain ⟨hs₂, hc₂, hd₂⟩ := h₂.invariant
      (I := fun w => Sound index w ∧ Caught w ∧ Disconnected id w)
      ⟨hs₁, hc.step hs hs₁ hst, hd₁⟩ fun {v u ev} hv hst hok =>
        have hs' := hv.1.step hst hok.2
        ⟨hs', hv.2.1.step hv.1 hs' hst, hv.2.2.step hv.1 hs' hst⟩
    obtain ⟨-, hdeaf⟩ := h₃.invariant (I := fun w => Sound index w ∧ Deaf id w)
      ⟨hs₂, .of_returned hd₂ hs₂ hc₂ hret⟩ fun {v u ev} hv hst hok =>
        have hs' := hv.1.step hst hok.2
        ⟨hs', hv.2.step hv.1 hs' hst⟩
    exact ⟨hdeaf.pending hid, fun hmem => hdeaf.posting hid _ hmem rfl⟩

/-- A session is accepted and its first `RecvNotIncrease` is past the test of
`_connect`. -/
def acceptToRecv : List (ℕ × Event ℕ) := (0, .accept 0) :: List.replicate 10 (0, .go)

/-- The state it leads to. -/
def aboutToRecv : World ℕ where
  shared := { (Slot.initial : Slot ℕ) with
    refCount := 1, sessionId := ⟨1, 0⟩, connect := true, gSessionId := 1, free := 0
    accepted := [⟨1, 0⟩] }
  threads := [.wsaRecv, .idle]

/-- `DisconnectSession` returns with nothing to cancel; then the receive goes
pending, and the second test of `_connect` cancels it. -/
def disconnectThenRecv : List (ℕ × Event ℕ) :=
  List.replicate 5 (1, .go) ++ (0, .result .pending) :: List.replicate 6 (0, .go)

/-- The receive posted after `CancelIO` is cancelled by the second test. -/
theorem disconnect_not_lost_rechecked :
    exec (Slot.step 0) (World.initial 2) acceptToRecv = some aboutToRecv ∧
      ∃ w₁ w₂, Slot.step 0 aboutToRecv (1, .disconnect ⟨1, 0⟩) = some w₁ ∧
        exec (Slot.step 0) w₁ disconnectThenRecv = some w₂ ∧ w₂.shared.recvAborted = 1 ∧
          w₂.shared.pendingRecv = 0 ∧ Pc.wsaRecv ∉ w₂.threads := by
  have hw : exec (Slot.step 0) (World.initial 2) acceptToRecv = some aboutToRecv := by rfl
  have hcall : Slot.step 0 aboutToRecv (1, .disconnect ⟨1, 0⟩) =
      some ⟨aboutToRecv.shared, [.wsaRecv, .find ⟨1, 0⟩ (.disconnect .done)]⟩ := by rfl
  have hmap : (exec (Slot.step 0)
      ⟨aboutToRecv.shared, [.wsaRecv, .find ⟨1, 0⟩ (.disconnect .done)]⟩ disconnectThenRecv).map
      (fun w => (w.threads, w.shared.sessionId, w.shared.recvAborted)) =
      some ([.idle, .idle], ⟨1, 0⟩, 1) := by rfl
  obtain ⟨w₂, hw₂, hall⟩ := Option.map_eq_some_iff.1 hmap
  simp only [Prod.mk.injEq] at hall
  obtain ⟨hthreads, hid, haborted⟩ := hall
  have hret : Returned ⟨1, 0⟩ w₂ := by
    intro pc hpc
    obtain rfl : pc = .idle := by simpa [hthreads] using hpc
    exact ⟨id, nofun⟩
  obtain ⟨-, hlost⟩ := disconnect_not_lost (runs_of_exec hw (by decide))
  have h := hlost _ _ ⟨1, 0⟩ hcall (by decide) rfl w₂ (runs_of_exec hw₂ (by decide)) hret w₂ .refl
    hid
  exact ⟨hw, _, w₂, hcall, hw₂, haborted, h⟩

end Slot

end NetLib
