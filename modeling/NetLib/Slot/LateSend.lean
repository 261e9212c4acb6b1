import NetLib.Slot.Disconnect
/-!
# A disconnect and the sends under way

`CanSend` tests `_connect` once, at its top. A thread that is past the test,
or a `SendExecutable` that was posted after it, starts its `WSASend` whether
`Close` has run in between or not. Where `CancelIO` finds neither, no send of
the session is started after it (`send_cancelled`); `late_send` is a run in
which one is.
-/

namespace NetLib

namespace Slot

open Lifecycle

variable {Buf : Type} {index : ℕ}

/-! ## The send path, seen from `Close` -/

/-- Sends that are pending: neither cancelled nor completed. -/
def pendingSend (s : Slot Buf) : ℕ := s.sendIo - s.sendReady

/-- Where a thread stands between the test of `_connect` and `WSASend`. -/
inductive SendPoint
  /-- Past the test, and yet to win `_isSending`. -/
  | testing
  /-- On the way to `WSASend`, or to a posted `SendExecutable`. -/
  | sending
  /-- `PostSendExecutable::Execute`, up to `_isSending = false`. -/
  | clearing
  | off
  deriving DecidableEq

def Drain.sendPoint : Drain Buf → SendPoint
  | .realSend _ _ => .sending
  | .reset _ => .off

def Pc.sendPoint : Pc Buf → SendPoint
  | .canRef _ | .canHead _ true | .canTail _ true _ | .canExchange _ => .testing
  | .canHead _ false | .canTail _ false _ | .canClear _ | .postSendExecutable _ | .realSend _
  | .realSendHead _ | .realSendTail _ _ | .realSendStore _ _ | .wsaSend _ _ => .sending
  -- one that saw the release flag gives its reference back
  | .realSendCheck _ result => if RELEASE_FLAG ≤ result then .off else .sending
  | .deqHead d | .deqLoad d _ | .deqCas d _ | .deqData d _ | .deqClear d _ _ => d.sendPoint
  | .postSendRelease _ | .postSendClear => .clearing
  | _ => .off

@[simp] theorem After.pc_sendPoint (k : After) : (k.pc : Pc Buf).sendPoint = .off := by
  cases k <;> rfl

@[simp] theorem Use.found_sendPoint (id : SessionID) (use : Use Buf) :
    (use.found id).sendPoint = .off := by cases use <;> rfl

@[simp] theorem Sender.canSend_sendPoint (c : Sender) :
    (c.canSend : Pc Buf).sendPoint = .sending := by cases c <;> rfl

@[simp] theorem Drain.empty_sendPoint (d : Drain Buf) : d.empty.sendPoint = d.sendPoint := by
  rcases d with ⟨c, _ | _⟩ | r <;> rfl

/-- A thread past the test holds a reference of its session. -/
theorem Pc.pinned_of_testing {pc : Pc Buf} (h : pc.sendPoint = .testing) : 0 < pc.pinned := by
  have hd (d : Drain Buf) : d.sendPoint ≠ .testing := by cases d <;> nofun
  cases pc
  case deqHead d | deqLoad d _ | deqCas d _ | deqData d _ | deqClear d _ _ => exact absurd h (hd d)
  case canHead c first => exact Nat.one_pos
  case canTail c first head => exact Nat.one_pos
  case realSendCheck c result =>
    simp only [sendPoint] at h
    split at h <;> cases h
  case canRef | canExchange => exact Nat.one_pos
  all_goals cases h

/-- What an action does to the sends of the slot. -/
structure Sending (s : Slot Buf) (pc : Pc Buf) (s' : Slot Buf) (pc' : Pc Buf) : Prop where
  sending : pc'.sendPoint = .sending → pc.sendPoint = .sending ∨
    pc.sendPoint = .testing ∧ s.isSending = false ∨ s.sendPosted ≠ []
  testing : pc'.sendPoint = .testing →
    pc.sendPoint = .testing ∨ pc.sendPoint = .sending ∨ s.connect = true
  clearing : pc'.sendPoint = .clearing → pc.sendPoint = .clearing ∨ 0 < s.sendIo
  flag : s.isSending = true → s'.isSending = true ∨ pc.sendPoint = .sending ∨
    pc.sendPoint = .clearing ∨ pc.stage ≠ .outside
  posted : s.sendPosted = [] → s'.sendPosted = [] ∨ pc.sendPoint = .sending
  io : pc.sendPoint = .sending ∨ s'.sendIo ≤ s.sendIo ∧ s'.pendingSend ≤ s.pendingSend

/-- An action apart from the send path. -/
theorem Sending.off {s s' : Slot Buf} {pc pc' : Pc Buf} (hpoint : pc'.sendPoint = .off)
    (hflag : s'.isSending = s.isSending) (hposted : s'.sendPosted = s.sendPosted)
    (hio : s'.sendIo ≤ s.sendIo) (hpend : s'.pendingSend ≤ s.pendingSend) :
    Sending s pc s' pc' where
  sending h := by rw [hpoint] at h; cases h
  testing h := by rw [hpoint] at h; cases h
  clearing h := by rw [hpoint] at h; cases h
  flag h := .inl (hflag.trans h)
  posted h := .inl (hposted.trans h)
  io := .inr ⟨hio, hpend⟩

/-- An action that leaves the thread where it stands. -/
theorem Sending.along {s s' : Slot Buf} {pc pc' : Pc Buf} (hpoint : pc'.sendPoint = pc.sendPoint)
    (hflag : s'.isSending = s.isSending) (hposted : s'.sendPosted = s.sendPosted)
    (hio : s'.sendIo = s.sendIo) (hready : s'.sendReady = s.sendReady) :
    Sending s pc s' pc' where
  sending h := .inl (hpoint ▸ h)
  testing h := .inl (hpoint ▸ h)
  clearing h := .inl (hpoint ▸ h)
  flag h := .inl (hflag.trans h)
  posted h := .inl (hposted.trans h)
  io := .inr ⟨hio.le, by rw [pendingSend, pendingSend, hio, hready]⟩

/-- An action of a thread that is sending, to a point off the path. -/
theorem Sending.leave {s s' : Slot Buf} {pc pc' : Pc Buf} (hpc : pc.sendPoint = .sending)
    (hpoint : pc'.sendPoint = .off) : Sending s pc s' pc' where
  sending h := by rw [hpoint] at h; cases h
  testing h := by rw [hpoint] at h; cases h
  clearing h := by rw [hpoint] at h; cases h
  flag _ := .inr (.inl hpc)
  posted _ := .inr hpc
  io := .inl hpc

theorem cancelIo_sendIo_le (s : Slot Buf) :
    s.cancelIo.sendIo ≤ s.sendIo ∧ s.cancelIo.pendingSend = 0 := by
  simp only [cancelIo, pendingSend]
  omega

theorem nextRef_sending {s s' : Slot Buf} {pc pc' : Pc Buf} (h : nextRef s pc = some (s', pc')) :
    Sending s pc s' pc' := by
  cases pc <;> simp only [nextRef, Option.some.injEq, Prod.mk.injEq, reduceCtorEq] at h
  case findCheck id result use =>
    split at h <;> obtain ⟨rfl, rfl⟩ := h
    · exact .off rfl rfl rfl le_rfl le_rfl
    · exact .off (use.found_sendPoint id) rfl rfl le_rfl le_rfl
  case cancel id k =>
    obtain ⟨rfl, rfl⟩ := h
    obtain ⟨hle, hzero⟩ := s.cancelIo_sendIo_le
    exact .off rfl rfl rfl hle (by omega)
  case release pin k =>
    obtain ⟨rfl, rfl⟩ := h
    refine .off ?_ rfl rfl le_rfl le_rfl
    split
    · rfl
    · exact k.pc_sendPoint
  case releaseCas k =>
    split at h <;> obtain ⟨rfl, rfl⟩ := h
    · exact .off rfl rfl rfl le_rfl le_rfl
    · exact .off k.pc_sendPoint rfl rfl le_rfl le_rfl
  case postRelease k =>
    obtain ⟨rfl, rfl⟩ := h
    exact .off k.pc_sendPoint rfl rfl le_rfl le_rfl
  case find | holding | close =>
    obtain ⟨rfl, rfl⟩ := h
    exact .off rfl rfl rfl le_rfl le_rfl

theorem nextSend_sending {s s' : Slot Buf} {pc pc' : Pc Buf} (h : nextSend s pc = some (s', pc')) :
    Sending s pc s' pc' := by
  cases pc <;> simp only [nextSend, Option.some.injEq, Prod.mk.injEq, reduceCtorEq] at h
  case enqLoad =>
    split at h <;> obtain ⟨rfl, rfl⟩ := h <;> exact .off rfl rfl rfl le_rfl le_rfl
  case enqPublish =>
    split at h
    · cases h
    · obtain ⟨rfl, rfl⟩ := Option.some.inj h
      exact .off rfl rfl rfl le_rfl le_rfl
  case canConnect c =>
    obtain ⟨rfl, rfl⟩ := h
    split <;> rename_i hconn
    · -- the one test of `_connect`
      exact {
        sending := fun hp => by cases hp
        testing := fun _ => .inr (.inr hconn)
        clearing := fun hp => by cases hp
        flag := .inl
        posted := .inl
        io := .inr ⟨le_rfl, le_rfl⟩ }
    · exact .off rfl rfl rfl le_rfl le_rfl
  case canRef c =>
    obtain ⟨rfl, rfl⟩ := h
    split
    · exact .off rfl rfl rfl le_rfl le_rfl
    · exact .along rfl rfl rfl rfl rfl
  case canHead c first =>
    obtain ⟨rfl, rfl⟩ := h
    cases first <;> exact .along rfl rfl rfl rfl rfl
  case canTail c first head =>
    split at h <;> obtain ⟨rfl, rfl⟩ := h <;> cases first
    · exact .along rfl rfl rfl rfl rfl
    · exact .off rfl rfl rfl le_rfl le_rfl
    · exact .along c.canSend_sendPoint rfl rfl rfl rfl
    · exact .along rfl rfl rfl rfl rfl
  case canExchange c =>
    split at h <;> rename_i hflag <;> obtain ⟨rfl, rfl⟩ := h
    · exact .off rfl rfl rfl le_rfl le_rfl
    · exact {
        sending := fun _ => .inr (.inl ⟨rfl, Bool.eq_false_of_not_eq_true hflag⟩)
        testing := fun hp => by cases hp
        clearing := fun hp => by cases hp
        flag := fun _ => .inl rfl
        posted := .inl
        io := .inr ⟨le_rfl, le_rfl⟩ }
  case canClear c =>
    obtain ⟨rfl, rfl⟩ := h
    exact {
      sending := fun hp => by cases hp
      testing := fun _ => .inr (.inl rfl)
      clearing := fun hp => by cases hp
      flag := fun _ => .inr (.inl rfl)
      posted := .inl
      io := .inl rfl }
  case postSendExecutable id =>
    obtain ⟨rfl, rfl⟩ := h
    exact .leave rfl rfl
  case enqTicket | enqPut | enqFull =>
    obtain ⟨rfl, rfl⟩ := h
    exact .off rfl rfl rfl le_rfl le_rfl

theorem nextRealSend_sending {s s' : Slot Buf} {pc pc' : Pc Buf} {e : Event Buf}
    (h : nextRealSend s pc e = some (s', pc')) : Sending s pc s' pc' := by
  cases pc <;> simp only [nextRealSend, Option.some.injEq, Prod.mk.injEq, reduceCtorEq] at h
  case realSend c =>
    obtain ⟨rfl, rfl⟩ := h
    refine ⟨fun _ => .inl rfl, fun _ => .inr (.inl rfl), fun hp => ?_, .inl, .inl, .inl rfl⟩
    simp only [Pc.sendPoint] at hp
    split at hp <;> cases hp
  case realSendCheck c result =>
    obtain ⟨rfl, rfl⟩ := h
    split <;> rename_i hle
    · exact .off rfl rfl rfl le_rfl le_rfl
    · exact .along (by simp only [Pc.sendPoint, if_neg hle]) rfl rfl rfl rfl
  case realSendTail =>
    split at h
    · cases h
    · obtain ⟨rfl, rfl⟩ := Option.some.inj h
      exact .along rfl rfl rfl rfl rfl
  case wsaSend c bufs =>
    cases e <;> simp only [reduceCtorEq] at h
    split at h <;> obtain ⟨rfl, rfl⟩ := Option.some.inj h
    · exact .leave rfl rfl
    · exact .leave rfl c.after.pc_sendPoint
  case deqLoad d head =>
    obtain ⟨rfl, rfl⟩ := h
    split
    · exact .along rfl rfl rfl rfl rfl
    · exact .along d.empty_sendPoint rfl rfl rfl rfl
  case deqCas d head =>
    split at h <;> obtain ⟨rfl, rfl⟩ := h <;> exact .along rfl rfl rfl rfl rfl
  case deqClear d head b =>
    split at h
    · cases d <;> obtain ⟨rfl, rfl⟩ := Option.some.inj h
      · refine .along ?_ rfl rfl rfl rfl
        split <;> rfl
      · exact .along rfl rfl rfl rfl rfl
    · cases h
  case postSendRelease i =>
    split at h
    · obtain ⟨b, -, hb⟩ := Option.map_eq_some_iff.1 h
      obtain ⟨rfl, rfl⟩ := hb
      exact .along rfl rfl rfl rfl rfl
    · obtain ⟨rfl, rfl⟩ := Option.some.inj h
      exact .along rfl rfl rfl rfl rfl
  case postSendClear =>
    obtain ⟨rfl, rfl⟩ := h
    exact {
      sending := fun hp => by cases hp
      testing := fun hp => by cases hp
      clearing := fun hp => by cases hp
      flag := fun _ => .inr (.inr (.inl rfl))
      posted := .inl
      io := .inr ⟨le_rfl, le_rfl⟩ }
  case realSendHead | realSendStore | deqHead | deqData =>
    obtain ⟨rfl, rfl⟩ := h
    exact .along rfl rfl rfl rfl rfl

theorem nextLife_sending {s s' : Slot Buf} {pc pc' : Pc Buf} {e : Event Buf}
    (h : nextLife index s pc e = some (s', pc')) : Sending s pc s' pc' := by
  cases pc <;> simp only [nextLife, Option.some.injEq, Prod.mk.injEq, reduceCtorEq] at h
  case recvExecute =>
    cases e <;> simp only [reduceCtorEq] at h <;> obtain ⟨rfl, rfl⟩ := Option.some.inj h <;>
      exact .off rfl rfl rfl le_rfl le_rfl
  case recvCancel =>
    obtain ⟨rfl, rfl⟩ := h
    obtain ⟨hle, hzero⟩ := s.cancelIo_sendIo_le
    exact .off rfl rfl rfl hle (by omega)
  case recvRef | recvConnect | recvRecheck | timeoutRef =>
    obtain ⟨rfl, rfl⟩ := h
    refine .off ?_ rfl rfl le_rfl le_rfl
    split <;> rfl
  case wsaRecv =>
    cases e with
    | result r => cases r <;> obtain ⟨rfl, rfl⟩ := Option.some.inj h <;>
        exact .off rfl rfl rfl le_rfl le_rfl
    | _ => cases h
  case reset r =>
    obtain ⟨rfl, rfl⟩ := h
    have hstage : (Pc.reset r : Pc Buf).stage ≠ .outside := by
      cases r <;> simp [Pc.stage, Resetter.stage]
    exact {
      sending := fun hp => by cases hp
      testing := fun hp => by cases hp
      clearing := fun hp => by cases hp
      flag := fun _ => .inr (.inr (.inr hstage))
      posted := .inl
      io := .inr ⟨le_rfl, le_rfl⟩ }
  case resetSending r =>
    obtain ⟨rfl, rfl⟩ := h
    refine .off ?_ rfl rfl le_rfl le_rfl
    cases r <;> rfl
  case acceptConnect | acceptOffFlag | timeoutInc | acceptIncreaseRef | acceptSetId | onDisconnect |
      releaseFreeIndex =>
    obtain ⟨rfl, rfl⟩ := h
    exact .off rfl rfl rfl le_rfl le_rfl

theorem start_sending {s s' : Slot Buf} {pc' : Pc Buf} {e : Event Buf}
    (h : start index s e = some (s', pc')) : Sending s .idle s' pc' := by
  cases e <;> simp only [start, Option.some.injEq, Prod.mk.injEq, reduceCtorEq,
    Option.ite_none_right_eq_some] at h
  case hold | disconnect | sendPacket | sendPacketBlocking | timeout =>
    obtain ⟨rfl, rfl⟩ := h
    exact .off rfl rfl rfl le_rfl le_rfl
  case sendExecutable =>
    split at h
    · cases h
    · rename_i id rest hp
      obtain ⟨rfl, rfl⟩ := Option.some.inj h
      have hne : s.sendPosted ≠ [] := by rw [hp]; exact List.cons_ne_nil _ _
      exact {
        sending := fun _ => .inr (.inr hne)
        testing := fun hp => by cases hp
        clearing := fun hp => by cases hp
        flag := .inl
        posted := fun hnil => absurd hnil hne
        io := .inr ⟨le_rfl, le_rfl⟩ }
  case sendDone =>
    obtain ⟨hpos, rfl, rfl⟩ := h
    have hle : s.sendIo - 1 ≤ s.sendIo ∧
        s.sendIo - 1 - (s.sendReady - 1) ≤ s.sendIo - s.sendReady := by
      omega
    exact {
      sending := fun hp => by cases hp
      testing := fun hp => by cases hp
      clearing := fun _ => .inr hpos
      flag := .inl
      posted := .inl
      io := .inr hle }
  case sendFailed =>
    obtain ⟨hpos, rfl, rfl⟩ := h
    refine .off rfl rfl rfl (Nat.sub_le _ _) ?_
    simp only [pendingSend]
    omega
  case sendReady =>
    obtain ⟨hpos, rfl, rfl⟩ := h
    refine .off rfl rfl rfl le_rfl ?_
    simp only [pendingSend]
    omega
  case releaseExecutable | accept | recvReady | recvDone | recvFailed | recvAborted | sendAborted =>
    obtain ⟨hpos, rfl, rfl⟩ := h
    exact .off rfl rfl rfl le_rfl le_rfl

theorem next_sending {s s' : Slot Buf} {pc pc' : Pc Buf} {e : Event Buf}
    (h : next index s pc e = some (s', pc')) : Sending s pc s' pc' := by
  unfold next at h
  split at h
  · exact start_sending h
  all_goals first
    | exact nextRef_sending h | exact nextSend_sending h | exact nextRealSend_sending h
    | exact nextLife_sending h

/-! ## After `CancelIO` -/

/-- A thread about to call `CancelIO`, in `Close`. -/
def Pc.cancelsIO : Pc Buf → Bool
  | .cancel _ _ | .recvCancel => true
  | _ => false

/-- Nothing is on the way to `WSASend`: `OnConnect` is past and `_connect`
clear, no `SendExecutable` is posted, no thread has won `_isSending`, and a
thread that is past the test of `_connect` finds `_isSending` set by a send
that is about to be cancelled. -/
structure Unsent (w : World Buf) : Prop where
  connect : w.shared.connect = false
  connected : ∀ pc ∈ w.threads, pc.recvPoint ≠ .connect
  posted : w.shared.sendPosted = []
  sending : ∀ pc ∈ w.threads, pc.sendPoint ≠ .sending
  testing : (∀ pc ∈ w.threads, pc.sendPoint ≠ .testing) ∨
    w.shared.isSending = true ∧ w.shared.sendReady = 0 ∧
      ∀ pc ∈ w.threads, pc.sendPoint ≠ .clearing

instance decidableUnsent (w : World Buf) : Decidable (Unsent w) :=
  decidable_of_iff (w.shared.connect = false ∧ (∀ pc ∈ w.threads, pc.recvPoint ≠ .connect) ∧
      w.shared.sendPosted = [] ∧ (∀ pc ∈ w.threads, pc.sendPoint ≠ .sending) ∧
      ((∀ pc ∈ w.threads, pc.sendPoint ≠ .testing) ∨
        w.shared.isSending = true ∧ w.shared.sendReady = 0 ∧
          ∀ pc ∈ w.threads, pc.sendPoint ≠ .clearing))
    ⟨fun ⟨h₁, h₂, h₃, h₄, h₅⟩ => ⟨h₁, h₂, h₃, h₄, h₅⟩,
      fun ⟨h₁, h₂, h₃, h₄, h₅⟩ => ⟨h₁, h₂, h₃, h₄, h₅⟩⟩

/-- The side condition of the runs: `CancelIO` runs only where nothing is on
the way to `WSASend`. -/
def CancelsUnsent (w : World Buf) (e : ℕ × Event Buf) (w' : World Buf) : Prop :=
  (∀ pc ∈ w.threads[e.1]?, pc.cancelsIO = true → Unsent w) ∧ FewRefs w'

instance decidableCancelsUnsent (w : World Buf) (e : ℕ × Event Buf) (w' : World Buf) :
    Decidable (CancelsUnsent w e w') := inferInstanceAs (Decidable (_ ∧ _))

/-- The slot sends nothing more under the name it has. -/
structure Mute (w : World Buf) : Prop where
  connect : w.shared.connect = false
  connected : ∀ pc ∈ w.threads, pc.recvPoint ≠ .connect
  posted : w.shared.sendPosted = []
  sending : ∀ pc ∈ w.threads, pc.sendPoint ≠ .sending
  pending : w.shared.pendingSend = 0
  testing : (∀ pc ∈ w.threads, pc.sendPoint ≠ .testing) ∨
    w.shared.isSending = true ∧ w.shared.sendIo = 0 ∧
      ∀ pc ∈ w.threads, pc.sendPoint ≠ .clearing

section Step

variable {w w' : World Buf} {e : ℕ × Event Buf} {pc pc' : Pc Buf} {id : SessionID}

/-- `CancelIO` runs where nothing is on the way. -/
theorem Mute.of_cancelIo (h : Unsent w) (hpc : w.threads[e.1]? = some pc)
    (hcan : pc.cancelsIO = true) (hst : Slot.step index w e = some w') : Mute w' := by
  obtain ⟨q, pc', hq, hnext, ht⟩ := Pool.step_eq_some hst
  obtain rfl := Option.some.inj (hpc.symm.trans hq)
  have hpoints : w'.shared = w.shared.cancelIo ∧ pc'.recvPoint = .other ∧ pc'.sendPoint = .off := by
    cases pc <;> try cases hcan
    all_goals
      obtain ⟨hs, rfl⟩ := Prod.mk.inj (Option.some.inj hnext)
      exact ⟨hs.symm, rfl, rfl⟩
  obtain ⟨hs, hrecv, hsend⟩ := hpoints
  have hzero := w.shared.cancelIo_sendIo_le.2
  refine ⟨by rw [hs]; exact h.connect, ?_, by rw [hs]; exact h.posted, ?_,
    by rw [hs]; exact hzero, ?_⟩
  · exact Pool.forall_threads ht h.connected (by rw [hrecv]; nofun)
  · exact Pool.forall_threads ht h.sending (by rw [hsend]; nofun)
  · rcases h.testing with hnone | ⟨hflag, hready, hclear⟩
    · exact .inl (Pool.forall_threads ht hnone (by rw [hsend]; nofun))
    · refine .inr ⟨by rw [hs]; exact hflag, ?_,
        Pool.forall_threads ht hclear (by rw [hsend]; nofun)⟩
      rw [hs]
      simp only [cancelIo, hready, Nat.min_zero]

/-- **The slot stays mute while it keeps its name.** -/
theorem Mute.step (h : Mute w) (hs : Sound index w) (hs' : Sound index w')
    (hacc : w'.shared.sessionId ∈ w.shared.accepted) (hst : Slot.step index w e = some w') :
    Mute w' := by
  obtain ⟨pc, pc', hpc, hnext, ht⟩ := Pool.step_eq_some hst
  have hmem := List.mem_of_getElem? hpc
  have hwatch := next_watch hnext (hs.held pc hmem)
  have hsend := next_sending hnext
  have hoff := h.sending pc hmem
  have hsending : pc'.sendPoint ≠ .sending := by
    intro hp
    rcases hsend.sending hp with hp | ⟨htest, hflag⟩ | hposted
    · exact hoff hp
    · rcases h.testing with hnone | ⟨htrue, -⟩
      · exact hnone pc hmem htest
      · rw [htrue] at hflag
        cases hflag
    · exact hposted h.posted
  have htesting (hp : pc'.sendPoint = .testing) : pc.sendPoint = .testing := by
    rcases hsend.testing hp with hp | hp | hconn
    · exact hp
    · exact absurd hp hoff
    · rw [h.connect] at hconn
      cases hconn
  refine ⟨?_, ?_, ?_, Pool.forall_threads ht h.sending hsending, ?_, ?_⟩
  · rcases hwatch.connect with heq | ⟨hfalse, -⟩ | ⟨hcon, -⟩
    · exact heq.trans h.connect
    · exact hfalse
    · exact absurd hcon (h.connected pc hmem)
  · refine Pool.forall_threads ht h.connected fun hcon => ?_
    exact hs'.connecting_new hacc hnext (hwatch.connecting hcon) rfl
  · exact (hsend.posted h.posted).resolve_right hoff
  · rcases hsend.io with hp | ⟨-, hle⟩
    · exact absurd hp hoff
    · exact Nat.le_zero.1 (hle.trans h.pending.le)
  · rcases h.testing with hnone | ⟨hflag, hio, hclear⟩
    · exact .inl (Pool.forall_threads ht hnone fun hp => hnone pc hmem (htesting hp))
    · -- the flag is cleared only by who is not there, or by `Reset`
      rcases hsend.flag hflag with hflag' | hp | hp | hstage
      · refine .inr ⟨hflag', ?_, Pool.forall_threads ht hclear fun hp => ?_⟩
        · rcases hsend.io with hp | ⟨hle, -⟩
          · exact absurd hp hoff
          · exact Nat.le_zero.1 (hle.trans hio.le)
        · rcases hsend.clearing hp with hp | hpos
          · exact hclear pc hmem hp
          · omega
      · exact absurd hp hoff
      · exact absurd hp (hclear pc hmem)
      · have hnone : ∀ q ∈ w.threads, q.sendPoint ≠ .testing := by
          intro q hq hp
          have hopen := hs.open_of_pinned hq (Pc.pinned_of_testing hp)
          exact hstage (hs.outside_of_open hopen hmem)
        exact .inl (Pool.forall_threads ht hnone fun hp => hnone pc hmem (htesting hp))

/-- While the name stays, so does what was opened under it. -/
theorem Mute.run (h : Mute w) (hs : Sound index w) (hacc : w.shared.sessionId ∈ w.shared.accepted)
    (hrun : Runs (Slot.step index) CancelsUnsent w w')
    (hid : w'.shared.sessionId = w.shared.sessionId) : Mute w' := by
  have hinv := hrun.invariant
    (I := fun v => Sound index v ∧ w.shared.sessionId ∈ v.shared.accepted ∧
      (v.shared.sessionId = w.shared.sessionId → Mute v)) ⟨hs, hacc, fun _ => h⟩ ?_
  · exact hinv.2.2 hid
  · rintro v u ev ⟨hv, hmem, hmute⟩ hst hok
    obtain ⟨pc, pc', hpc, hnext, -⟩ := Pool.step_eq_some hst
    have hn := next_naming hnext
    have hu := hv.step hst hok.2
    refine ⟨hu, hn.accepted_mem hmem, fun heq => ?_⟩
    have hback := hv.sessionId_back hpc hn hmem heq
    exact (hmute hback).step hv hu (heq ▸ hmem) hst

end Step

/-- **No send is started after `CancelIO`.** In every run in which `CancelIO`
finds nothing on the way to `WSASend`, the session it runs for comes to no
`WSASend` afterwards, and no send of it is pending that was not cancelled. -/
theorem send_cancelled [Inhabited Buf] {n : ℕ} {w : World Buf}
    (h : Runs (Slot.step index) CancelsUnsent (World.initial n) w) {e : ℕ × Event Buf} {pc : Pc Buf}
    (hpc : w.threads[e.1]? = some pc) (hcan : pc.cancelsIO = true) {w₁ : World Buf}
    (hst : Slot.step index w e = some w₁) (hok : CancelsUnsent w e w₁) {w₂ : World Buf}
    (h₂ : Runs (Slot.step index) CancelsUnsent w₁ w₂)
    (hid : w₂.shared.sessionId = w.shared.sessionId) :
    w₂.shared.pendingSend = 0 ∧ ∀ c bufs, Pc.wsaSend c bufs ∉ w₂.threads := by
  have hs : Sound index w := Sound.run (h.mono fun hok => hok.2)
  have hmem := List.mem_of_getElem? hpc
  have hpin : 0 < pc.pinned := by
    cases pc <;> try cases hcan
    · exact Nat.add_pos_left Nat.one_pos _
    · exact Nat.one_pos
  have hmute : Mute w₁ := .of_cancelIo (hok.1 pc hpc hcan) hpc hcan hst
  obtain ⟨q, pc', hq, hnext, -⟩ := Pool.step_eq_some hst
  have hid₁ := hs.sessionId_eq hq (next_naming hnext) (hs.open_of_pinned hmem hpin)
  have hacc : w₁.shared.sessionId ∈ w₁.shared.accepted := by
    refine (next_naming hnext).accepted_mem ?_
    rw [hid₁, (hs.unreleased hmem hpin).1]
    exact List.mem_append_right _ List.mem_cons_self
  have hmute₂ := hmute.run (hs.step hst hok.2) hacc h₂ (hid.trans hid₁.symm)
  exact ⟨hmute₂.pending, fun c bufs hw => hmute₂.sending _ hw rfl⟩

/-- A session is accepted, its receive goes pending, and a second thread
comes to `WSASend` for it. -/
def acceptAndSend : List (ℕ × Event ℕ) :=
  (0, .accept 0) :: List.replicate 10 (0, .go) ++ (0, .result .pending) :: (0, .go) ::
    (1, .sendPacketBlocking ⟨1, 0⟩ 7) :: List.replicate 25 (1, .go)

/-- A third thread comes to `CancelIO` for it. -/
def comeToCancel : List (ℕ × Event ℕ) := (2, .disconnect ⟨1, 0⟩) :: List.replicate 3 (2, .go)

/-- The send pending at `CancelIO` is cancelled, and a later one is not
started. -/
theorem send_cancelled_pending : ∃ w w₁ w₂ : World ℕ,
    exec (Slot.step 0) (World.initial 3)
        (acceptAndSend ++ (1, .result .pending) :: (1, .go) :: comeToCancel) = some w ∧
      Slot.step 0 w (2, .go) = some w₁ ∧
      exec (Slot.step 0) w₁ ((1, .sendPacketBlocking ⟨1, 0⟩ 8) :: List.replicate 8 (1, .go)) =
        some w₂ ∧
      w₂.threads[1]? = some .idle ∧ w₂.shared.tickets = [7, 8] ∧ w₂.shared.sendAborted = 1 ∧
      w₂.shared.pendingSend = 0 := by
  have hmap : (exec (Slot.step 0) (World.initial 3)
      (acceptAndSend ++ (1, .result .pending) :: (1, .go) :: comeToCancel)).map (fun w =>
        (w.threads, w.shared.sessionId)) =
      some ([.idle, .idle, .cancel ⟨1, 0⟩ .done], ⟨1, 0⟩) := by rfl
  have hmap₂ : (exec (Slot.step 0) (World.initial 3)
      ((acceptAndSend ++ (1, .result .pending) :: (1, .go) :: comeToCancel) ++ (2, .go) ::
        (1, .sendPacketBlocking ⟨1, 0⟩ 8) :: List.replicate 8 (1, .go))).map (fun w =>
        (w.threads, w.shared.sessionId, w.shared.tickets, w.shared.sendAborted)) =
      some ([.idle, .idle, .release (some ⟨1, 0⟩) .done], ⟨1, 0⟩, [7, 8], 1) := by rfl
  obtain ⟨w, hw, hall⟩ := Option.map_eq_some_iff.1 hmap
  obtain ⟨hthreads, hid⟩ := Prod.mk.inj hall
  obtain ⟨w₂, hw₂, hall₂⟩ := Option.map_eq_some_iff.1 hmap₂
  simp only [Prod.mk.injEq] at hall₂
  obtain ⟨hthreads₂, hid₂, htickets, haborted⟩ := hall₂
  obtain ⟨v, hv, hrest⟩ := exec_append_iff.1 hw₂
  obtain rfl := Option.some.inj (hw.symm.trans hv)
  obtain ⟨w₁, hst, hrest⟩ := exec_cons_iff.1 hrest
  have hmeets : execMeets (Slot.step 0) CancelsUnsent (World.initial 3)
      ((acceptAndSend ++ (1, .result .pending) :: (1, .go) :: comeToCancel) ++ (2, .go) ::
        (1, .sendPacketBlocking ⟨1, 0⟩ 8) :: List.replicate 8 (1, .go)) = true := by decide
  obtain ⟨hbefore, hafter⟩ := execMeets_append hw hmeets
  obtain ⟨hok, hafter⟩ := execMeets_cons hst hafter
  have hpc : w.threads[((2, .go) : ℕ × Event ℕ).1]? = some (.cancel ⟨1, 0⟩ .done) := by
    rw [hthreads]
    rfl
  obtain ⟨hpending, -⟩ := send_cancelled (runs_of_exec hw hbefore) hpc rfl hst hok
    (runs_of_exec hrest hafter) (hid₂.trans hid.symm)
  exact ⟨w, w₁, w₂, hw, hst, hrest, by rw [hthreads₂]; rfl, htickets, haborted, hpending⟩

/-- `WSASend` goes pending, the calls return, and the cancelled receive is
taken. -/
def sendAndReturn : List (ℕ × Event ℕ) :=
  (1, .result .pending) :: (1, .go) :: (2, .go) :: (0, .recvAborted) :: [(0, .go)]

/-- **A send that outlives a disconnect.** `SendPacketBlocking` passes the
test of `_connect`; `DisconnectSession` clears `_connect` and runs `CancelIO`;
then the send is started. Once all calls have returned and the cancelled
receive is taken, the send is pending, not cancelled, and holds the last
reference of the session. -/
theorem late_send : ∃ w w₁ w₂ : World ℕ,
    Runs (Slot.step 0) (fun _ _ => FewRefs) (World.initial 3) w ∧
      w.threads = [.idle, .wsaSend (.sendPacketBlocking ⟨1, 0⟩) [7], .cancel ⟨1, 0⟩ .done] ∧
      Slot.step 0 w (2, .go) = some w₁ ∧
      Runs (Slot.step 0) (fun _ _ => FewRefs) w₁ w₂ ∧ w₂.threads = [.idle, .idle, .idle] ∧
      w₂.shared.sessionId = w.shared.sessionId ∧ w₂.shared.pendingSend = 1 ∧
      w₂.shared.refCount = 1 := by
  have hmap : (exec (Slot.step 0) (World.initial 3) (acceptAndSend ++ comeToCancel)).map (fun w =>
        (w.threads, w.shared.sessionId)) =
      some ([.idle, .wsaSend (.sendPacketBlocking ⟨1, 0⟩) [7], .cancel ⟨1, 0⟩ .done], ⟨1, 0⟩) := by
    rfl
  have hmap₂ : (exec (Slot.step 0) (World.initial 3)
      ((acceptAndSend ++ comeToCancel) ++ (2, .go) :: sendAndReturn)).map (fun w =>
        (w.threads, w.shared.sessionId, w.shared.pendingSend, w.shared.refCount)) =
      some ([.idle, .idle, .idle], ⟨1, 0⟩, 1, 1) := by rfl
  obtain ⟨w, hw, hall⟩ := Option.map_eq_some_iff.1 hmap
  obtain ⟨hthreads, hid⟩ := Prod.mk.inj hall
  obtain ⟨w₂, hw₂, hall₂⟩ := Option.map_eq_some_iff.1 hmap₂
  simp only [Prod.mk.injEq] at hall₂
  obtain ⟨hthreads₂, hid₂, hpending, hcount⟩ := hall₂
  obtain ⟨v, hv, hrest⟩ := exec_append_iff.1 hw₂
  obtain rfl := Option.some.inj (hw.symm.trans hv)
  obtain ⟨w₁, hst, hrest⟩ := exec_cons_iff.1 hrest
  have hmeets : execMeets (Slot.step 0) (fun _ _ => FewRefs) (World.initial 3)
      ((acceptAndSend ++ comeToCancel) ++ (2, .go) :: sendAndReturn) = true := by decide
  obtain ⟨hbefore, hafter⟩ := execMeets_append hw hmeets
  obtain ⟨-, hafter⟩ := execMeets_cons hst hafter
  exact ⟨w, w₁, w₂, runs_of_exec hw hbefore, hthreads, hst, runs_of_exec hrest hafter, hthreads₂,
    hid₂.trans hid.symm, hpending, hcount⟩

end Slot

end NetLib
