import NetLib.Slot.RealSend
/-!
# What becomes of the buffers of a session

While a session stays connected and nothing goes wrong, the hand that may
send is never lost: `_isSending` is set exactly when there is one. What the
hand has in it says which buffers were passed to `WSASend`, which of them
were released, and which are on their way. And when nobody has the flag, a
buffer in the queue has a thread that is about to look.
-/

namespace NetLib

namespace Slot

open Lifecycle LockFreeFixedQueue

variable {Buf : Type} {index b : ℕ} {w w' : World Buf} {e : ℕ × Event Buf} {s s' : Slot Buf}
  {pc pc' : Pc Buf}

/-! ## What is in the hand -/

/-- How far the sending of one batch has come. -/
inductive Phase (Buf : Type)
  /-- Nothing taken. -/
  | rest
  /-- `bufs` are in `_sendingQ`, and `t` more were taken from `_sendQ`. -/
  | loading (bufs : List Buf) (t : ℕ)
  /-- `WSASend` is about to be called. -/
  | sending (bufs : List Buf)
  /-- `WSASend` was started and has not completed. -/
  | flying
  /-- It has completed, and the first `i` of its buffers are released. -/
  | freeing (i : ℕ)

def Drain.phase (t : ℕ) : Drain Buf → Phase Buf
  | .realSend _ bufs => .loading bufs t
  | .reset _ => .rest

/-- The phase of a thread with the right to send. -/
def Pc.phase : Pc Buf → Phase Buf
  | .deqHead d | .deqLoad d _ | .deqCas d _ => d.phase 0
  | .deqData d _ | .deqClear d _ _ => d.phase 1
  | .realSendStore _ bufs => .loading bufs 0
  | .wsaSend _ bufs => .sending bufs
  | .postSendRelease i => .freeing i
  | _ => .rest

/-- The phase, as far as one thread and the kernel have it. -/
def phase (s : Slot Buf) (pc : Pc Buf) : Phase Buf :=
  if pc.owns = 1 then pc.phase else if 0 < s.sendIo then .flying else .rest

theorem phase_own (h : pc.owns = 1) : phase s pc = pc.phase := if_pos h

theorem phase_rest (h : pc.owns = 0) (hio : s.sendIo = 0) : phase s pc = .rest := by
  rw [phase, if_neg (by omega), if_neg (by omega)]

theorem phase_flying (h : pc.owns = 0) (hio : 0 < s.sendIo) : phase s pc = .flying := by
  rw [phase, if_neg (by omega), if_pos hio]

/-- `_sendingQ` holds `bufs`. -/
def Stored (s : Slot Buf) (bufs : List Buf) : Prop := ∀ j < bufs.length, s.sendingQ j = bufs[j]?

/-- **The books of a phase**: the batches passed to `WSASend` so far are the
tickets taken so far, but for what the phase still holds; every batch but
the last has been released, and of the last what the phase says. -/
def Delivered (s : Slot Buf) : Phase Buf → Prop
  | .rest => s.sends.flatten = s.tickets.take s.taken ∧ s.completions = s.sends.length ∧
      s.freed = s.sends.flatten
  | .loading bufs t => s.sends.flatten ++ bufs = s.tickets.take (s.taken - t) ∧
      s.completions = s.sends.length ∧ s.freed = s.sends.flatten ∧ Stored s bufs
  | .sending bufs => s.sends.flatten ++ bufs = s.tickets.take s.taken ∧
      s.completions = s.sends.length ∧ s.freed = s.sends.flatten ∧ Stored s bufs ∧
      s.dataNotSend = bufs.length
  | .flying => ∃ init last, s.sends = init ++ [last] ∧
      s.sends.flatten = s.tickets.take s.taken ∧ s.completions = init.length ∧
      s.freed = init.flatten ∧ Stored s last ∧ s.dataNotSend = last.length
  | .freeing i => ∃ init last, s.sends = init ++ [last] ∧
      s.sends.flatten = s.tickets.take s.taken ∧ s.completions = s.sends.length ∧
      s.freed = init.flatten ++ last.take i ∧ Stored s last ∧ s.dataNotSend = last.length

/-- Taking a ticket is no matter for the books. -/
theorem Delivered.ticket {ph : Phase Buf} (h : Delivered s ph) (hle : s.taken ≤ s.tickets.length)
    (q : LockFreeFixedQueue Buf MAX_SEND_COUNT) (x : Buf) :
    Delivered { s with sendQ := q, tickets := s.tickets ++ [x] } ph := by
  have htake (t : ℕ) : (s.tickets ++ [x]).take (s.taken - t) = s.tickets.take (s.taken - t) :=
    List.take_append_of_le_length (by omega)
  cases ph with
  | rest => exact ⟨(htake 0).symm ▸ h.1, h.2⟩
  | loading bufs t => exact ⟨(htake t).symm ▸ h.1, h.2⟩
  | sending bufs => exact ⟨(htake 0).symm ▸ h.1, h.2⟩
  | flying =>
    obtain ⟨init, last, hs, hf, hrest⟩ := h
    exact ⟨init, last, hs, (htake 0).symm ▸ hf, hrest⟩
  | freeing i =>
    obtain ⟨init, last, hs, hf, hrest⟩ := h
    exact ⟨init, last, hs, (htake 0).symm ▸ hf, hrest⟩

/-- `WSASend` is started: the batch is the last one. -/
theorem Delivered.send {bufs : List Buf} {ready : ℕ} (h : Delivered s (.sending bufs)) :
    Delivered { s with
      sends := s.sends ++ [bufs], sendIo := s.sendIo + 1, sendReady := ready } .flying := by
  obtain ⟨hs, hc, hf, hst, hn⟩ := h
  refine ⟨s.sends, bufs, rfl, ?_, hc, hf, hst, hn⟩
  rw [List.flatten_append, List.flatten_singleton, hs]

/-- One buffer of the batch is released. -/
theorem Delivered.free {i : ℕ} {x : Buf} (h : Delivered s (.freeing i)) (hi : i < s.dataNotSend)
    (hx : s.sendingQ i = some x) :
    Delivered { s with freed := s.freed ++ [x] } (.freeing (i + 1)) := by
  obtain ⟨init, last, hs, ht, hc, hf, hst, hn⟩ := h
  refine ⟨init, last, hs, ht, hc, ?_, hst, hn⟩
  have hget : last[i]? = some x := by rw [← hst i (hn ▸ hi), hx]
  change s.freed ++ [x] = _
  rw [hf, List.append_assoc, List.take_add_one, hget]
  rfl

/-- All of them are. -/
theorem Delivered.freed {i : ℕ} (h : Delivered s (.freeing i)) (hi : ¬ i < s.dataNotSend) :
    Delivered { s with dataNotSend := 0 } .rest := by
  obtain ⟨init, last, hs, ht, hc, hf, hst, hn⟩ := h
  refine ⟨ht, hc, ?_⟩
  change s.freed = s.sends.flatten
  rw [hf, hs, List.take_of_length_le (by omega), List.flatten_append, List.flatten_singleton]

/-- The buffer that was taken goes to `_sendingQ`. -/
theorem Delivered.store {bufs : List Buf} {x : Buf} (h : Delivered s (.loading bufs 1))
    {q : LockFreeFixedQueue Buf MAX_SEND_COUNT} {n : ℕ} (hn : s.taken = n + 1)
    (hx : s.tickets[n]? = some x) :
    Delivered { s with
      sendQ := q, sendingQ := Function.update s.sendingQ bufs.length (some x) }
      (.loading (bufs ++ [x]) 0) := by
  obtain ⟨hs, hc, hf, hst⟩ := h
  refine ⟨?_, hc, hf, fun j hj => ?_⟩
  · change s.sends.flatten ++ (bufs ++ [x]) = s.tickets.take s.taken
    rw [← List.append_assoc, hs, hn, Nat.add_sub_cancel, List.take_add_one, hx]
    rfl
  · rw [List.length_append, List.length_singleton] at hj
    by_cases hlt : j < bufs.length
    · rw [List.getElem?_append_left hlt]
      exact (Function.update_of_ne hlt.ne _ _).trans (hst j hlt)
    · obtain rfl : j = bufs.length := by omega
      rw [List.getElem?_concat_length]
      exact Function.update_self ..

/-- Of what was released, nothing is from a batch that has not completed. -/
theorem Delivered.freed_prefix {ph : Phase Buf} (h : Delivered s ph) :
    s.freed <+: (s.sends.take s.completions).flatten ∧ s.sends.flatten <+: s.tickets := by
  have hpre {l : List Buf} {m : ℕ} (hl : s.sends.flatten ++ l = s.tickets.take m) :
      s.sends.flatten <+: s.tickets :=
    (List.prefix_append _ l).trans (hl ▸ List.take_prefix _ _)
  have hall (hc : s.completions = s.sends.length) : s.sends.take s.completions = s.sends :=
    List.take_of_length_le hc.ge
  have heq (hc : s.completions = s.sends.length) (hf : s.freed = s.sends.flatten) :
      s.freed <+: (s.sends.take s.completions).flatten := by
    simp only [hall hc, hf, List.prefix_rfl]
  cases ph with
  | rest =>
    obtain ⟨hs, hc, hf⟩ := h
    exact ⟨heq hc hf, hs ▸ List.take_prefix _ _⟩
  | loading bufs t =>
    obtain ⟨hs, hc, hf, -⟩ := h
    exact ⟨heq hc hf, hpre hs⟩
  | sending bufs =>
    obtain ⟨hs, hc, hf, -⟩ := h
    exact ⟨heq hc hf, hpre hs⟩
  | flying =>
    obtain ⟨init, last, hs, ht, hc, hf, -⟩ := h
    refine ⟨?_, ht ▸ List.take_prefix _ _⟩
    simp only [hc, hs, List.take_left, hf, List.prefix_rfl]
  | freeing i =>
    obtain ⟨init, last, hs, ht, hc, hf, -⟩ := h
    refine ⟨?_, ht ▸ List.take_prefix _ _⟩
    rw [hall hc, hf, hs, List.flatten_append, List.flatten_singleton]
    exact (List.prefix_append_right_inj _).2 (List.take_prefix _ _)

/-! ## What a step does with it -/

/-- Does the step fail a send? -/
def failsSend : Pc Buf → Event Buf → Bool
  | .idle, .sendFailed | .idle, .sendAborted | .wsaSend _ _, .result .error => true
  | _, _ => false

/-- Will the thread look whether there is something to send, and see it? A
head it has read must still be the head. -/
def Pc.wakes (head : BitVec 32) : Pc Buf → Bool
  | .enqLoad _ _ _ | .enqPut _ _ _ | .enqPublish _ _ _ | .canConnect _ | .canRef _
  | .canExchange _ => true
  | .canHead _ first => first
  | .canTail _ first h => first && decide (h = head)
  | _ => false

/-- An action with regard to the hand. -/
inductive Carry (s : Slot Buf) (pc : Pc Buf) (s' : Slot Buf) (pc' : Pc Buf) : Prop
  /-- Somebody else's. -/
  | aside (hp : pc.owns = 0) (hp' : pc'.owns = 0) (hflag : s'.isSending = s.isSending)
      (hio : s'.sendIo = s.sendIo) (hfly : s'.inFlight = s.inFlight)
      (hd : ∀ ph, Delivered s ph → Delivered s' ph)
  /-- The hand takes it, is given the flag, or gives it up. -/
  | turn (hpos : s.isSending = true → 0 < pc.owns + s.inFlight)
      (hhands : pc'.owns + s'.inFlight = if s'.isSending then 1 else 0)
      (hd : Delivered s (phase s pc) → Delivered s' (phase s' pc'))
      (hwake : s'.isSending = false → ∀ head, pc'.wakes head = true)

/-- What the thread's action may count on. -/
structure Calm (s : Slot Buf) (pc : Pc Buf) (e : Event Buf) (s' : Slot Buf) : Prop where
  stage : pc.stage = .outside
  sent : failsSend pc e = false
  unreleased : s'.refCount < RELEASE_FLAG
  kept : s'.sendAborted = 0
  one : pc.owns + s.inFlight ≤ if s.isSending then 1 else 0
  le : s.taken ≤ s.tickets.length
  knows : ∃ b c, pc.access.Knows b c s.traced

namespace Calm

variable {e : Event Buf}

theorem sendIo_eq (h : s.inFlight = 0) : s.sendIo = 0 := by
  simp only [inFlight] at h
  omega

/-- A send that is not cancelled has completed. -/
theorem cancelIo_sendIo (h : Calm s pc e s.cancelIo) : s.cancelIo.sendIo = s.sendIo := by
  have := h.kept
  simp only [cancelIo] at this ⊢
  omega

theorem alone (h : Calm s pc e s') (hp : pc.owns = 1) : s.inFlight = 0 ∧ s.isSending = true := by
  have := h.one
  split at this
  · exact ⟨by omega, by assumption⟩
  · omega

/-- The hand stays with its thread. -/
theorem within (h : Calm s pc e s') (hp : pc.owns = 1) (hp' : pc'.owns = 1)
    (hflag : s'.isSending = s.isSending) (hfly : s'.inFlight = s.inFlight)
    (hd : Delivered s pc.phase → Delivered s' pc'.phase) : Carry s pc s' pc' := by
  obtain ⟨hzero, hsending⟩ := h.alone hp
  refine .turn (fun _ => by omega) ?_ ?_ fun hf => ?_
  · rw [hflag, hsending, if_pos rfl, hfly, hzero, hp']
  · rw [phase_own hp, phase_own hp']
    exact hd
  · rw [hflag, hsending] at hf
    cases hf

end Calm

theorem nextRef_carry {e : Event Buf} (hc : Calm s pc e s') (h : nextRef s pc = some (s', pc')) :
    Carry s pc s' pc' := by
  cases pc <;> simp only [nextRef, Option.some.injEq, Prod.mk.injEq, reduceCtorEq] at h
  case findCheck id result use =>
    split at h <;> obtain ⟨rfl, rfl⟩ := h
    · exact .aside rfl rfl rfl rfl rfl fun _ hd => hd
    · exact .aside rfl (use.found_owns id) rfl rfl rfl fun _ hd => hd
  case cancel id k =>
    obtain ⟨rfl, rfl⟩ := h
    exact .aside rfl rfl rfl hc.cancelIo_sendIo s.cancelIo_inFlight fun _ hd => hd
  case release pin k =>
    obtain ⟨rfl, rfl⟩ := h
    refine .aside rfl ?_ rfl rfl rfl fun _ hd => hd
    split
    · rfl
    · exact k.pc_owns
  case releaseCas k =>
    split at h <;> obtain ⟨rfl, rfl⟩ := h
    · exact .aside rfl rfl rfl rfl rfl fun _ hd => hd
    · exact .aside rfl k.pc_owns rfl rfl rfl fun _ hd => hd
  case postRelease k =>
    obtain ⟨rfl, rfl⟩ := h
    exact .aside rfl k.pc_owns rfl rfl rfl fun _ hd => hd
  case find | holding | close =>
    obtain ⟨rfl, rfl⟩ := h
    exact .aside rfl rfl rfl rfl rfl fun _ hd => hd

theorem nextSend_carry {e : Event Buf} (hc : Calm s pc e s') (h : nextSend s pc = some (s', pc')) :
    Carry s pc s' pc' := by
  cases pc <;> simp only [nextSend, Option.some.injEq, Prod.mk.injEq, reduceCtorEq] at h
  case enqTicket x c =>
    obtain ⟨rfl, rfl⟩ := h
    exact .aside rfl rfl rfl rfl rfl fun _ hd => hd.ticket hc.le _ x
  case enqLoad =>
    split at h <;> obtain ⟨rfl, rfl⟩ := h <;> exact .aside rfl rfl rfl rfl rfl fun _ hd => hd
  case enqPublish =>
    split at h
    · cases h
    · obtain ⟨rfl, rfl⟩ := Option.some.inj h
      exact .aside rfl rfl rfl rfl rfl fun _ hd => hd
  case canConnect | canRef =>
    obtain ⟨rfl, rfl⟩ := h
    split <;> exact .aside rfl rfl rfl rfl rfl fun _ hd => hd
  case canHead c first =>
    obtain ⟨rfl, rfl⟩ := h
    cases first
    · exact hc.within rfl rfl rfl rfl id
    · exact .aside rfl rfl rfl rfl rfl fun _ hd => hd
  case canTail c first head =>
    split at h <;> obtain ⟨rfl, rfl⟩ := h <;> cases first
    · exact hc.within rfl rfl rfl rfl id
    · exact .aside rfl rfl rfl rfl rfl fun _ hd => hd
    · refine hc.within rfl c.canSend_owns rfl rfl fun hd => ?_
      cases c <;> exact hd
    · exact .aside rfl rfl rfl rfl rfl fun _ hd => hd
  case canExchange =>
    split at h <;> rename_i hs <;> obtain ⟨rfl, rfl⟩ := h
    · exact .aside rfl rfl rfl rfl rfl fun _ hd => hd
    · -- the flag was clear: there was no hand
      have hzero : s.inFlight = 0 := by
        have hone := hc.one
        rw [if_neg hs] at hone
        omega
      refine .turn (fun hf => absurd hf hs) ?_ (fun hd => ?_) Bool.noConfusion
      · exact (congrArg (1 + ·) hzero :)
      · rw [phase_rest rfl (Calm.sendIo_eq hzero)] at hd
        exact hd
  case canClear c =>
    obtain ⟨rfl, rfl⟩ := h
    obtain ⟨hzero, -⟩ := hc.alone rfl
    refine .turn (fun _ => Nat.add_pos_left Nat.one_pos _) ?_ (fun hd => ?_) fun _ _ => rfl
    · exact (congrArg (0 + ·) hzero :)
    · have hrest : phase { s with isSending := false } (.canRef c) = .rest :=
        phase_rest rfl (Calm.sendIo_eq hzero)
      rw [hrest]
      exact hd
  case postSendExecutable id =>
    obtain ⟨rfl, rfl⟩ := h
    obtain ⟨hzero, hflag⟩ := hc.alone rfl
    refine .turn (fun _ => Nat.add_pos_left Nat.one_pos _) ?_ (fun hd => ?_) fun hf => ?_
    · rw [show ({ s with sendPosted := s.sendPosted ++ [id] } : Slot Buf).isSending = true
        from hflag, if_pos rfl]
      simp only [inFlight] at hzero
      simp only [Pc.owns, inFlight, List.length_append, List.length_singleton]
      omega
    · have hrest : phase { s with sendPosted := s.sendPosted ++ [id] }
          (.release (some id) .done) = .rest :=
        phase_rest rfl (show s.sendIo = 0 from Calm.sendIo_eq hzero)
      rw [hrest]
      exact hd
    · exact absurd (hflag.symm.trans hf) (by decide)
  case enqPut | enqFull =>
    obtain ⟨rfl, rfl⟩ := h
    exact .aside rfl rfl rfl rfl rfl fun _ hd => hd

theorem nextRealSend_carry {e : Event Buf} (hc : Calm s pc e s')
    (h : nextRealSend s pc e = some (s', pc')) : Carry s pc s' pc' := by
  -- `Reset` does not run while a session is open
  have hreset {d : Drain Buf} (hd : d.stage = .outside) : d.owns = 1 := by
    rcases d with _ | ⟨_ | _⟩
    · rfl
    · cases hd
    · cases hd
  cases pc <;> simp only [nextRealSend, Option.some.injEq, Prod.mk.injEq, reduceCtorEq] at h
  case realSend c =>
    obtain ⟨rfl, rfl⟩ := h
    exact hc.within rfl (if_neg (not_le.2 hc.unreleased)) rfl rfl id
  case realSendCheck c result =>
    obtain ⟨rfl, rfl⟩ := h
    by_cases hr : RELEASE_FLAG ≤ result
    · rw [if_pos hr]
      exact .aside (if_pos hr) rfl rfl rfl rfl fun _ hd => hd
    · rw [if_neg hr]
      exact hc.within (if_neg hr) rfl rfl rfl id
  case realSendHead c =>
    obtain ⟨rfl, rfl⟩ := h
    exact hc.within rfl rfl rfl rfl id
  case realSendTail c head =>
    split at h
    · cases h
    · obtain ⟨rfl, rfl⟩ := Option.some.inj h
      refine hc.within rfl rfl rfl rfl fun hd => ?_
      exact ⟨(List.append_nil _).trans hd.1, hd.2.1, hd.2.2,
        fun j hj => absurd hj (Nat.not_lt_zero j)⟩
  case realSendStore c bufs =>
    obtain ⟨rfl, rfl⟩ := h
    exact hc.within rfl rfl rfl rfl fun hd => ⟨hd.1, hd.2.1, hd.2.2.1, hd.2.2.2, rfl⟩
  case wsaSend c bufs =>
    cases e <;> simp only [reduceCtorEq] at h
    case result r =>
    split at h <;> rename_i hr <;> obtain ⟨rfl, rfl⟩ := Option.some.inj h
    · subst hr
      exact absurd hc.sent (by simp [failsSend])
    · obtain ⟨hzero, hflag⟩ := hc.alone rfl
      refine .turn (fun _ => Nat.add_pos_left Nat.one_pos _) ?_ (fun hd => ?_) fun hf => ?_
      · rw [show ({ s with
            sends := s.sends ++ [bufs], sendIo := s.sendIo + 1
            sendReady := s.sendReady + if r = .success then 1 else 0 } : Slot Buf).isSending = true
          from hflag, if_pos rfl, c.after.pc_owns]
        simp only [inFlight] at hzero ⊢
        omega
      · have hfly : phase { s with
            sends := s.sends ++ [bufs], sendIo := s.sendIo + 1
            sendReady := s.sendReady + if r = .success then 1 else 0 } c.after.pc = .flying :=
          phase_flying c.after.pc_owns (Nat.succ_pos _)
        rw [hfly]
        exact hd.send
      · exact absurd (hflag.symm.trans hf) (by decide)
  case deqHead d =>
    obtain ⟨rfl, rfl⟩ := h
    exact hc.within (hreset hc.stage) (hreset hc.stage) rfl rfl id
  case deqLoad d head =>
    obtain ⟨rfl, rfl⟩ := h
    have hd := hreset (d := d) hc.stage
    split
    · exact hc.within hd hd rfl rfl id
    · refine hc.within hd (d.empty_owns.trans hd) rfl rfl fun h => ?_
      rcases d with ⟨c, _ | _⟩ | r
      · exact h
      · exact h
      · cases hd
  case deqCas d head =>
    have hd := hreset (d := d) hc.stage
    split at h <;> obtain ⟨rfl, rfl⟩ := h
    · refine hc.within hd hd rfl rfl fun h => ?_
      cases d with
      | realSend c bufs => exact h
      | reset r => cases hd
    · exact hc.within hd hd rfl rfl id
  case deqData d head =>
    obtain ⟨rfl, rfl⟩ := h
    have hd := hreset (d := d) hc.stage
    exact hc.within hd hd rfl rfl id
  case deqClear d head x =>
    have hd := hreset (d := d) hc.stage
    obtain ⟨b, c, n, hn, -, -, hget⟩ := hc.knows
    split at h
    · cases d with
      | reset r => cases hd
      | realSend c bufs =>
        obtain ⟨rfl, rfl⟩ := Option.some.inj h
        split
        · exact hc.within rfl rfl rfl rfl fun h => h.store hn hget
        · exact hc.within rfl rfl rfl rfl fun h => h.store hn hget
    · cases h
  case postSendRelease i =>
    split at h <;> rename_i hi
    · obtain ⟨x, hx, hs⟩ := Option.map_eq_some_iff.1 h
      obtain ⟨rfl, rfl⟩ := hs
      exact hc.within rfl rfl rfl rfl fun h => h.free hi hx
    · obtain ⟨rfl, rfl⟩ := Option.some.inj h
      exact hc.within rfl rfl rfl rfl fun h => h.freed hi
  case postSendClear =>
    obtain ⟨rfl, rfl⟩ := h
    obtain ⟨hzero, -⟩ := hc.alone rfl
    refine .turn (fun _ => Nat.add_pos_left Nat.one_pos _) ?_ (fun hd => ?_) fun _ _ => rfl
    · exact (congrArg (0 + ·) hzero :)
    · have hrest : phase { s with isSending := false } (.canConnect (.postSend s.sessionId)) =
          .rest := phase_rest rfl (Calm.sendIo_eq hzero)
      rw [hrest]
      exact hd

theorem nextLife_carry {e : Event Buf} (hc : Calm s pc e s')
    (h : nextLife index s pc e = some (s', pc')) : Carry s pc s' pc' := by
  have hst := hc.stage
  cases pc <;> simp only [nextLife, Option.some.injEq, Prod.mk.injEq, reduceCtorEq] at h
  case recvExecute =>
    cases e <;> simp only [reduceCtorEq] at h <;> obtain ⟨rfl, rfl⟩ := Option.some.inj h <;>
      exact .aside rfl rfl rfl rfl rfl fun _ hd => hd
  case recvCancel =>
    obtain ⟨rfl, rfl⟩ := h
    exact .aside rfl rfl rfl hc.cancelIo_sendIo s.cancelIo_inFlight fun _ hd => hd
  case recvRef | recvConnect | recvRecheck | timeoutRef =>
    obtain ⟨rfl, rfl⟩ := h
    split <;> exact .aside rfl rfl rfl rfl rfl fun _ hd => hd
  case wsaRecv =>
    cases e with
    | result r =>
      cases r <;> obtain ⟨rfl, rfl⟩ := Option.some.inj h <;>
        exact .aside rfl rfl rfl rfl rfl fun _ hd => hd
    | _ => cases h
  case reset r => cases r <;> cases hst
  case resetSending r => cases r <;> cases hst
  case acceptConnect | timeoutInc =>
    obtain ⟨rfl, rfl⟩ := h
    exact .aside rfl rfl rfl rfl rfl fun _ hd => hd
  all_goals cases hst

theorem start_carry {e : Event Buf} (hc : Calm s .idle e s')
    (h : start index s e = some (s', pc')) : Carry s .idle s' pc' := by
  have hone := hc.one
  have hsending (hpos : 0 < s.inFlight) : s.isSending = true ∧ s.inFlight = 1 := by
    split at hone
    · exact ⟨by assumption, le_antisymm (by omega) hpos⟩
    · omega
  cases e <;> simp only [start, Option.some.injEq, Prod.mk.injEq, reduceCtorEq,
    Option.ite_none_right_eq_some] at h
  case hold | disconnect | sendPacket | sendPacketBlocking | timeout =>
    obtain ⟨rfl, rfl⟩ := h
    exact .aside rfl rfl rfl rfl rfl fun _ hd => hd
  case sendExecutable =>
    split at h
    · cases h
    · rename_i id rest hp
      obtain ⟨rfl, rfl⟩ := Option.some.inj h
      obtain ⟨hflag, hfly⟩ := hsending (by simp only [inFlight, hp, List.length_cons]; omega)
      simp only [inFlight, hp, List.length_cons] at hfly
      refine .turn (fun _ => by simp only [inFlight, hp, List.length_cons]; omega) ?_ (fun hd => ?_)
        fun hf => absurd (hflag.symm.trans hf) (by decide)
      · rw [show ({ s with sendPosted := rest } : Slot Buf).isSending = true from hflag, if_pos rfl]
        simp only [Pc.owns, inFlight]
        omega
      · rw [phase_rest rfl (by omega)] at hd
        exact hd
  case sendDone =>
    obtain ⟨hpos, rfl, rfl⟩ := h
    obtain ⟨hflag, hfly⟩ := hsending (by simp only [inFlight]; omega)
    simp only [inFlight] at hfly
    refine .turn (fun _ => by simp only [inFlight]; omega) ?_ (fun hd => ?_)
      fun hf => absurd (hflag.symm.trans hf) (by decide)
    · rw [show ({ s with
          sendIo := s.sendIo - 1, sendReady := s.sendReady - 1
          completions := s.completions + 1 } : Slot Buf).isSending = true from hflag, if_pos rfl]
      simp only [Pc.owns, inFlight]
      omega
    · rw [phase_flying rfl hpos] at hd
      obtain ⟨init, last, hs, ht, hc', hf, hst, hn⟩ := hd
      refine ⟨init, last, hs, ht, ?_, ?_, hst, hn⟩
      · change s.completions + 1 = s.sends.length
        rw [hc', hs, List.length_append, List.length_singleton]
      · exact hf.trans (List.append_nil _).symm
  case sendFailed | sendAborted => exact absurd hc.sent (by simp [failsSend])
  case releaseExecutable | accept | recvReady | sendReady | recvDone | recvFailed | recvAborted =>
    obtain ⟨hpos, rfl, rfl⟩ := h
    exact .aside rfl rfl rfl rfl rfl fun _ hd => hd

theorem next_carry {e : Event Buf} (hc : Calm s pc e s')
    (h : next index s pc e = some (s', pc')) : Carry s pc s' pc' := by
  unfold next at h
  split at h
  · exact start_carry hc h
  all_goals first
    | exact nextRef_carry hc h | exact nextSend_carry hc h | exact nextRealSend_carry hc h
    | exact nextLife_carry hc h

end Slot

end NetLib
