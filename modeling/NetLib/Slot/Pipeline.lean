import NetLib.Slot.Delivery
/-!
# The send pipeline of one session

One session stays connected, no send fails, and the send queue holds at most
511 tickets. Then one thread at a time sends, in the order of the tickets;
a buffer is released after its `WSASend` has completed; and once everything
has come to rest nothing is left in the queue.

All of this is so from a `Fresh` start. A `SendExecutable` posted for the
session that had the slot before is no fresh start: it sends beside the
session's own sender.
-/

namespace NetLib

namespace Slot

open Lifecycle LockFreeFixedQueue

variable {Buf : Type} {index b n : ℕ} {w w₀ w' : World Buf} {e : ℕ × Event Buf}
  {s s' : Slot Buf} {pc pc' : Pc Buf}

/-! ## The runs -/

/-- The session is connected and unreleased, at most 511 tickets are out,
and no send has been cancelled. -/
structure Steady (w : World Buf) : Prop where
  connected : w.shared.connect = true
  unreleased : w.shared.refCount < RELEASE_FLAG
  room : w.shared.sendQ.size ≤ 511
  kept : w.shared.sendAborted = 0

/-- The side condition of the runs: it stays so, and the step fails no
send. -/
def Undisturbed (w : World Buf) (e : ℕ × Event Buf) (w' : World Buf) : Prop :=
  Steady w' ∧ ∀ pc ∈ w.threads[e.1]?, failsSend pc e.2 = false

instance decidableSteady (w : World Buf) : Decidable (Steady w) :=
  decidable_of_iff (w.shared.connect = true ∧ w.shared.refCount < RELEASE_FLAG ∧
    w.shared.sendQ.size ≤ 511 ∧ w.shared.sendAborted = 0)
    ⟨fun h => ⟨h.1, h.2.1, h.2.2.1, h.2.2.2⟩, fun h => ⟨h.1, h.2, h.3, h.4⟩⟩

instance decidableUndisturbed (w : World Buf) (e : ℕ × Event Buf) (w' : World Buf) :
    Decidable (Undisturbed w e w') := inferInstanceAs (Decidable (_ ∧ ∀ _ ∈ _, _))

/-- A session before its first send, with nothing of the send path left from
the session that had the slot before. -/
structure Fresh (w : World Buf) : Prop where
  connected : w.shared.connect = true
  unreleased : w.shared.refCount < RELEASE_FLAG
  notSending : w.shared.isSending = false
  notPosted : w.shared.sendPosted = []
  notFlying : w.shared.sendIo = 0
  notAborted : w.shared.sendAborted = 0
  tail : w.shared.sendQ.tailIndex = w.shared.sendQ.headIndex
  cells : ∀ i, w.shared.sendQ.loadUsed i = false
  threads : ∀ pc ∈ w.threads, pc.owns = 0 ∧ pc.access = .outside

/-- The histories of the send path start over. -/
def restart (w : World Buf) : World Buf :=
  ⟨{ w.shared with tickets := [], taken := 0, sends := [], completions := 0, freed := [] },
    w.threads⟩

/-! ## An open session -/

theorem Steady.open (h : Steady w) (hs : Sound index w) : Open w := by
  have hone := hs.counted.one
  have hclosed := hs.counted.count_closed
  have hlt := h.unreleased
  simp only [life] at hone hclosed
  simp only [Open, life]
  by_contra hne
  have := hclosed (by omega)
  omega

/-- As long as the slot stays open the references stay below the flag. -/
theorem few_of_unreleased (hs : Sound index w) (hopen : Open w)
    (hst : Slot.step index w e = some w') (hlt : w'.shared.refCount < RELEASE_FLAG) :
    FewRefs w' := by
  have hcount := hs.counted.count_open hopen
  have hfew : ((life w).refs : ℤ) < RELEASE_FLAG := hs.few
  change (life w').count < RELEASE_FLAG at hlt
  unfold FewRefs
  cases life_step hst hs.indexed <;> omega

/-- No thread is in a stage of the slot's life. -/
theorem Open.outside (h : Open w) (hpc : pc ∈ w.threads) : pc.stage = .outside := by
  have hcl := pc.closed_eq
  rw [Pool.eq_zero_of_total h.closed_eq_zero.1 hpc] at hcl
  by_contra hne
  rw [if_neg hne] at hcl
  cases hcl

/-- **With 511 tickets out no `Enqueue` is refused**: the ticket's cell was
cleared a lap ago, also while one cell is dequeued and not cleared. -/
theorem Steady.orderly (h : Steady w) (hs : Sound index w) (ho : Owned b w) : Orderly w e := by
  intro pc hget
  have hpc : w.threads[e.1]? = some pc := hget
  have hmem := List.mem_of_getElem? hpc
  refine ⟨?_, fun hopening => ?_⟩
  · cases pc with
    | enqTicket x c =>
      have hsize := size_eq ho.window
      have := h.room
      simp only [overruns, decide_eq_false_iff_not]
      norm_num
      omega
    | enqLoad t x c =>
      obtain ⟨m, hm, rfl, hx⟩ := ho.window.knows _ (List.mem_map_of_mem hmem)
      obtain ⟨hlt, -⟩ := List.getElem?_eq_some_iff.1 hx
      have hone := ho.drains_le_one hs.counted
      have htakes : (queue w).total Access.takes ≤ 1 := by
        simp only [Pool.total, queue, List.map_map]
        exact (List.sum_le_sum fun q _ => q.access.takes_le).trans hone
      have hsize := size_eq ho.window
      have hroom := h.room
      have hfills : 0 < (queue w).total (Access.fills (idx b m)) := by
        refine lt_of_lt_of_le ?_ (Pool.le_total _ (List.mem_map_of_mem hmem))
        simp only [Pc.access, Access.fills, if_true, Nat.one_pos]
      change m < w.shared.tickets.length at hlt
      exact (ho.window.produced hm (by
        change m + _ < w.shared.taken + 2 ^ 9
        omega) hfills).2.1
    | _ => rfl
  · rw [(h.open hs).outside hmem] at hopening
    cases hopening

/-! ## The invariant -/

/-- The hand is where the flag says, its books are right, and without one
whatever is in the queue has a thread about to look. -/
structure Served (w : World Buf) : Prop where
  hands : owners w = if w.shared.isSending then 1 else 0
  hold : ∀ pc ∈ w.threads, pc.owns = 1 → Delivered w.shared pc.phase
  fly : 0 < w.shared.sendIo → Delivered w.shared .flying
  rest : w.shared.sendIo = 0 → w.total Pc.owns = 0 → Delivered w.shared .rest
  awake : w.shared.isSending = false → w.shared.taken < w.shared.tickets.length →
    ∃ pc ∈ w.threads, pc.wakes w.shared.sendQ.headIndex = true

theorem Served.owns_le (h : Served w) (hpc : pc ∈ w.threads) :
    pc.owns + w.shared.inFlight ≤ if w.shared.isSending then 1 else 0 := by
  have hle := Pool.le_total Pc.owns hpc
  have hhands := h.hands
  simp only [owners] at hhands
  omega

/-- What thread `e.1` may count on. -/
theorem Served.calm (h : Served w) (hs : Sound index w) (ho : Owned b w) (hw : Steady w)
    (hpc : w.threads[e.1]? = some pc) (hok : Undisturbed w e w') :
    Calm w.shared pc e.2 w'.shared := by
  have hmem := List.mem_of_getElem? hpc
  exact {
    stage := (hw.open hs).outside hmem
    sent := hok.2 pc hpc
    unreleased := hok.1.unreleased
    kept := hok.1.kept
    one := h.owns_le hmem
    le := ho.window.le
    knows := ⟨b, _, ho.window.knows _ (List.mem_map_of_mem hmem)⟩ }

/-- Whoever has no hand sees what is in flight, or nothing. -/
theorem Served.delivered (h : Served w) (hpc : pc ∈ w.threads)
    (hothers : pc.owns = 0 → w.total Pc.owns = 0) : Delivered w.shared (phase w.shared pc) := by
  have hone := h.owns_le hpc
  by_cases hown : pc.owns = 1
  · rw [phase_own hown]
    exact h.hold pc hpc hown
  · have hzero : pc.owns = 0 := by split at hone <;> omega
    rcases Nat.eq_zero_or_pos w.shared.sendIo with hio | hio
    · rw [phase_rest hzero hio]
      exact h.rest hio (hothers hzero)
    · rw [phase_flying hzero hio]
      exact h.fly hio

theorem Served.books_step (h : Served w) (hpc : w.threads[e.1]? = some pc)
    (ht : w'.threads = w.threads.set e.1 pc') (hc : Carry w.shared pc w'.shared pc') :
    owners w' = (if w'.shared.isSending then 1 else 0) ∧
      (∀ q ∈ w'.threads, q.owns = 1 → Delivered w'.shared q.phase) ∧
      (0 < w'.shared.sendIo → Delivered w'.shared .flying) ∧
      (w'.shared.sendIo = 0 → w'.total Pc.owns = 0 → Delivered w'.shared .rest) := by
  have hmem := List.mem_of_getElem? hpc
  have hmove := Pool.total_step Pc.owns hpc ht
  have hhands := h.hands
  cases hc with
  | aside hp hp' hflag hio hfly hd =>
    simp only [owners, hfly, hflag] at hhands ⊢
    refine ⟨by omega, ?_, fun hpos => hd _ (h.fly (hio ▸ hpos)),
      fun hzero htot => hd _ (h.rest (hio ▸ hzero) (by omega))⟩
    exact Pool.forall_threads ht (fun q hq hown => hd _ (h.hold q hq hown))
      fun hown => absurd (hp'.symm.trans hown) (by decide)
  | turn hpos hhands' hd hwake =>
    -- all hands are the thread's own or in flight
    have hothers : w.total Pc.owns = pc.owns := by
      have hle := Pool.le_total Pc.owns hmem
      simp only [owners] at hhands
      split at hhands
      · have := hpos (by assumption)
        omega
      · omega
    have hd' := hd (h.delivered hmem fun hzero => hothers.trans hzero)
    have hle' : pc'.owns + w'.shared.inFlight ≤ 1 := by split at hhands' <;> omega
    have htot : w'.total Pc.owns = pc'.owns := by omega
    refine ⟨by simp only [owners, htot, hhands'], ?_, fun hio => ?_, fun hio hzero => ?_⟩
    · refine Pool.forall_threads_of_others ht (fun j q hj hq hown => ?_) fun hown => ?_
      · have := Pool.eq_zero_of_other (f := Pc.owns) hothers.le hj hpc hq
        omega
      · rw [phase_own hown] at hd'
        exact hd'
    · simp only [inFlight] at hle'
      rw [phase_flying (by omega) hio] at hd'
      exact hd'
    · rw [phase_rest (htot.symm.trans hzero) hio] at hd'
      exact hd'

/-- A thread that is about to look sees what there is, and sets the flag. -/
theorem next_wakes (h : next index s pc e.2 = some (s', pc'))
    (hw : pc.wakes s.sendQ.headIndex = true) (hconn : s.connect = true)
    (hflag : s.refCount < RELEASE_FLAG) (hsize : s.sendQ.size ≠ 0) (ho : overruns s pc = false) :
    s'.isSending = true ∨ pc'.wakes s'.sendQ.headIndex = true := by
  cases pc <;> simp only [Pc.wakes, Bool.false_eq_true] at hw
  case enqLoad t x c =>
    simp only [overruns] at ho
    simp only [next, nextSend, ho, Bool.false_eq_true, if_false, Option.some.injEq,
      Prod.mk.injEq] at h
    obtain ⟨rfl, rfl⟩ := h
    exact .inr rfl
  case enqPut t x c =>
    obtain ⟨rfl, rfl⟩ := Prod.mk.inj (Option.some.inj h)
    exact .inr rfl
  case enqPublish t x c =>
    simp only [next, nextSend] at h
    split at h
    · cases h
    · obtain ⟨rfl, rfl⟩ := Prod.mk.inj (Option.some.inj h)
      exact .inr rfl
  case canConnect c =>
    simp only [next, nextSend, hconn, if_true, Option.some.injEq, Prod.mk.injEq] at h
    obtain ⟨rfl, rfl⟩ := h
    exact .inr rfl
  case canRef c =>
    simp only [next, nextSend, if_neg (not_le.2 hflag), Option.some.injEq, Prod.mk.injEq] at h
    obtain ⟨rfl, rfl⟩ := h
    exact .inr rfl
  case canHead c first =>
    subst hw
    obtain ⟨rfl, rfl⟩ := Prod.mk.inj (Option.some.inj h)
    exact .inr (by simp [Pc.wakes])
  case canTail c first head =>
    simp only [Bool.and_eq_true, decide_eq_true_eq] at hw
    obtain ⟨rfl, rfl⟩ := hw
    -- the head it read is still the head
    simp only [next, nextSend] at h
    rw [if_neg (show (s.sendQ.tailIndex - s.sendQ.headIndex).toInt ≠ 0 from hsize)] at h
    obtain ⟨rfl, rfl⟩ := Prod.mk.inj (Option.some.inj h)
    exact .inr rfl
  case canExchange c =>
    simp only [next, nextSend] at h
    split at h <;> rename_i hs <;> obtain ⟨rfl, rfl⟩ := Prod.mk.inj (Option.some.inj h)
    · exact .inl hs
    · exact .inl rfl

/-- A thread with a new ticket is about to look. -/
theorem Pc.wakes_of_load {t : BitVec 32} {x : Buf} (h : pc.access = .load t x)
    (head : BitVec 32) : pc.wakes head = true := by
  cases pc <;> first | rfl | cases h

/-- **No wake-up is lost.** -/
theorem Served.awake_step (h : Served w) (hs : Sound index w) (ho : Owned b w) (hw : Steady w)
    (hpc : w.threads[e.1]? = some pc)
    (hnext : next index w.shared pc e.2 = some (w'.shared, pc'))
    (ht : w'.threads = w.threads.set e.1 pc') (hc : Carry w.shared pc w'.shared pc')
    (hflag' : w'.shared.isSending = false)
    (hlt : w'.shared.taken < w'.shared.tickets.length) :
    ∃ q ∈ w'.threads, q.wakes w'.shared.sendQ.headIndex = true := by
  have hmem := List.mem_of_getElem? hpc
  have hord := (hw.orderly hs ho pc hpc).1
  obtain ⟨hlen, -⟩ := List.getElem?_eq_some_iff.1 hpc
  have hmem' : pc' ∈ w'.threads := by
    rw [ht]
    exact List.mem_set hlen pc'
  cases hc with
  | turn _ _ _ hwake => exact ⟨pc', hmem', hwake hflag' _⟩
  | aside hp hp' hflag _ _ _ =>
    have hacc := next_access hnext (size_eq ho.window) hord
    have hidle := hflag.symm.trans hflag'
    -- who moves the head has the hand
    obtain ⟨hhead, htaken, -⟩ : w'.shared.sendQ.headIndex = w.shared.sendQ.headIndex ∧
        w'.shared.taken = w.shared.taken ∧ _ := by
      refine hacc.head.resolve_right ?_
      rintro ⟨t, hcas, -, -⟩
      have hdrains : 1 ≤ pc.works := by simpa [hcas, Access.drains] using pc.drains_le
      have hle := pc.works_le.1
      have := Pool.eq_zero_of_total (hw.open hs).closed_eq_zero.1 hmem
      omega
    by_cases hold : w.shared.taken < w.shared.tickets.length
    · obtain ⟨q, hq, hwakes⟩ := h.awake hidle hold
      obtain ⟨j, hj⟩ := List.mem_iff_getElem?.1 hq
      by_cases hij : e.1 = j
      · obtain rfl : pc = q := Option.some.inj (hpc.symm.trans (hij ▸ hj))
        have hsize : w.shared.sendQ.size ≠ 0 := by
          have := size_eq ho.window
          omega
        have := next_wakes hnext hwakes hw.connected hw.unreleased hsize hord
        rw [hflag'] at this
        exact ⟨pc', hmem', this.resolve_left Bool.false_ne_true⟩
      · refine ⟨q, ?_, hhead ▸ hwakes⟩
        rw [ht]
        exact List.mem_of_getElem? ((List.getElem?_set_ne hij).trans hj)
    · -- the queue was empty: this is the ticket
      rcases hacc.tickets with htickets | ⟨t, x, hload⟩
      · change w'.shared.tickets = w.shared.tickets at htickets
        rw [htickets, htaken] at hlt
        exact absurd hlt hold
      · exact ⟨pc', hmem', Pc.wakes_of_load hload _⟩

/-- **Every step keeps it.** -/
theorem Served.step (h : Served w) (hs : Sound index w) (ho : Owned b w) (hw : Steady w)
    (hst : Slot.step index w e = some w') (hok : Undisturbed w e w') : Served w' := by
  obtain ⟨pc, pc', hpc, hnext, ht⟩ := Pool.step_eq_some hst
  have hc := next_carry (h.calm hs ho hw hpc hok) hnext
  obtain ⟨hhands, hhold, hfly, hrest⟩ := h.books_step hpc ht hc
  exact ⟨hhands, hhold, hfly, hrest, h.awake_step hs ho hw hpc hnext ht hc⟩

/-! ## The start -/

theorem Sound.restart (h : Sound index w) : Sound index (restart w) :=
  ⟨h.few, h.counted, h.logged, h.sorted, h.drawn, h.fresh, h.posted, h.releasing, h.held⟩

theorem Fresh.steady (h : Fresh w) : Steady (restart w) where
  connected := h.connected
  unreleased := h.unreleased
  room := by
    simp only [size, restart, h.tail, BitVec.sub_self]
    decide
  kept := h.notAborted

theorem Fresh.owners_eq (h : Fresh w) : w.total Pc.owns = 0 ∧ w.shared.inFlight = 0 := by
  constructor
  · exact Pool.total_eq_zero fun pc hpc => (h.threads pc hpc).1
  · simp [inFlight, h.notPosted, h.notFlying, h.notAborted]

theorem Fresh.served (h : Fresh w) : Served (restart w) where
  hands := by
    simp only [owners, restart, h.notSending, Bool.false_eq_true, if_false]
    have := h.owners_eq
    exact Nat.add_eq_zero_iff.2 this
  hold := fun pc hpc hown => absurd ((h.threads pc hpc).1.symm.trans hown) (by decide)
  fly := fun hpos => absurd (h.notFlying ▸ hpos) (lt_irrefl 0)
  rest := fun _ _ => ⟨rfl, rfl, rfl⟩
  awake := fun _ hlt => absurd hlt (lt_irrefl 0)

theorem Fresh.owned (h : Fresh w) :
    Owned w.shared.sendQ.headIndex.toNat (restart w) := by
  have hidle (pc : Pc Buf) (hpc : pc ∈ w.threads) := h.threads pc hpc
  have hhead : w.shared.sendQ.headIndex = idx w.shared.sendQ.headIndex.toNat 0 := by
    simp [idx]
  have houtside : ∀ a ∈ (queue (restart w)).threads, a = .outside := by
    intro a ha
    obtain ⟨pc, hpc, rfl⟩ := List.mem_map.1 ha
    exact (hidle pc hpc).2
  obtain ⟨hzero, hfly⟩ := h.owners_eq
  exact {
    one := fun _ => by
      rw [show owners (restart w) = 0 from Nat.add_eq_zero_iff.2 ⟨hzero, hfly⟩]
      exact Nat.zero_le _
    posted := fun _ id hid => by
      rw [show (restart w).shared.sendPosted = [] from h.notPosted] at hid
      cases hid
    sends := fun _ pc hpc id hid => by
      rw [pc.postedFor_eq_nil (hidle pc hpc).1] at hid
      cases hid
    ready := fun _ hpos => by
      have hle : (restart w).total Pc.ready ≤ w.total Pc.owns :=
        List.sum_le_sum fun q _ => q.ready_le
      rw [show (restart w).shared.sendPosted = [] from h.notPosted, List.length_nil] at hpos
      omega
    heads := fun pc hpc t hread => by
      -- a head that matters is in the hand
      have hown := Pc.owns_of_headRead hread
      exact absurd ((hidle pc hpc).1.symm.trans hown) (by decide)
    window := .start hhead (h.tail.trans hhead) rfl rfl (fun _ => h.cells _) houtside }

/-! ## Runs -/

/-- The session and its pipeline. -/
structure Serving (index b : ℕ) (w : World Buf) : Prop where
  sound : Sound index w
  owned : Owned b w
  served : Served w
  steady : Steady w

/-- **The invariant along a run.** -/
theorem Serving.run (h₀ : Sound index w₀) (hf : Fresh w₀)
    (h : Runs (Slot.step index) Undisturbed (restart w₀) w) :
    Serving index w₀.shared.sendQ.headIndex.toNat w := by
  refine h.invariant ⟨h₀.restart, hf.owned, hf.served, hf.steady⟩ ?_
  intro v v' e hv hst hok
  have hfew := few_of_unreleased hv.sound (hv.steady.open hv.sound) hst hok.1.unreleased
  exact {
    sound := hv.sound.step hst hfew
    owned := hv.owned.step hv.sound hst (hv.steady.orderly hv.sound hv.owned)
    served := hv.served.step hv.sound hv.owned hv.steady hst hok
    steady := hok.1 }

/-- Is the thread in `RealSend`, but not about to turn back at its check? -/
def Pc.inRealSend : Pc Buf → ℕ
  | .realSendCheck _ result => if RELEASE_FLAG ≤ result then 0 else 1
  | .deqHead d | .deqLoad d _ | .deqCas d _ | .deqData d _ | .deqClear d _ _ => d.owns
  | .realSend _ | .realSendHead _ | .realSendTail _ _ | .realSendStore _ _ | .wsaSend _ _ => 1
  | _ => 0

theorem Pc.inRealSend_le (pc : Pc Buf) : pc.inRealSend ≤ pc.owns := by
  cases pc <;> first | exact le_rfl | exact Nat.zero_le _

/-- Is the thread in a call of the send path, from the ticket on? -/
def Pc.inSend : Pc Buf → Bool
  | .enqTicket _ _ | .enqLoad _ _ _ | .enqPut _ _ _ | .enqPublish _ _ _ | .enqFull _
  | .canConnect _ | .canRef _ | .canHead _ _ | .canTail _ _ _ | .canExchange _ | .canClear _
  | .postSendExecutable _ | .realSend _ | .realSendCheck _ _ | .realSendHead _
  | .realSendTail _ _ | .realSendStore _ _ | .wsaSend _ _ | .deqHead _ | .deqLoad _ _
  | .deqCas _ _ | .deqData _ _ | .deqClear _ _ _ | .postSendRelease _ | .postSendClear => true
  | _ => false

/-- No call of the send path in progress, nothing posted, no send in
flight. -/
def Quiescent (w : World Buf) : Prop :=
  (∀ pc ∈ w.threads, pc.inSend = false) ∧ w.shared.sendPosted = [] ∧ w.shared.sendIo = 0

theorem Pc.owns_eq_zero (h : pc.inSend = false) : pc.owns = 0 := by
  cases pc <;> first | rfl | cases h

theorem Pc.not_wakes (h : pc.inSend = false) (head : BitVec 32) : pc.wakes head = false := by
  cases pc <;> first | rfl | cases h

/-- Some phase's books are right. -/
theorem Served.exists_delivered (h : Served w) : ∃ ph, Delivered w.shared ph := by
  by_cases hfly : 0 < w.shared.sendIo
  · exact ⟨_, h.fly hfly⟩
  · rcases Nat.eq_zero_or_pos (w.total Pc.owns) with hzero | hpos
    · exact ⟨_, h.rest (by omega) hzero⟩
    · obtain ⟨pc, hpc, hown⟩ := Pool.exists_of_total_pos hpos
      have := h.owns_le hpc
      exact ⟨_, h.hold pc hpc (by split at this <;> omega)⟩

/-- **At rest, nothing is left.** -/
theorem Serving.quiescent (h : Serving index b w) (hq : Quiescent w) :
    w.shared.sendQ.size = 0 ∧ w.shared.sends.flatten = w.shared.tickets ∧
      w.shared.freed = w.shared.tickets := by
  obtain ⟨hthreads, hposted, hio⟩ := hq
  have hzero : w.total Pc.owns = 0 :=
    Pool.total_eq_zero fun pc hpc => Pc.owns_eq_zero (hthreads pc hpc)
  have hidle : w.shared.isSending = false := by
    have hhands := h.served.hands
    simp only [owners, inFlight, hzero, hposted, hio, h.steady.kept] at hhands
    by_contra hflag
    rw [if_pos (Bool.eq_true_of_not_eq_false hflag)] at hhands
    exact absurd hhands (by decide)
  have hall : w.shared.tickets.length ≤ w.shared.taken := by
    by_contra hlt
    obtain ⟨pc, hpc, hwakes⟩ := h.served.awake hidle (not_le.1 hlt)
    rw [Pc.not_wakes (hthreads pc hpc)] at hwakes
    cases hwakes
  obtain ⟨hsends, -, hfreed⟩ := h.served.rest hio hzero
  rw [List.take_of_length_le hall] at hsends
  refine ⟨?_, hsends, hfreed.trans hsends⟩
  have hle : w.shared.taken ≤ w.shared.tickets.length := h.owned.window.le
  rw [size_eq h.owned.window]
  omega

/-- **The send pipeline is exclusive, ordered and complete.** From a
connected session before its first send, in every run in which it stays
connected and unreleased, at most 511 tickets are out and no send fails:

* at most one `RealSend` or `WSASend` is in progress;
* the buffers passed to `WSASend` are the tickets, in their order, each
  once;
* those released are, in the same order and each once, of batches whose
  `WSASend` has completed;
* at rest the queue is empty, and every buffer was sent and released. -/
theorem send_pipeline [Inhabited Buf]
    (h₀ : Runs (Slot.step index) (fun _ _ => FewRefs) (World.initial n) w₀) (hf : Fresh w₀)
    (h : Runs (Slot.step index) Undisturbed (restart w₀) w) :
    w.total Pc.inRealSend + w.shared.sendIo ≤ 1 ∧
      w.shared.sends.flatten <+: w.shared.tickets ∧
      w.shared.freed <+: (w.shared.sends.take w.shared.completions).flatten ∧
      (Quiescent w → w.shared.sendQ.size = 0 ∧ w.shared.sends.flatten = w.shared.tickets ∧
        w.shared.freed = w.shared.tickets) := by
  have hserving := Serving.run (Sound.run h₀) hf h
  obtain ⟨ph, hd⟩ := hserving.served.exists_delivered
  obtain ⟨hfreed, hsends⟩ := hd.freed_prefix
  refine ⟨?_, hsends, hfreed, hserving.quiescent⟩
  have hle : w.total Pc.inRealSend ≤ w.total Pc.owns :=
    List.sum_le_sum fun pc _ => pc.inRealSend_le
  have hhands := hserving.served.hands
  simp only [owners, inFlight] at hhands
  split at hhands <;> omega

/-- A session is accepted. -/
def acceptOne : List (ℕ × Event ℕ) := (0, .accept 0) :: List.replicate 8 (0, .go)

/-- A buffer is enqueued and posted, a worker sends it, the send completes. -/
def sendOne : List (ℕ × Event ℕ) :=
  (1, .sendPacket ⟨1, 0⟩ 7) :: List.replicate 15 (1, .go) ++
    (1, .sendExecutable) :: List.replicate 12 (1, .go) ++
    (1, .result .pending) :: (1, .sendDone) :: List.replicate 8 (1, .go)

/-- The slot with one session accepted, and a second thread. -/
def connectedOne : World ℕ where
  shared := { (Slot.initial : Slot ℕ) with
    refCount := 1, sessionId := ⟨1, 0⟩, connect := true, gSessionId := 1, free := 0
    accepted := [⟨1, 0⟩] }
  threads := [.recvRef, .idle]

/-- One buffer goes all the way. -/
theorem send_pipeline_one :
    exec (Slot.step 0) (World.initial 2) acceptOne = some connectedOne ∧ Fresh connectedOne ∧
      ∃ w, exec (Slot.step 0) (restart connectedOne) sendOne = some w ∧
        w.shared.sends.flatten = [7] ∧ w.shared.freed = [7] ∧ w.shared.sendQ.size = 0 := by
  have hw₀ : exec (Slot.step 0) (World.initial 2) acceptOne = some connectedOne := by rfl
  have hfresh : Fresh connectedOne := {
    connected := by rfl
    unreleased := by decide
    notSending := by rfl
    notPosted := by rfl
    notFlying := by rfl
    notAborted := by rfl
    tail := by rfl
    cells := fun i => by rfl
    threads := by simp [connectedOne, Pc.owns, Pc.access] }
  have hmap : (exec (Slot.step 0) (restart connectedOne) sendOne).map (fun w =>
      (w.threads, w.shared.tickets, w.shared.sendPosted, w.shared.sendIo)) =
        some ([.recvRef, .idle], [7], [], 0) := by rfl
  obtain ⟨w, hw, hall⟩ := Option.map_eq_some_iff.1 hmap
  simp only [Prod.mk.injEq] at hall
  obtain ⟨hthreads, htickets, hposted, hio⟩ := hall
  have hquiescent : Quiescent w := ⟨by simp [hthreads, Pc.inSend], hposted, hio⟩
  have hrun : Runs (Slot.step 0) Undisturbed (restart connectedOne) w :=
    runs_of_exec hw (by decide)
  obtain ⟨-, -, -, hrest⟩ := send_pipeline (runs_of_exec hw₀ (by decide)) hfresh hrun
  obtain ⟨hsize, hsends, hfreed⟩ := hrest hquiescent
  exact ⟨hw₀, hfresh, w, hw, hsends.trans htickets, hfreed.trans htickets, hsize⟩

/-- Session 1 is released and reset with its `SendExecutable` still posted,
and session 2 accepted on the slot. -/
def leftOver : List (ℕ × Event ℕ) :=
  acceptAndPost ++ (0, .recvFailed) :: List.replicate 3 (0, .go) ++
    (0, .releaseExecutable) :: List.replicate 11 (0, .go) ++
    (0, .accept 0) :: List.replicate 8 (0, .go)

/-- Session 2 sends, and a worker takes the `SendExecutable` of session 1. -/
def twoSenders : List (ℕ × Event ℕ) :=
  (2, .sendPacketBlocking ⟨2, 0⟩ 8) :: List.replicate 15 (2, .go) ++
    (1, .sendExecutable) :: List.replicate 2 (1, .go)

/-- **Two threads send at once.** Session 2 has just been connected, it stays
so, one ticket is out and no send fails; but the `SendExecutable` of session
1 passes the check of `IncreaseRef` while `SendPacketBlocking` is in
`RealSend`. -/
theorem leftover_sends_too : ∃ w₀ w : World ℕ,
    exec (Slot.step 0) (World.initial 3) leftOver = some w₀ ∧
      Runs (Slot.step 0) (fun _ _ => FewRefs) (World.initial 3) w₀ ∧
      w₀.threads = [.recvRef, .idle, .idle] ∧ w₀.shared.sessionId = ⟨2, 0⟩ ∧
      w₀.shared.sendPosted = [⟨1, 0⟩] ∧
      exec (Slot.step 0) (restart w₀) twoSenders = some w ∧
      Runs (Slot.step 0) Undisturbed (restart w₀) w ∧
      w.threads = [.recvRef, .realSendHead (.sendExecutable ⟨1, 0⟩),
        .realSendHead (.sendPacketBlocking ⟨2, 0⟩)] ∧
      w.total Pc.inRealSend = 2 := by
  have hmap : (exec (Slot.step 0) (World.initial 3) leftOver).map (fun w =>
      (w.threads, w.shared.sessionId, w.shared.sendPosted)) =
      some ([.recvRef, .idle, .idle], ⟨2, 0⟩, [⟨1, 0⟩]) := by rfl
  obtain ⟨w₀, hw₀, hall⟩ := Option.map_eq_some_iff.1 hmap
  simp only [Prod.mk.injEq] at hall
  obtain ⟨hthreads₀, hid, hposted⟩ := hall
  have hmap' : ((exec (Slot.step 0) (World.initial 3) leftOver).bind fun w =>
      exec (Slot.step 0) (restart w) twoSenders).map (·.threads) =
      some [.recvRef, .realSendHead (.sendExecutable ⟨1, 0⟩),
        .realSendHead (.sendPacketBlocking ⟨2, 0⟩)] := by rfl
  have hmeets : ((exec (Slot.step 0) (World.initial 3) leftOver).map fun w =>
      execMeets (Slot.step 0) Undisturbed (restart w) twoSenders) = some true := by decide +kernel
  rw [hw₀, Option.bind_some] at hmap'
  rw [hw₀, Option.map_some] at hmeets
  obtain ⟨w, hw, hthreads⟩ := Option.map_eq_some_iff.1 hmap'
  refine ⟨w₀, w, hw₀, runs_of_exec hw₀ (by decide), hthreads₀, hid, hposted, hw,
    runs_of_exec hw (Option.some.inj hmeets), hthreads, ?_⟩
  rw [Pool.total, hthreads]
  rfl

end Slot

end NetLib
