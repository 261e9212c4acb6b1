import NetLib.Slot.Owner
/-!
# For which session `RealSend` runs

A posted `SendExecutable` holds no reference. If none is left over when the
slot is opened again, and the send queue is not overrun, then every
`RealSend` past its check runs for the session `CanSend` answered for, it
is alone, and the queue has a ticket for it.
-/

namespace NetLib

namespace Slot

open Lifecycle LockFreeFixedQueue

variable {Buf : Type} {index b : ℕ} {w w' : World Buf} {e : ℕ × Event Buf} {pc pc' : Pc Buf}

/-! ## One thread works -/

/-- Is the thread between a reading of the head and what it does with it? -/
def Pc.works : Pc Buf → ℕ
  | .canTail _ first _ => if first then 0 else 1
  | .realSendHead _ | .realSendTail _ _ | .realSendStore _ _ | .wsaSend _ _
  | .deqHead _ | .deqLoad _ _ | .deqCas _ _ | .deqData _ _ | .deqClear _ _ _ => 1
  | _ => 0

theorem Pc.works_le (pc : Pc Buf) :
    pc.works ≤ pc.owns + pc.closed ∧ pc.works ≤ pc.pinned + pc.closed := by
  have hd (d : Drain Buf) : 1 ≤ d.owns + d.closed ∧ 1 ≤ d.refs + d.closed := by
    cases d
    · exact ⟨le_rfl, Nat.le_add_right 1 _⟩
    · exact ⟨le_rfl, le_rfl⟩
  cases pc
  case deqHead d | deqLoad d _ | deqCas d _ | deqData d _ | deqClear d _ _ => exact hd d
  case canTail c first h => cases first <;> simp [works, owns, pinned, refs, closed]
  case realSendHead c | realSendTail c _ | realSendStore c _ | wsaSend c _ =>
    exact ⟨le_rfl, Nat.le_add_right 1 _⟩
  all_goals exact ⟨Nat.zero_le _, Nat.zero_le _⟩

theorem Pc.drains_le (pc : Pc Buf) : pc.access.drains ≤ pc.works := by
  cases pc <;> simp [access, Access.drains, works]

theorem Pc.ready_le (pc : Pc Buf) : pc.ready ≤ pc.owns := by
  have hd (d : Drain Buf) : d.ready ≤ d.owns := by
    rcases d with ⟨c, _ | _⟩ | r <;> simp [Drain.ready, Drain.owns]
  cases pc
  case deqHead d | deqLoad d _ | deqCas d _ => exact hd d
  all_goals first | exact le_rfl | exact Nat.zero_le _

/-- A hand that no pinned reference comes with is a worker's with a
`SendExecutable`. -/
theorem Pc.owns_le (pc : Pc Buf) (h : pc.unpinned = false) : pc.owns ≤ pc.pinned := by
  have hd (d : Drain Buf) : d.owns ≤ d.refs := by
    cases d
    · exact Nat.le_add_right 1 _
    · exact le_rfl
  cases pc
  case deqHead d | deqLoad d _ | deqCas d _ | deqData d _ | deqClear d _ _ => exact hd d
  case canHead c first => cases first <;> simp [owns, pinned, refs]
  case canTail c first head => cases first <;> simp [owns, pinned, refs]
  case realSend c => cases c <;> simp_all [owns, pinned, refs, Caller.refs, unpinned]
  case realSendCheck c result => exact Nat.le_add_right _ _
  case realSendHead c | realSendTail c _ | realSendStore c _ | wsaSend c _ =>
    exact Nat.le_add_right 1 _
  all_goals first | exact le_rfl | exact Nat.zero_le _

theorem Pc.postedFor_eq_nil (pc : Pc Buf) (h : pc.owns = 0) : pc.postedFor = [] := by
  cases pc
  case deqHead d | deqLoad d _ | deqCas d _ | deqData d _ | deqClear d _ _ =>
    cases d
    · exact absurd h Nat.one_ne_zero
    · rfl
  case realSendCheck c result =>
    simp only [owns] at h
    split at h <;> simp_all [postedFor]
  all_goals first | rfl | exact absurd h Nat.one_ne_zero

/-! ## The invariant -/

/-- A session is open on the slot. -/
def Open (w : World Buf) : Prop := (life w).owed + (life w).closed = 0

/-- Who may send, for whom, and what the queue has for it. -/
structure Owned (b : ℕ) (w : World Buf) : Prop where
  one : Open w → owners w ≤ if w.shared.isSending then 1 else 0
  posted : Open w → ∀ id ∈ w.shared.sendPosted, id = w.shared.sessionId
  sends : Open w → ∀ pc ∈ w.threads, ∀ id ∈ pc.postedFor, id = w.shared.sessionId
  ready : Open w → 0 < w.total Pc.ready + w.shared.sendPosted.length →
    w.shared.taken < w.shared.tickets.length
  heads : ∀ pc ∈ w.threads, ∀ h, pc.headRead = some h → h = w.shared.sendQ.headIndex
  window : Window b (queue w)

/-- While a session is open no thread is in a stage of the slot's life. -/
theorem Open.closed_eq_zero (h : Open w) : w.total Pc.closed = 0 ∧ w.total Pc.owed = 0 := by
  simp only [Open, life] at h
  omega

/-- What at most one hand has on an open slot, and what only references and
the thread of the closed slot have, at most one thread has. -/
theorem Owned.total_le_one (h : Owned b w) (hc : Counted RELEASE_FLAG (life w)) {f : Pc Buf → ℕ}
    (hf : ∀ pc : Pc Buf, f pc ≤ pc.owns + pc.closed ∧ f pc ≤ pc.pinned + pc.closed) :
    w.total f ≤ 1 := by
  have hsum (g k : Pc Buf → ℕ) (hle : ∀ pc, f pc ≤ g pc + k pc) :
      w.total f ≤ w.total g + w.total k := by
    simp only [Pool.total, ← List.sum_map_add]
    exact List.sum_le_sum fun pc _ => hle pc
  by_cases ho : Open w
  · have hone := h.one ho
    have := hsum Pc.owns Pc.closed fun pc => (hf pc).1
    have := ho.closed_eq_zero.1
    simp only [owners] at hone
    split at hone <;> omega
  · have hpin := hc.pinned
    have hle := hc.one
    have := hsum Pc.pinned Pc.closed fun pc => (hf pc).2
    simp only [life, Open] at ho hpin hle
    omega

/-- **At most one thread works**, open or closed. -/
theorem Owned.works_le_one (h : Owned b w) (hc : Counted RELEASE_FLAG (life w)) :
    w.total Pc.works ≤ 1 :=
  h.total_le_one hc Pc.works_le

theorem Owned.drains_le_one (h : Owned b w) (hc : Counted RELEASE_FLAG (life w)) :
    w.total (fun pc => pc.access.drains) ≤ 1 :=
  (List.sum_le_sum fun pc _ => pc.drains_le).trans (h.works_le_one hc)

/-- No hands are left on a closed slot, but for the posted ones. -/
theorem owners_eq_zero (hc : Counted RELEASE_FLAG (life w)) (ho : ¬ Open w)
    (hposted : w.shared.sendPosted = []) (hthreads : ∀ pc ∈ w.threads, pc.unpinned = false) :
    owners w = 0 := by
  have hpin := hc.pinned
  simp only [life, Open] at ho hpin
  have hle : w.total Pc.owns ≤ w.total Pc.pinned :=
    List.sum_le_sum fun pc hpc => pc.owns_le (hthreads pc hpc)
  simp only [owners, inFlight, hposted, List.length_nil]
  simp only [io] at hpin
  omega

/-! ## The side condition -/

/-- The next action of thread `e.1` neither overruns the send queue nor
opens the slot with a `SendExecutable` left over. -/
def Orderly (w : World Buf) (e : ℕ × Event Buf) : Prop :=
  ∀ pc ∈ w.threads[e.1]?, overruns w.shared pc = false ∧
    (pc.stage = .opening → w.shared.sendPosted = [] ∧ ∀ q ∈ w.threads, q.unpinned = false)

instance decidableOrderly (w : World Buf) (e : ℕ × Event Buf) : Decidable (Orderly w e) :=
  inferInstanceAs (Decidable (∀ _ ∈ _, _))

/-! ## Every step keeps it -/

/-- A session is opened by `OffReleaseFlag`. -/
theorem open_of_step (h : Sound index w) (hst : Slot.step index w e = some w')
    (hn : Naming index w.shared pc e.2 w'.shared pc')
    (hopen : Open w') : Open w ∨ pc.stage = .opening := by
  have hlife := life_step hst h.indexed
  have hsame (hcl : (life w').closed = (life w).closed) (ho : (life w').owed = (life w).owed) :
      Open w := by
    unfold Open at hopen ⊢
    rw [← hcl, ← ho]
    exact hopen
  unfold Open at hopen
  cases hlife with
  | stay _ _ _ _ ho hcl => exact .inl (hsame hcl ho)
  | take _ _ _ _ ho hcl => exact .inl (hsame hcl ho)
  | give _ _ _ _ _ ho hcl => exact .inl (hsame hcl ho)
  | lose _ _ _ _ _ ho hcl => exact .inl (hsame hcl ho)
  | win => omega
  | post => omega
  | rename _ _ _ _ _ ho hcl => exact .inl (hsame hcl ho)
  | reopen _ _ _ _ _ _ _ hopened =>
    -- only `OffReleaseFlag` adds to the ids opened
    have hne (hacc : w'.shared.accepted = w.shared.accepted) : False := by
      have hlen := congrArg List.length (hopened.symm.trans hacc)
      simp [life] at hlen
    cases hn with
    | openUp hold => exact .inr (hold ▸ rfl)
    | same _ hacc => exact (hne hacc).elim
    | draw _ _ _ _ _ hacc => exact (hne hacc).elim
    | name _ _ _ hacc => exact (hne hacc).elim
    | post _ _ hacc => exact (hne hacc).elim
    | take _ _ hacc => exact (hne hacc).elim
    | giveBack _ _ hacc => exact (hne hacc).elim

/-- While it is open the slot keeps its id. -/
theorem Open.sessionId_eq (h : Open w) (hpc : w.threads[e.1]? = some pc)
    (hn : Naming index w.shared pc e.2 w'.shared pc') :
    w'.shared.sessionId = w.shared.sessionId := by
  cases hn with
  | name id hold =>
    have := Pool.le_total Pc.closed (List.mem_of_getElem? hpc)
    rw [h.closed_eq_zero.1, hold] at this
    exact absurd this (Nat.not_succ_le_zero 0)
  | same hid => exact hid
  | draw _ _ _ _ hid => exact hid
  | openUp _ hid => exact hid
  | post _ hid => exact hid
  | take _ hid => exact hid
  | giveBack _ hid => exact hid

/-- The hands after a step. -/
theorem owners_step (hpc : w.threads[e.1]? = some pc) (ht : w'.threads = w.threads.set e.1 pc') :
    owners w' + pc.owns + w.shared.inFlight = owners w + pc'.owns + w'.shared.inFlight := by
  have := Pool.total_step Pc.owns hpc ht
  simp only [owners]
  omega

theorem Owned.one_step (hs : Sound index w) (h : Owned b w) (hpc : w.threads[e.1]? = some pc)
    (ht : w'.threads = w.threads.set e.1 pc') (hp : Passing w.shared pc w'.shared pc')
    (ho : Orderly w e) (hopen : Open w ∨ pc.stage = .opening) :
    owners w' ≤ if w'.shared.isSending then 1 else 0 := by
  have hmove := owners_step hpc ht
  have hmem := List.mem_of_getElem? hpc
  by_cases hw : Open w
  · have hone := h.one hw
    cases hp with
    | keep hflag hle => rw [hflag]; omega
    | set hold hflag hle =>
      rw [hold] at hone
      rw [hflag, if_pos rfl]
      simp only [Bool.false_eq_true, if_false] at hone
      omega
    | clear hle => split at hone <;> omega
    | reset hstage =>
      have := Pool.le_total Pc.closed hmem
      rw [pc.closed_eq, if_neg hstage, hw.closed_eq_zero.1] at this
      omega
  · have hst := hopen.resolve_left hw
    obtain ⟨hposted, hthreads⟩ := (ho pc hpc).2 hst
    have hzero := owners_eq_zero hs.counted hw hposted hthreads
    cases hp with
    | keep hflag hle => omega
    | set hold hflag hle => rw [hflag, if_pos rfl]; omega
    | clear hle => omega
    | reset hstage hle => omega

/-- Right after the slot was opened there are no hands, so nothing has been
posted and no thread is on its way. -/
theorem quiet_of_opening (hs : Sound index w) (hpc : w.threads[e.1]? = some pc)
    (ht : w'.threads = w.threads.set e.1 pc') (hp : Passing w.shared pc w'.shared pc')
    (hpin : pc.pinned = 0) (ho : Orderly w e) (hw : ¬ Open w) (hst : pc.stage = .opening) :
    owners w' = 0 := by
  obtain ⟨hposted, hthreads⟩ := (ho pc hpc).2 hst
  have hzero := owners_eq_zero hs.counted hw hposted hthreads
  have hmove := owners_step hpc ht
  cases hp with
  | keep hflag hle => omega
  | set hold hflag hle hpos => omega
  | clear hle => omega
  | reset hstage hle => omega

/-- Nobody works while `OffReleaseFlag` is about to run. -/
theorem Pc.opening_pinned (h : pc.stage = .opening) : pc.pinned = 0 := by
  have hd (d : Drain Buf) : d.stage ≠ .opening := by
    rcases d with _ | ⟨_ | _⟩ <;> simp [Drain.stage, Resetter.stage]
  cases pc
  case deqHead d | deqLoad d _ | deqCas d _ | deqData d _ | deqClear d _ _ => exact absurd h (hd d)
  all_goals first | rfl | cases h

theorem Owned.posted_step (hs : Sound index w) (h : Owned b w) (hpc : w.threads[e.1]? = some pc)
    (ht : w'.threads = w.threads.set e.1 pc') (hn : Naming index w.shared pc e.2 w'.shared pc')
    (ha : Advance w.shared pc w'.shared pc') (hw : Open w) :
    (∀ id ∈ w'.shared.sendPosted, id = w'.shared.sessionId) ∧
      ∀ q ∈ w'.threads, ∀ id ∈ q.postedFor, id = w'.shared.sessionId := by
  have hmem := List.mem_of_getElem? hpc
  rw [hw.sessionId_eq hpc hn]
  have hnew (id : SessionID) (hid : id ∈ w'.shared.sendPosted ∨ id ∈ pc'.postedFor) :
      id = w.shared.sessionId := by
    rcases ha.posted id hid with hid | hid | hid
    · exact h.posted hw id hid
    · exact h.sends hw pc hmem id hid
    · exact (hs.held pc hmem id hid).symm
  exact ⟨fun id hid => hnew id (.inl hid),
    Pool.forall_threads ht (h.sends hw) fun id hid => hnew id (.inr hid)⟩

/-- A thread that has read the head works, if it is to act on it. -/
theorem Pc.works_of_headRead {t : BitVec 32} (h : pc.headRead = some t) : pc.works = 1 := by
  cases pc with
  | canTail c first head => cases first <;> first | rfl | cases h
  | realSendTail => rfl
  | _ => cases h

/-- And it has the right to send. -/
theorem Pc.owns_of_headRead {t : BitVec 32} (h : pc.headRead = some t) : pc.owns = 1 := by
  cases pc with
  | canTail c first head => cases first <;> first | rfl | cases h
  | realSendTail => rfl
  | _ => cases h

theorem Owned.heads_step (hs : Sound index w) (h : Owned b w) (hpc : w.threads[e.1]? = some pc)
    (ht : w'.threads = w.threads.set e.1 pc')
    (hacc : AccessStep w.shared.traced pc.access w'.shared.traced pc'.access)
    (ha : Advance w.shared pc w'.shared pc') :
    ∀ q ∈ w'.threads, ∀ t, q.headRead = some t → t = w'.shared.sendQ.headIndex := by
  rcases hacc.head with ⟨hhead, -, -⟩ | ⟨t, hcas, -, -⟩
  · rw [show w'.shared.sendQ.headIndex = w.shared.sendQ.headIndex from hhead]
    exact Pool.forall_threads ht h.heads fun t hh => (ha.head t hh).1
  · -- the thread that moves the head is the only one at work
    have hworks : 1 ≤ pc.works := by simpa [hcas, Access.drains] using pc.drains_le
    have hone := h.works_le_one hs.counted
    refine Pool.forall_threads_of_others ht (fun j q hj hq t hh => ?_) fun t hh => ?_
    · have := Pool.eq_zero_of_other (f := Pc.works) (hone.trans hworks) hj hpc hq
      rw [Pc.works_of_headRead hh] at this
      cases this
    · have := (ha.head t hh).2
      rw [hcas] at this
      cases this

theorem Owned.ready_step (h : Owned b w) (hpc : w.threads[e.1]? = some pc)
    (ht : w'.threads = w.threads.set e.1 pc')
    (hacc : AccessStep w.shared.traced pc.access w'.shared.traced pc'.access)
    (ha : Advance w.shared pc w'.shared pc') (hw : Open w) (hw' : Open w')
    (hone : owners w' ≤ 1) (hpos : 0 < w'.total Pc.ready + w'.shared.sendPosted.length) :
    w'.shared.taken < w'.shared.tickets.length := by
  have hmem := List.mem_of_getElem? hpc
  have hmove := Pool.total_step Pc.ready hpc ht
  rcases hacc.head with ⟨-, htaken, hlen⟩ | ⟨t, hcas, htake, -⟩
  · change w'.shared.taken = w.shared.taken at htaken
    change w.shared.tickets.length ≤ w'.shared.tickets.length at hlen
    have hlt : w.shared.taken < w.shared.tickets.length := by
      rcases ha.ready with hle | ⟨head, hread, hne⟩
      · exact h.ready hw (by omega)
      · -- `CanSend` saw that the queue is not empty
        rw [h.heads pc hmem head hread] at hne
        have hsize := size_eq h.window
        have hle : w.shared.taken ≤ w.shared.tickets.length := h.window.le
        simp only [LockFreeFixedQueue.size] at hsize
        omega
    omega
  · -- the first buffer is taken: nobody else had the right to it
    exfalso
    obtain ⟨hlt, -⟩ := List.getElem?_eq_some_iff.1 hpc
    have hpc' : w'.threads[e.1]? = some pc' := by rw [ht, List.getElem?_set_self hlt]
    have howns : 1 ≤ pc'.owns := by
      have hworks : 1 ≤ pc'.works := by simpa [htake, Access.drains] using pc'.drains_le
      have := pc'.works_le.1
      have := Pool.eq_zero_of_total hw'.closed_eq_zero.1 (List.mem_of_getElem? hpc')
      omega
    simp only [owners, inFlight] at hone
    have hle := Pool.le_total Pc.owns (List.mem_of_getElem? hpc')
    obtain ⟨q, hq, hqpos⟩ := Pool.exists_of_total_pos (f := Pc.ready) (w := w') (by omega)
    obtain ⟨j, hj⟩ := List.mem_iff_getElem?.1 hq
    by_cases hij : e.1 = j
    · subst hij
      obtain rfl := Option.some.inj (hj.symm.trans hpc')
      cases q <;> simp [Pc.access, Pc.ready] at htake hqpos
    · have hsum := Pool.add_le_sum_map Pc.owns hij hpc' hj
      change _ ≤ w'.total _ at hsum
      have := q.ready_le
      omega

/-- **Every step keeps it**, as long as it is orderly. -/
theorem Owned.step (hs : Sound index w) (h : Owned b w) (hst : Slot.step index w e = some w')
    (ho : Orderly w e) : Owned b w' := by
  obtain ⟨pc, pc', hpc, hnext, ht⟩ := Pool.step_eq_some hst
  have hn := next_naming hnext
  have hp := next_passing hnext
  have ha := next_advance hnext
  have hacc := next_access hnext (size_eq h.window) (ho pc hpc).1
  have hopen := open_of_step hs hst hn
  have hone (hw' : Open w') := h.one_step hs hpc ht hp ho (hopen hw')
  -- where the slot was just opened there are no hands
  have hquiet (hw : ¬ Open w) (hw' : Open w') : owners w' = 0 :=
    have hst := (hopen hw').resolve_left hw
    quiet_of_opening hs hpc ht hp (Pc.opening_pinned hst) ho hw hst
  refine {
    one := hone, posted := fun hw' => ?_, sends := fun hw' => ?_, ready := fun hw' hpos => ?_
    heads := h.heads_step hs hpc ht hacc ha
    window := queue_step h.window hpc hnext ht (ho pc hpc).1 (h.drains_le_one hs.counted) }
  · by_cases hw : Open w
    · exact (h.posted_step hs hpc ht hn ha hw).1
    · have hzero := hquiet hw hw'
      simp only [owners, inFlight] at hzero
      rw [List.length_eq_zero_iff.1 (by omega : w'.shared.sendPosted.length = 0)]
      exact fun id hid => absurd hid List.not_mem_nil
  · by_cases hw : Open w
    · exact (h.posted_step hs hpc ht hn ha hw).2
    · have hzero := hquiet hw hw'
      simp only [owners] at hzero
      intro q hq id hid
      rw [q.postedFor_eq_nil (Pool.eq_zero_of_total (by omega) hq)] at hid
      cases hid
  · by_cases hw : Open w
    · refine h.ready_step hpc ht hacc ha hw hw' ((hone hw').trans ?_) hpos
      split <;> omega
    · have hzero := hquiet hw hw'
      have hle : w'.total Pc.ready ≤ w'.total Pc.owns :=
        List.sum_le_sum fun q _ => q.ready_le
      simp only [owners, inFlight] at hzero
      omega

theorem Owned.initial [Inhabited Buf] (n : ℕ) : Owned 0 (World.initial n : World Buf) := by
  have hidle := World.initial_idle Buf n
  have hnot : ¬ Open (World.initial n : World Buf) := by
    rw [Open, life_initial]
    exact Nat.one_ne_zero
  have houtside : ∀ a ∈ (queue (World.initial n : World Buf)).threads, a = .outside := by
    intro a ha
    obtain ⟨pc, hpc, rfl⟩ := List.mem_map.1 ha
    rw [hidle pc hpc]
    rfl
  exact {
    one := fun h => absurd h hnot
    posted := fun h => absurd h hnot
    sends := fun h => absurd h hnot
    ready := fun h => absurd h hnot
    heads := fun pc hpc t ht => by
      rw [hidle pc hpc] at ht
      cases ht
    window := .start rfl rfl rfl rfl (fun _ => rfl) houtside }

/-! ## Past the check of `IncreaseRef` -/

def Drain.caller : Drain Buf → Option Caller
  | .realSend c _ => some c
  | .reset _ => none

/-- On whose behalf a thread is in `RealSend`, past the check of
`IncreaseRef` and before `WSASend` has returned. -/
def Pc.realSends : Pc Buf → Option Caller
  | .realSendHead c | .realSendTail c _ | .realSendStore c _ | .wsaSend c _ => some c
  | .deqHead d | .deqLoad d _ | .deqCas d _ | .deqData d _ | .deqClear d _ _ => d.caller
  | _ => none

/-- A thread in the loop `while (sendPackets == 0)`, with nothing taken. -/
def Pc.retries : Pc Buf → Bool
  | .deqHead (.realSend _ []) | .deqLoad (.realSend _ []) _ | .deqCas (.realSend _ []) _ => true
  | _ => false

theorem Pc.realSends_spec {c : Caller} (h : pc.realSends = some c) :
    pc.works = 1 ∧ 0 < pc.pinned ∧ (c.id ∈ pc.held ∨ c.id ∈ pc.postedFor) := by
  have hc : c.id ∈ c.held ∨ c.id ∈ c.postedFor := by
    cases c <;> simp [Caller.held, Caller.postedFor, Caller.id]
  have hd {d : Drain Buf} (hd : d.caller = some c) :
      0 < d.refs ∧ (c.id ∈ d.held ∨ c.id ∈ d.postedFor) := by
    cases d with
    | reset r => cases hd
    | realSend c' bufs =>
      obtain rfl := Option.some.inj hd
      exact ⟨Nat.add_pos_left Nat.one_pos _, hc⟩
  cases pc
  case deqHead d | deqLoad d _ | deqCas d _ | deqData d _ | deqClear d _ _ =>
    exact ⟨rfl, (hd h).1, (hd h).2⟩
  case realSendHead c' | realSendTail c' _ | realSendStore c' _ | wsaSend c' _ =>
    obtain rfl := Option.some.inj h
    exact ⟨rfl, Nat.add_pos_left Nat.one_pos _, hc⟩
  all_goals cases h

/-- Past the check a session is open, and it is the caller's. -/
theorem Owned.realSends (hs : Sound index w) (h : Owned b w) (hpc : pc ∈ w.threads) {c : Caller}
    (hc : pc.realSends = some c) :
    w.shared.sessionId = c.id ∧ w.shared.accepted = w.shared.posted ++ [c.id] ∧ Open w := by
  obtain ⟨-, hpin, hid⟩ := Pc.realSends_spec hc
  have hopen : Open w := by
    have hle := Pool.le_total Pc.pinned hpc
    refine hs.counted.pinned ?_
    simp only [life]
    omega
  have heq : w.shared.sessionId = c.id := by
    rcases hid with hid | hid
    · exact hs.held pc hpc _ hid
    · exact (h.sends hopen pc hpc _ hid).symm
  exact ⟨heq, heq ▸ (hs.unreleased hpc hpin).1, hopen⟩

/-- Up to the first buffer taken there is a ticket for the thread. -/
theorem Owned.ticket (h : Owned b w) (hopen : Open w) (hpc : pc ∈ w.threads)
    (hready : pc.ready = 1) : w.shared.taken < w.shared.tickets.length := by
  have := Pool.le_total Pc.ready hpc
  exact h.ready hopen (by omega)

/-- Published or not, the cell at the head has somebody to publish it. -/
theorem Owned.published_or_producer (h : Owned b w) (hc : w.total (fun q => q.access.takes) = 0)
    (hlt : w.shared.taken < w.shared.tickets.length) :
    w.shared.sendQ.loadUsed w.shared.sendQ.headIndex = true ∨
      ∃ q ∈ w.threads, 0 < q.access.fills w.shared.sendQ.headIndex ∧
        w.shared.sendQ.loadUsed w.shared.sendQ.headIndex = false := by
  have htakes : (queue w).total Access.takes = 0 := by
    simp only [Pool.total, queue, List.map_map]
    exact hc
  have hcell := h.window.cells w.shared.taken le_rfl
    (by rw [htakes]; exact Nat.lt_add_of_pos_right (Nat.two_pow_pos 9))
  rw [← show w.shared.sendQ.headIndex = idx b w.shared.taken from h.window.head] at hcell
  cases hu : w.shared.sendQ.loadUsed w.shared.sendQ.headIndex
  · right
    rw [show (queue w).shared.queue.loadUsed w.shared.sendQ.headIndex = false from hu,
      if_neg Bool.false_ne_true,
      if_pos (show w.shared.taken < (queue w).shared.tickets.length from hlt)] at hcell
    obtain ⟨a, ha, hpos⟩ := Pool.exists_of_total_pos (w := queue w)
      (f := Access.fills w.shared.sendQ.headIndex) (by omega)
    obtain ⟨q, hq, rfl⟩ := List.mem_map.1 ha
    exact ⟨q, hq, hpos, rfl⟩
  · exact .inl rfl

/-- A producer publishes its cell in its next accesses, up to three. -/
theorem publish_solo {s : Slot Buf} {t : BitVec 32} (hf : 0 < pc.access.fills t)
    (hu : s.sendQ.loadUsed t = false) :
    ∃ m s' c, m ≤ 3 ∧
      Pool.solo (next index) s pc (List.replicate m .go) = some (s', .canConnect c) ∧
      s'.sendQ.headIndex = s.sendQ.headIndex ∧ s'.sendQ.loadUsed t = true := by
  have hif {t' : BitVec 32} (hpos : 0 < if t' = t then 1 else 0) : t' = t := by
    by_contra hne
    rw [if_neg hne] at hpos
    exact lt_irrefl _ hpos
  have hpublish (s : Slot Buf) (x : Buf) (c : Sender) (hu : s.sendQ.loadUsed t = false) :
      ∃ s', Pool.solo (next index) s (.enqPublish t x c) [.go] = some (s', .canConnect c) ∧
        s'.sendQ.headIndex = s.sendQ.headIndex ∧ s'.sendQ.loadUsed t = true := by
    refine ⟨{ s with sendQ := (s.sendQ.exchangeUsed t true).2 }, ?_, rfl, ?_⟩
    · simp [Pool.solo, next, nextSend, exchangeUsed, hu]
    · change (s.sendQ.exchangeUsed t true).2.loadUsed t = true
      rw [loadUsed_exchangeUsed, if_pos rfl]
  have hput (s : Slot Buf) (x : Buf) (c : Sender) (hu : s.sendQ.loadUsed t = false) :
      ∃ s', Pool.solo (next index) s (.enqPut t x c) [.go, .go] = some (s', .canConnect c) ∧
        s'.sendQ.headIndex = s.sendQ.headIndex ∧ s'.sendQ.loadUsed t = true :=
    hpublish { s with sendQ := s.sendQ.putData t x } x c ((loadUsed_putData _ _ _ _).trans hu)
  cases pc with
  | enqLoad t' x c =>
    obtain rfl := hif hf
    obtain ⟨s', hsolo, hrest⟩ := hput s x c hu
    refine ⟨3, s', c, le_rfl, ?_, hrest⟩
    have hload : next index s (.enqLoad t' x c) .go = some (s, .enqPut t' x c) := by
      simp [next, nextSend, hu]
    rw [List.replicate_succ, Pool.solo, hload]
    exact hsolo
  | enqPut t' x c =>
    obtain rfl := hif hf
    obtain ⟨s', hsolo, hrest⟩ := hput s x c hu
    exact ⟨2, s', c, by omega, hsolo, hrest⟩
  | enqPublish t' x c =>
    obtain rfl := hif hf
    obtain ⟨s', hsolo, hrest⟩ := hpublish s x c hu
    exact ⟨1, s', c, by omega, hsolo, hrest⟩
  | _ => exact absurd hf (lt_irrefl 0)

/-- With the head published, a round of `Dequeue` takes a buffer. -/
theorem dequeue_solo {s : Slot Buf} (hr : pc.retries = true)
    (hu : s.sendQ.loadUsed s.sendQ.headIndex = true)
    (hh : ∀ t, pc.access = .headLoad t ∨ pc.access = .cas t → t = s.sendQ.headIndex) :
    ∃ n s' c x, n ≤ 5 ∧
      Pool.solo (next index) s pc (List.replicate n .go) =
        some (s', .deqHead (.realSend c [x])) := by
  have hcas (c : Caller) :
      ∃ s' x, Pool.solo (next index) s (.deqCas (.realSend c []) s.sendQ.headIndex)
        [.go, .go, .go] =
        some (s', .deqHead (.realSend c [x])) := by
    let q : LockFreeFixedQueue Buf MAX_SEND_COUNT :=
      { s.sendQ with headIndex := s.sendQ.headIndex + 1 }
    have hq : q.loadUsed s.sendQ.headIndex = true := hu
    refine ⟨{ s with
      sendQ := (q.exchangeUsed s.sendQ.headIndex false).2, taken := s.taken + 1
      sendingQ := Function.update s.sendingQ 0 (some (q.getData s.sendQ.headIndex)) },
      q.getData s.sendQ.headIndex, ?_⟩
    simp only [Pool.solo, next, nextRealSend, casHead, if_true, Option.bind_some, List.nil_append,
      List.length_nil, Nat.zero_add]
    rw [if_pos (show (q.exchangeUsed s.sendQ.headIndex false).1 = true from hq), Option.bind_some]
    rfl
  cases pc
  case deqHead d =>
    rcases d with ⟨c, _ | _⟩ | r
    · obtain ⟨s', x, hsolo⟩ := hcas c
      refine ⟨5, s', c, x, le_rfl, ?_⟩
      have hload : next index s (.deqLoad (.realSend c []) s.sendQ.headIndex) .go =
          some (s, .deqCas (.realSend c []) s.sendQ.headIndex) := by
        simp [next, nextRealSend, hu]
      rw [List.replicate_succ, Pool.solo, show next index s (.deqHead (.realSend c [])) .go =
        some (s, .deqLoad (.realSend c []) s.sendQ.headIndex) from rfl, Option.bind_some,
        List.replicate_succ, Pool.solo, hload]
      exact hsolo
    · cases hr
    · cases hr
  case deqLoad d head =>
    obtain rfl := hh head (.inl rfl)
    rcases d with ⟨c, _ | _⟩ | r
    · obtain ⟨s', x, hsolo⟩ := hcas c
      refine ⟨4, s', c, x, by omega, ?_⟩
      have hload : next index s (.deqLoad (.realSend c []) s.sendQ.headIndex) .go =
          some (s, .deqCas (.realSend c []) s.sendQ.headIndex) := by
        simp [next, nextRealSend, hu]
      rw [List.replicate_succ, Pool.solo, hload]
      exact hsolo
    · cases hr
    · cases hr
  case deqCas d head =>
    obtain rfl := hh head (.inr rfl)
    rcases d with ⟨c, _ | _⟩ | r
    · obtain ⟨s', x, hsolo⟩ := hcas c
      exact ⟨3, s', c, x, by omega, hsolo⟩
    · cases hr
    · cases hr
  all_goals cases hr

/-- **The loop ends**: the producer of the ticket, if the cell at the head
waits for it, and then the thread itself have only to run on. -/
theorem Owned.loop_ends (hs : Sound index w) (h : Owned b w) {t : ℕ}
    (hpc : w.threads[t]? = some pc) (hr : pc.retries = true) :
    ∃ i m n w' c x,
      exec (Slot.step index) w (List.replicate m (i, .go) ++ List.replicate n (t, .go)) = some w' ∧
        w'.threads[t]? = some (.deqHead (.realSend c [x])) ∧ m ≤ 3 ∧ n ≤ 5 ∧
        (m = 0 ∨ ∃ q, w.threads[i]? = some q ∧ 0 < q.access.fills w.shared.sendQ.headIndex) := by
  have hmem := List.mem_of_getElem? hpc
  have hspec : ∃ c, pc.realSends = some c ∧ pc.ready = 1 ∧ pc.access.takes = 0 := by
    cases pc
    case deqHead d | deqLoad d _ | deqCas d _ =>
      rcases d with ⟨c, _ | _⟩ | r
      · exact ⟨c, rfl, rfl, rfl⟩
      · cases hr
      · cases hr
    all_goals cases hr
  obtain ⟨c, hc, hready, htake⟩ := hspec
  have hworks := (Pc.realSends_spec hc).1
  have hone := h.works_le_one hs.counted
  have hlt := h.ticket (h.realSends hs hmem hc).2.2 hmem hready
  have htakes : w.total (fun q => q.access.takes) = 0 := by
    rw [Pool.total_of_others hpc fun j q htj hj => ?_, htake]
    have := Pool.eq_zero_of_other (f := Pc.works) (hone.trans hworks.ge) htj hpc hj
    have := q.access.takes_le
    have := q.drains_le
    omega
  have hread (t : BitVec 32) (ht : pc.access = .headLoad t ∨ pc.access = .cas t) :
      t = w.shared.sendQ.headIndex := by
    have hk := h.window.knows pc.access (List.mem_map_of_mem hmem)
    rcases ht with ht | ht
    · rw [ht] at hk
      exact hk
    · rw [ht] at hk
      exact hk.1
  rcases h.published_or_producer htakes hlt with hu | ⟨q, hq, hfill, hu⟩
  · obtain ⟨n, s', c, x, hn, hsolo⟩ := dequeue_solo (s := w.shared) hr hu hread
    obtain ⟨hlen, -⟩ := List.getElem?_eq_some_iff.1 hpc
    have hrun := Pool.exec_of_solo hpc hsolo
    rw [List.map_replicate] at hrun
    exact ⟨t, 0, n, _, c, x, hrun, List.getElem?_set_self hlen, by omega, hn, .inl rfl⟩
  · obtain ⟨j, hj⟩ := List.mem_iff_getElem?.1 hq
    have hjt : j ≠ t := by
      rintro rfl
      obtain rfl := Option.some.inj (hj.symm.trans hpc)
      cases q <;> first | cases hr | exact lt_irrefl _ hfill
    obtain ⟨m, s', c', hm, hsolo, hhead, hu'⟩ := publish_solo (s := w.shared) hfill hu
    have hrun := Pool.exec_of_solo hj hsolo
    have hpc' : (w.threads.set j (.canConnect c'))[t]? = some pc := by
      rw [List.getElem?_set_ne hjt, hpc]
    obtain ⟨n, s'', c, x, hn, hsolo'⟩ :=
      dequeue_solo (s := s') hr (hhead.symm ▸ hu') (hhead.symm ▸ hread)
    have hrun' := Pool.exec_of_solo (w := ⟨s', _⟩) hpc' hsolo'
    obtain ⟨hlen, -⟩ := List.getElem?_eq_some_iff.1 hpc'
    rw [List.map_replicate] at hrun hrun'
    exact ⟨j, m, n, _, c, x, exec_append hrun hrun', List.getElem?_set_self hlen, hm, hn,
      .inr ⟨q, hj, hfill⟩⟩

/-- The side condition of the runs: orderly steps, and fewer references than
the flag's bit. -/
def Sends (w : World Buf) (e : ℕ × Event Buf) (w' : World Buf) : Prop := Orderly w e ∧ FewRefs w'

instance decidableSends (w : World Buf) (e : ℕ × Event Buf) (w' : World Buf) :
    Decidable (Sends w e w') := inferInstanceAs (Decidable (_ ∧ _))

/-- **The invariant along a run.** -/
theorem Owned.run [Inhabited Buf] {n : ℕ}
    (h : Runs (Slot.step index) Sends (World.initial n) w) : Sound index w ∧ Owned 0 w := by
  have hinit : Sound index (World.initial n : World Buf) ∧ Owned 0 (World.initial n : World Buf) :=
    ⟨Sound.initial n, Owned.initial n⟩
  refine h.invariant (I := fun w => Sound index w ∧ Owned 0 w) hinit ?_
  intro v w e hv hst hok
  exact ⟨hv.1.step hst hok.2, hv.2.step hv.1 hst hok.1⟩

/-- **`RealSend` runs for the session `CanSend` answered for.** In every run
that neither overruns the send queue nor opens the slot with a
`SendExecutable` left over, a thread past the check of `IncreaseRef`

* runs for the session it was called for, which is open and not released;
* is the only one there;
* finds a ticket in the queue, so that it does not break on `queueSize`;
* leaves the loop `while (sendPackets == 0)` with a buffer once the producer of
  the ticket at the head, if the cell is not published yet, has taken up to
  three steps and it has taken up to five itself. -/
theorem realSend_own_session [Inhabited Buf] {n : ℕ}
    (h : Runs (Slot.step index) Sends (World.initial n) w) :
    (∀ pc ∈ w.threads, ∀ c, Pc.realSends pc = some c →
        w.shared.sessionId = c.id ∧ w.shared.accepted = w.shared.posted ++ [c.id]) ∧
      (∀ (i j : ℕ) (p q : Pc Buf), i ≠ j → w.threads[i]? = some p → w.threads[j]? = some q →
        p.realSends.isSome → q.realSends = none) ∧
      (∀ c, Pc.realSendHead c ∈ w.threads → 1 ≤ w.shared.sendQ.size) ∧
      (∀ c head, Pc.realSendTail c head ∈ w.threads →
        1 ≤ (w.shared.sendQ.tailIndex - head).toInt) ∧
      ∀ (t : ℕ) (pc : Pc Buf), w.threads[t]? = some pc → pc.retries = true →
        ∃ i m n w' c x,
          exec (Slot.step index) w (List.replicate m (i, .go) ++ List.replicate n (t, .go)) =
              some w' ∧
            w'.threads[t]? = some (Pc.deqHead (.realSend c [x])) ∧ m ≤ 3 ∧ n ≤ 5 ∧
            (m = 0 ∨ ∃ q, w.threads[i]? = some q ∧
              0 < q.access.fills w.shared.sendQ.headIndex) := by
  obtain ⟨hs, ho⟩ := Owned.run h
  have hsize (pc : Pc Buf) (hpc : pc ∈ w.threads) (c : Caller) (hc : pc.realSends = some c)
      (hready : pc.ready = 1) : 1 ≤ w.shared.sendQ.size := by
    have := ho.ticket (ho.realSends hs hpc hc).2.2 hpc hready
    rw [size_eq ho.window]
    omega
  refine ⟨fun pc hpc c hc => ?_, fun i j p q hij hp hq hsome => ?_, fun c hpc => ?_,
    fun c head hpc => ?_, fun t pc hpc hr => ho.loop_ends hs hpc hr⟩
  · exact ⟨(ho.realSends hs hpc hc).1, (ho.realSends hs hpc hc).2.1⟩
  · obtain ⟨c, hc⟩ := Option.isSome_iff_exists.1 hsome
    have hworks := (Pc.realSends_spec hc).1
    have hzero := Pool.eq_zero_of_other (f := Pc.works)
      ((ho.works_le_one hs.counted).trans hworks.ge) hij hp hq
    cases hq' : q.realSends with
    | none => rfl
    | some c' =>
      rw [(Pc.realSends_spec hq').1] at hzero
      cases hzero
  · exact hsize _ hpc c rfl rfl
  · rw [ho.heads _ hpc head rfl]
    exact hsize _ hpc c rfl rfl

/-- A session is accepted, and a second thread posts a send for it. -/
def acceptAndPost : List (ℕ × Event ℕ) :=
  (0, .accept 0) :: List.replicate 10 (0, .go) ++ (0, .result .success) ::
    (1, .sendPacket ⟨1, 0⟩ 7) :: List.replicate 15 (1, .go)

/-- The worker that takes the `SendExecutable` comes past the check. -/
theorem realSend_own_session_posted : ∃ w : World ℕ,
    exec (Slot.step 0) (World.initial 2)
        (acceptAndPost ++ (1, .sendExecutable) :: List.replicate 2 (1, .go)) = some w ∧
      w.threads = [.idle, .realSendHead (.sendExecutable ⟨1, 0⟩)] ∧
      w.shared.sessionId = ⟨1, 0⟩ ∧ 1 ≤ w.shared.sendQ.size := by
  have hmap : (exec (Slot.step 0) (World.initial 2)
      (acceptAndPost ++ (1, .sendExecutable) :: List.replicate 2 (1, .go))).map (·.threads) =
      some [.idle, .realSendHead (.sendExecutable ⟨1, 0⟩)] := by rfl
  obtain ⟨w, hw, hthreads⟩ := Option.map_eq_some_iff.1 hmap
  have hmem : Pc.realSendHead (.sendExecutable ⟨1, 0⟩) ∈ w.threads := by simp [hthreads]
  have hrun : Runs (Slot.step 0) Sends (World.initial 2) w := runs_of_exec hw (by decide)
  obtain ⟨hid, -, hsize, -⟩ := realSend_own_session hrun
  exact ⟨w, hw, hthreads, (hid _ hmem _ rfl).1, hsize _ hmem⟩

/-- Session 1 is released and reset, and session 2 accepted, before a worker
takes the posted `SendExecutable`. -/
def reuse : List (ℕ × Event ℕ) :=
  acceptAndPost ++ (0, .recvFailed) :: List.replicate 3 (0, .go) ++
    (0, .releaseExecutable) :: List.replicate 11 (0, .go) ++
    (0, .accept 0) :: List.replicate 8 (0, .go) ++
    (1, .sendExecutable) :: List.replicate 3 (1, .go)

/-- **A `SendExecutable` outlives its session.** It is posted for session 1,
the receive fails, the slot is released and reset, which drains the queue,
and accepts session 2; then the worker takes it. `RealSend` passes the check
for a session `CanSend` never answered for, and breaks on the empty queue. -/
theorem realSend_other_session : ∃ w : World ℕ, ∃ head,
    Runs (Slot.step 0) (fun _ _ => FewRefs) (World.initial 2) w ∧
      w.threads = [.recvRef, .realSendTail (.sendExecutable ⟨1, 0⟩) head] ∧
      w.shared.sessionId = ⟨2, 0⟩ ∧ w.shared.sendQ.size = 0 ∧
      Slot.step 0 w (1, .go) = none := by
  have hmap : (exec (Slot.step 0) (World.initial 2) reuse).map (fun w =>
      (w.threads, w.shared.sessionId, w.shared.sendQ.headIndex, w.shared.sendQ.tailIndex)) =
      some ([.recvRef, .realSendTail (.sendExecutable ⟨1, 0⟩) 1], ⟨2, 0⟩, 1, 1) := by rfl
  obtain ⟨w, hw, hall⟩ := Option.map_eq_some_iff.1 hmap
  simp only [Prod.mk.injEq] at hall
  obtain ⟨hthreads, hid, hhead, htail⟩ := hall
  refine ⟨w, 1, runs_of_exec hw (by decide), hthreads, hid, ?_, ?_⟩
  · simp [size, hhead, htail]
  · simp [Slot.step, Pool.step, hthreads, next, nextRealSend, htail]

end Slot

end NetLib
