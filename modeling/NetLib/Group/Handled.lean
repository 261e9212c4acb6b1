import NetLib.Group.Once
/-!
# `_isHandled` and the `Recv` job it stands for

`RecvExecutable` queues a `Recv` job for a session in a group only where
`_isHandled` is clear, and sets it as it does; `RecvHandler` clears it. So the
flag promises a job to come. A `Recv` job that does not find its session ends
without `RecvHandler`, and `Reset` leaves the flag as it is. Where a session
is released only with its flag clear, the flag keeps its promise.
-/

namespace NetLib

namespace Grouped

variable {Buf : Type} {index : ℕ} {s s' : Grouped Buf} {w w' : World Buf} {pc pc' : Pc Buf}

/-! ## The promise -/

/-- Is the thread about to queue a `Recv` job for `id`, or on its way from
the job to `setRecvHandled(false)`, with a reference or still to get one? -/
def Pc.CarriesRecv (id : SessionID) : Pc Buf → Prop
  | .onRecv => True
  | .enqueueRecv i _ => i = id
  | .slot (some _) (.find i .hold) => i = id
  | .slot (some _) (.findCheck i result .hold) => i = id ∧ result ≤ RELEASE_FLAG
  | .clearHandled _ i => i = id
  | _ => False

/-- A `Recv` job for the slot's session is queued, about to be queued, or
being started. -/
def RecvPending (w : World Buf) : Prop :=
  (∃ g, (g, .Recv w.shared.slot.sessionId) ∈ w.shared.jobs) ∨
    ∃ pc ∈ w.threads, pc.CarriesRecv w.shared.slot.sessionId

/-- The flag is honest: it is set only with a job to come; and with none to
come, data that arrives in a group gets its job. -/
structure HonestFlag (index : ℕ) (w : World Buf) : Prop where
  pending : w.shared.isHandled = true → RecvPending w
  queues : ∀ (i : ℕ) (e : Event Buf), w.threads[i]? = some .execHandled →
    w.shared.groupId ≠ BaseGroupID → ¬RecvPending w →
      ∃ w', exec (Grouped.step index) w (List.replicate 4 (i, e)) = some w' ∧
        (w.shared.groupId, .Recv w.shared.slot.sessionId) ∈ w'.shared.jobs

/-- The session is released only with its earlier moves settled and with no
data left to a group. -/
def Unflagged (w : World Buf) (e : ℕ × Event Buf) (w' : World Buf) : Prop :=
  Settled w e w' ∧ ∀ pc ∈ w.threads[e.1]?, pc.exchanges = true → w.shared.slot.refCount = 0 →
    w.shared.isHandled = false

instance decidableUnflagged (w : World Buf) (e : ℕ × Event Buf) (w' : World Buf) :
    Decidable (Unflagged w e w') :=
  inferInstanceAs (Decidable (_ ∧ _))

/-! ## What an action does to it -/

/-- Taking the first job of a group takes no other. -/
theorem mem_eraseP {jobs : List (GroupID × GroupJob)} {g : GroupID} {x y : GroupID × GroupJob}
    (h : jobs.find? (·.1 = g) = some y) (hx : x ∈ jobs) :
    x = y ∨ x ∈ jobs.eraseP (·.1 = g) := by
  obtain ⟨before, after, rfl, herase, -⟩ := jobs_split h
  rw [herase]
  rcases List.mem_append.1 hx with hx | hx
  · exact .inr (List.mem_append_left _ hx)
  · rcases List.mem_cons.1 hx with rfl | hx
    · exact .inl rfl
    · exact .inr (List.mem_append_right _ hx)

/-- A job stays in its queue until a group takes it. -/
theorem Action.job_kept {e : Event Buf} (h : Action index s pc e s' pc')
    {x : GroupID × GroupJob} (hx : x ∈ s.jobs) : x ∈ s'.jobs ∨ pc' = handle x.1 x.2 := by
  cases h
  case slot home q q' ev r _ _ =>
    rw [observe_slot]
    exact .inl hx
  case dequeue g job hfind =>
    rcases mem_eraseP hfind hx with rfl | hx
    · exact .inr rfl
    · exact .inl hx
  case disconnectLeave | moveLeave | moveEnter | enqueueRecv =>
    exact .inl (List.mem_append_left _ hx)
  all_goals exact .inl hx

/-- The flag is set at `setRecvHandled(true)`. -/
theorem Action.handled_set {e : Event Buf} (h : Action index s pc e s' pc')
    (hset : s'.isHandled = true) : s.isHandled = true ∨ pc = .setHandled ∧ pc' = .onRecv := by
  cases h
  case slot home q q' ev r _ _ =>
    obtain ⟨c, p, hobs⟩ := observe_eq s q
    rw [hobs] at hset
    exact .inl hset
  case setHandled => exact .inr ⟨rfl, rfl⟩
  case clearHandled => cases hset
  all_goals exact .inl hset

/-- **A job in hand is not lost** while the session is not released: the
thread queues it, or comes to `RecvHandler` with it and clears the flag. -/
theorem Action.carriesRecv {e : Event Buf} (h : Action index s pc e s' pc')
    (hopen : s.slot.refCount < RELEASE_FLAG) (hc : pc.CarriesRecv s.slot.sessionId) :
    s'.isHandled = false ∨ pc'.CarriesRecv s.slot.sessionId ∨
      ∃ g, (g, .Recv s.slot.sessionId) ∈ s'.jobs := by
  cases h
  case slot home q q' ev r hnext _ =>
    unfold Pc.CarriesRecv at hc
    split at hc
    case h_3 g i heq =>
      obtain ⟨rfl, rfl⟩ := Pc.slot.inj heq
      obtain ⟨rfl, rfl⟩ := Prod.mk.inj (Option.some.inj hnext)
      exact .inr (.inl ⟨hc, by omega⟩)
    case h_4 g i result heq =>
      obtain ⟨rfl, rfl⟩ := Pc.slot.inj heq
      obtain ⟨rfl, hle⟩ := hc
      -- the session in the slot is the job's, and its counter was read before the release
      have hfound : ¬(RELEASE_FLAG < result ∨ s.slot.sessionId ≠ s.slot.sessionId) :=
        not_or.2 ⟨not_lt.2 hle, not_not.2 rfl⟩
      simp only [Slot.next, Slot.nextRef, if_neg hfound, Option.some.injEq,
        Prod.mk.injEq] at hnext
      obtain ⟨rfl, rfl⟩ := hnext
      exact .inr (.inl rfl)
    all_goals contradiction
  case onRecv => exact .inr (.inl rfl)
  case enqueueRecv id g =>
    obtain rfl : id = s.slot.sessionId := hc
    exact .inr (.inr ⟨g, List.mem_append_right _ (List.mem_singleton_self _)⟩)
  case clearHandled => exact .inl rfl
  all_goals exact hc.elim

/-! ## The invariant -/

/-- A flag that is set is that of a session not released, with a job to
come. -/
structure Promised (w : World Buf) : Prop where
  unreleased : w.shared.isHandled = true → w.shared.slot.refCount < RELEASE_FLAG
  pending : w.shared.isHandled = true → RecvPending w

theorem Promised.initial [Inhabited Buf] (n : ℕ) : Promised (World.initial n : World Buf) := by
  constructor
  · intro h
    cases h
  · intro h
    cases h

/-- A slot that is not released keeps its session. -/
theorem Releasing.sessionId_eq {e : ℕ × Event Buf} (h : Releasing index w)
    (hpc : w.threads[e.1]? = some pc) (ha : Action index w.shared pc e.2 w'.shared pc')
    (hopen : w.shared.slot.refCount < RELEASE_FLAG) :
    w'.shared.slot.sessionId = w.shared.slot.sessionId := by
  cases ha.names with
  | same _ hid | move _ _ hid | reset _ _ hid => exact hid
  | name hold =>
    subst hold
    have hzero := h.sound.open_iff.1 hopen
    have hle := owed_le Slot.Pc.closed (List.mem_of_getElem? hpc)
    change 1 ≤ _ at hle
    change _ + (_ + _ + w.onSlot.total Slot.Pc.closed) = 0 at hzero
    omega

/-- **A job to come is still to come**, or the flag has been cleared. -/
theorem Releasing.recvPending {e : ℕ × Event Buf} (h : Releasing index w)
    (hpc : w.threads[e.1]? = some pc) (ha : Action index w.shared pc e.2 w'.shared pc')
    (ht : w'.threads = w.threads.set e.1 pc') (hopen : w.shared.slot.refCount < RELEASE_FLAG)
    (hp : RecvPending w) : w'.shared.isHandled = false ∨ RecvPending w' := by
  have hid := h.sessionId_eq hpc ha hopen
  have hnew := Pool.mem_threads hpc ht
  unfold RecvPending
  rw [hid]
  rcases hp with ⟨g, hjob⟩ | hthread
  · rcases ha.job_kept hjob with hjob | hhandle
    · exact .inr (.inl ⟨g, hjob⟩)
    · exact .inr (.inr ⟨pc', hnew, hhandle ▸ rfl⟩)
  · rcases Pool.exists_threads hpc ht hthread with hc | hthread
    · rcases ha.carriesRecv hopen hc with hclear | hc | hjob
      · exact .inl hclear
      · exact .inr (.inr ⟨pc', hnew, hc⟩)
      · exact .inr (.inl hjob)
    · exact .inr (.inr hthread)

theorem Promised.step {e : ℕ × Event Buf} (h : Promised w) (hr : Releasing index w)
    (hst : Grouped.step index w e = some w') (hok : Unflagged w e w') : Promised w' := by
  obtain ⟨pc, pc', hpc, hnext, ht⟩ := Pool.step_eq_some hst
  have hmem := List.mem_of_getElem? hpc
  have ha := next_action hnext
  have hopen : w'.shared.isHandled = true → w.shared.slot.refCount < RELEASE_FLAG := by
    intro hset
    rcases ha.handled_set hset with hset | ⟨rfl, -⟩
    · exact h.unreleased hset
    -- the worker still has the reference of its receive
    · exact hr.sound.open_of_pinned (mem_onSlot hmem) Nat.one_pos
  refine ⟨fun hset => ?_, fun hset => ?_⟩
  · by_contra hrel
    obtain ⟨hex, hzero⟩ := hr.released_back (hr.step hst hok.1).sound hpc ha ht (hopen hset)
      (not_lt.1 hrel)
    have hclear := hok.2 pc hpc hex hzero
    rcases ha.handled_set hset with hset | ⟨rfl, -⟩
    · rw [hclear] at hset
      cases hset
    · cases hex
  · rcases ha.handled_set hset with hset' | ⟨-, rfl⟩
    · rcases hr.recvPending hpc ha ht (hopen hset) (h.pending hset') with hclear | hp
      · rw [hclear] at hset
        cases hset
      · exact hp
    · exact .inr ⟨_, Pool.mem_threads hpc ht, trivial⟩

/-- With the flag clear, a worker in a group queues a job. -/
theorem queues_of_clear {i : ℕ} (e : Event Buf) (hpc : w.threads[i]? = some .execHandled)
    (hg : w.shared.groupId ≠ BaseGroupID) (hclear : w.shared.isHandled = false) :
    ∃ w', exec (Grouped.step index) w (List.replicate 4 (i, e)) = some w' ∧
      (w.shared.groupId, .Recv w.shared.slot.sessionId) ∈ w'.shared.jobs := by
  have hsolo : Pool.solo (next index) w.shared .execHandled (List.replicate 4 e) =
      some (({ w.shared with isHandled := true } : Grouped Buf).enqueue w.shared.groupId
        (.Recv w.shared.slot.sessionId), .slot none .recvRef) := by
    simp only [List.replicate, Pool.solo, next, nextMove, hclear, Bool.false_eq_true, if_false,
      if_neg hg, Option.bind_some]
  have hexec := Pool.exec_of_solo hpc hsolo
  rw [List.map_replicate] at hexec
  exact ⟨_, hexec, List.mem_append_right _ (List.mem_singleton_self _)⟩

/-- **The flag is honest** in every run in which a session is released only
with its flag clear. -/
theorem flag_honest [Inhabited Buf] {n : ℕ}
    (h : Runs (Grouped.step index) Unflagged (World.initial n : World Buf) w) :
    HonestFlag index w := by
  obtain ⟨-, hp⟩ : Releasing index w ∧ Promised w :=
    h.invariant (I := fun w => Releasing index w ∧ Promised w) ⟨.initial n, .initial n⟩
      fun ⟨hr, hp⟩ hst hok => ⟨hr.step hst hok.1, hp.step hr hst hok⟩
  refine ⟨hp.pending, fun i e hpc hg hnone => queues_of_clear e hpc hg ?_⟩
  by_contra hset
  exact hnone (hp.pending (Bool.eq_true_of_not_eq_false hset))

/-- Thread 1 moves the session `id` from the base group to group 1. -/
def joining (id : SessionID) : List (ℕ × Event ℕ) :=
  (1, .slot (.hold id)) :: going 1 2 ++ [(1, .moveSession 1)] ++ going 1 4

/-- A receive completes, and the next one is posted. -/
def received : List (ℕ × Event ℕ) :=
  (0, .slot .recvDone) :: going 0 7 ++ [(0, .slot (.result .pending))] ++ going 0 1

/-- Group 1 enters the session and handles its data, one packet. -/
def handling : List (ℕ × Event ℕ) :=
  (2, .update 1) :: going 2 8 ++ [(2, .found .packet)] ++ going 2 1 ++ [(2, .found .short)] ++
    going 2 3

/-- The session ends, and group 1 handles its last `Leave` after `n` other
accesses. -/
def ending (n : ℕ) : List (ℕ × Event ℕ) :=
  (0, .slot .recvFailed) :: going 0 5 ++ (2, .update 1) :: going 2 (n + 10) ++ releasing

/-- A session's data are handled before it ends, and the next session of the
slot receives in the group as well. -/
def handledInTime : List (ℕ × Event ℕ) :=
  accepting ++ joining ⟨1, 7⟩ ++ received ++ handling ++ ending 0 ++ accepting ++
    joining ⟨2, 7⟩ ++ received

theorem flag_honest_handledInTime : ∃ w : World ℕ,
    exec (Grouped.step 7) (World.initial 3) handledInTime = some w ∧ HonestFlag 7 w ∧
      w.shared.isHandled = true ∧ w.shared.jobs = [(1, .Enter ⟨2, 7⟩), (1, .Recv ⟨2, 7⟩)] := by
  obtain ⟨w, hw, heq⟩ := Option.map_eq_some_iff.1 (show
    (exec (Grouped.step 7) (World.initial 3) handledInTime).map (fun w =>
      (w.shared.isHandled, w.shared.jobs)) =
    some (true, [(1, .Enter ⟨2, 7⟩), (1, .Recv ⟨2, 7⟩)]) by rfl)
  obtain ⟨hset, hjobs⟩ : _ ∧ _ := by simpa using heq
  have hrun : Runs (Grouped.step 7) Unflagged (World.initial 3) w :=
    runs_of_exec hw (by decide +kernel)
  exact ⟨w, hw, flag_honest hrun, hset, hjobs⟩

/-- A session ends before group 1 comes to its data. The next session of the
slot moves to group 1, which enters it, and receives. -/
def handledTooLate : List (ℕ × Event ℕ) :=
  accepting ++ joining ⟨1, 7⟩ ++ received ++ ending 7 ++ accepting ++ joining ⟨2, 7⟩ ++
    (2, .update 1) :: going 2 5 ++ (0, .slot .recvDone) :: going 0 3

/-- **The flag outlives its session.** Its `Recv` job finds no session, and
the session after it comes to a flag that is set: its data wait in the ring
with no job queued. -/
theorem flag_outlives_session : ∃ w : World ℕ,
    exec (Grouped.step 7) (World.initial 3) handledTooLate = some w ∧
      w.shared.slot.sessionId = ⟨2, 7⟩ ∧ w.shared.slot.refCount = 1 ∧ w.shared.groupId = 1 ∧
      w.shared.isHandled = true ∧ w.shared.jobs = [] ∧
      w.threads = [.slot none .recvRef, .slot none .idle, .slot none .idle] ∧
      ¬HonestFlag 7 w := by
  obtain ⟨w, hw, heq⟩ := Option.map_eq_some_iff.1 (show
    (exec (Grouped.step 7) (World.initial 3) handledTooLate).map (fun w =>
      (w.shared.slot.sessionId, w.shared.slot.refCount, w.shared.groupId, w.shared.isHandled,
        w.shared.jobs, w.threads)) =
    some (⟨2, 7⟩, 1, 1, true, [], [.slot none .recvRef, .slot none .idle, .slot none .idle])
    by rfl)
  obtain ⟨hid, hopen, hg, hset, hjobs, hthreads⟩ : _ ∧ _ ∧ _ ∧ _ ∧ _ ∧ _ := by simpa using heq
  refine ⟨w, hw, hid, hopen, hg, hset, hjobs, hthreads, fun honest => ?_⟩
  rcases honest.pending hset with ⟨g, hjob⟩ | ⟨pc, hpc, hc⟩
  · rw [hjobs] at hjob
    cases hjob
  · rw [hthreads] at hpc
    rcases List.mem_cons.1 hpc with rfl | hpc
    · exact hc
    · obtain rfl : pc = .slot none .idle := by simpa using hpc
      exact hc

end Grouped

end NetLib
