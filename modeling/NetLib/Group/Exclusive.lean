import NetLib.Group.Release
/-!
# One thread at a time handles a group's jobs

`Update` sets `_isRun` by an exchange and clears it when it is through, so no
two threads are in the `Update` of one group. The jobs of a session in a
group that are still to be handled are then a queue: the one in the hand of
that thread, and `_jobs` behind it.
-/

namespace NetLib

namespace Slot

variable {Buf : Type} {index : ℕ}

/-- The program points of a thread in `HandleJob` that are the slot's. -/
def Pc.inHandleJob : Pc Buf → Bool
  | .idle | .find _ .hold | .findCheck _ _ .hold | .holding _ | .close _ .done | .cancel _ .done
  | .release _ .done | .releaseCas .done | .postRelease .done => true
  | _ => false

/-- They are left at `idle` only. -/
theorem next_inHandleJob {s s' : Slot Buf} {q q' : Pc Buf} {e : Event Buf}
    (h : next index s q e = some (s', q')) (hbusy : q ≠ .idle) (hq : q.inHandleJob = true) :
    q'.inHandleJob = true := by
  unfold Pc.inHandleJob at hq
  split at hq
  case h_1 => exact absurd rfl hbusy
  case h_2 | h_4 | h_5 | h_6 | h_9 =>
    obtain ⟨rfl, rfl⟩ := Prod.mk.inj (Option.some.inj h)
    rfl
  case h_3 id result =>
    simp only [next, nextRef] at h
    split at h <;> obtain ⟨rfl, rfl⟩ := Prod.mk.inj (Option.some.inj h) <;> rfl
  case h_7 pin =>
    obtain ⟨rfl, rfl⟩ := Prod.mk.inj (Option.some.inj h)
    split <;> rfl
  case h_8 =>
    simp only [next, nextRef] at h
    split at h <;> obtain ⟨rfl, rfl⟩ := Prod.mk.inj (Option.some.inj h) <;> rfl
  case h_10 => cases hq

end Slot

namespace Grouped

variable {Buf : Type} {index : ℕ} {s s' : Grouped Buf} {w w' : World Buf} {pc pc' : Pc Buf}

/-! ## The thread in `Update` -/

/-- The group whose `Update` the thread is in. -/
def Pc.home : Pc Buf → Option GroupID
  | .slot home _ | .releaseGroup home _ | .disconnectSrc home _ | .disconnectLeave home _ _ => home
  | .endUpdate g | .insert g _ | .onEnter g _ | .erase g _ _ | .onLeave g _ _ | .checkGroup g _ _
  | .checkId g _ _ | .checkRef g _ _ | .checkAssert g _ _ _ | .checkPost g _ _ | .clearHandled g _
  | .recvLoop g _ | .packet g _ => some g
  | _ => none

/-- A thread in an `Update` is in `HandleJob`, wherever on the slot it is. -/
def Pc.Stays : Pc Buf → Prop
  | .slot (some _) q => q.inHandleJob = true
  | .releaseGroup (some _) k | .disconnectSrc (some _) k | .disconnectLeave (some _) _ k =>
    k = .done
  | _ => True

theorem enter_stays (home : Option GroupID) (q q' : Slot.Pc Buf)
    (hq' : home ≠ none → q'.inHandleJob = true) :
    (enter home q q').Stays ∧ (enter home q q').home = home := by
  cases home with
  | none =>
    unfold enter
    split <;> first | exact ⟨trivial, rfl⟩ | contradiction
  | some g =>
    have hin := hq' (Option.some_ne_none g)
    unfold enter
    split
    case h_1 k =>
      cases k with
      | done => exact ⟨rfl, rfl⟩
      | canSend | release => cases hin
    case h_2 heq => exact ⟨trivial, heq.symm⟩
    case h_3 => contradiction
    case h_4 => cases hin
    case h_5 => exact ⟨hin, rfl⟩

/-- What an action does to the thread's group: nothing, but at the two ends of
`Update`. -/
inductive Homes (s : Grouped Buf) (pc : Pc Buf) (s' : Grouped Buf) (pc' : Pc Buf) : Prop
  | same (hhome : pc'.home = pc.home) (hrun : s'.isRun = s.isRun)
  | update (g : GroupID) (hold : pc.home = none) (hnew : pc'.home = some g)
      (hclear : s.isRun g = false) (hrun : s'.isRun = Function.update s.isRun g true)
  | endUpdate (g : GroupID) (hold : pc.home = some g) (hnew : pc'.home = none)
      (hrun : s'.isRun = Function.update s.isRun g false)

theorem Action.homes {e : Event Buf} (h : Action index s pc e s' pc') (hstays : pc.Stays) :
    pc'.Stays ∧ Homes s pc s' pc' := by
  cases h
  case slot home q q' ev r hnext hbusy =>
    obtain ⟨c, p, hobs⟩ := observe_eq s q
    rw [hobs]
    obtain ⟨hstays', hhome⟩ := enter_stays home q q' fun hne => by
      cases home with
      | none => exact absurd rfl hne
      | some g =>
        exact Slot.next_inHandleJob hnext (hbusy.resolve_left (Option.some_ne_none g)) hstays
    exact ⟨hstays', .same hhome rfl⟩
  case update g _ hrun => exact ⟨rfl, .update g rfl rfl hrun rfl⟩
  case endUpdate g => exact ⟨trivial, .endUpdate g rfl rfl rfl⟩
  case dequeue g job _ =>
    cases job with
    | Recv => exact ⟨rfl, .same rfl rfl⟩
    | Enter | Leave => exact ⟨trivial, .same rfl rfl⟩
  case releaseBase home k _ | releaseOther home k _ | disconnectSrc home k _ =>
    cases home with
    | none => exact ⟨trivial, .same rfl rfl⟩
    | some g =>
      obtain rfl : k = .done := hstays
      exact ⟨rfl, .same rfl rfl⟩
  case disconnectNone home k _ | disconnectLeave home src k =>
    cases home with
    | none => exact ⟨trivial, .same rfl rfl⟩
    | some g =>
      obtain rfl : k = .done := hstays
      exact ⟨rfl, .same rfl rfl⟩
  case onEnter | otherGroup | otherId | notReleased | checkPost | left | short | violation =>
    exact ⟨rfl, .same rfl rfl⟩
  all_goals exact ⟨trivial, .same rfl rfl⟩

/-- Is the thread in the `Update` of `g`? -/
def Pc.inUpdate (g : GroupID) (pc : Pc Buf) : ℕ := if pc.home = some g then 1 else 0

/-- `_isRun` of a group is set while a thread is in its `Update`, which is one
thread. -/
structure Exclusive (w : World Buf) : Prop where
  stays : ∀ pc ∈ w.threads, pc.Stays
  running : ∀ g, w.total (Pc.inUpdate g) = if w.shared.isRun g = true then 1 else 0

theorem Exclusive.initial [Inhabited Buf] (n : ℕ) : Exclusive (World.initial n : World Buf) := by
  have hidle := World.initial_idle Buf n
  refine ⟨fun q hq => ?_, fun g => Pool.total_of_forall_eq hidle rfl⟩
  rw [hidle q hq]
  trivial

theorem Exclusive.step {e : ℕ × Event Buf} (h : Exclusive w) (hpc : w.threads[e.1]? = some pc)
    (ha : Action index w.shared pc e.2 w'.shared pc') (ht : w'.threads = w.threads.set e.1 pc') :
    Exclusive w' := by
  obtain ⟨hstays, hhomes⟩ := ha.homes (h.stays pc (List.mem_of_getElem? hpc))
  refine ⟨Pool.forall_threads ht h.stays hstays, fun g => ?_⟩
  have hmove := Pool.total_step (Pc.inUpdate g) hpc ht
  have hrunning := h.running g
  cases hhomes with
  | same hhome hrun =>
    rw [hrun]
    simp only [Pc.inUpdate, hhome] at hmove
    omega
  | update g' hold hnew hclear hrun =>
    simp only [Pc.inUpdate, hold, hnew, reduceCtorEq, if_false, Option.some.injEq] at hmove
    rw [hrun]
    by_cases hg : g' = g
    · subst hg
      rw [Function.update_self, if_pos rfl]
      rw [hclear, if_neg Bool.false_ne_true] at hrunning
      rw [if_pos rfl] at hmove
      omega
    · rw [Function.update_of_ne (Ne.symm hg)]
      rw [if_neg hg] at hmove
      omega
  | endUpdate g' hold hnew hrun =>
    simp only [Pc.inUpdate, hold, hnew, reduceCtorEq, if_false, Option.some.injEq] at hmove
    rw [hrun]
    by_cases hg : g' = g
    · subst hg
      rw [Function.update_self, if_neg Bool.false_ne_true]
      rw [if_pos rfl] at hmove
      split at hrunning <;> omega
    · rw [Function.update_of_ne (Ne.symm hg)]
      rw [if_neg hg] at hmove
      omega

/-- **No other thread is in the `Update` of the group.** -/
theorem Exclusive.home_ne {i j : ℕ} {g : GroupID} {q : Pc Buf} (h : Exclusive w)
    (hpc : w.threads[i]? = some pc) (hhome : pc.home = some g) (hij : i ≠ j)
    (hq : w.threads[j]? = some q) : q.home ≠ some g := by
  have hle : w.total (Pc.inUpdate g) ≤ pc.inUpdate g := by
    rw [h.running g, Pc.inUpdate, if_pos hhome]
    split <;> omega
  intro hq'
  have hzero := Pool.eq_zero_of_other hle hij hpc hq
  rw [Pc.inUpdate, if_pos hq'] at hzero
  cases hzero

/-! ## The `Enter`s and `Leave`s to come -/

/-- The job in hand, if it is an `Enter` (`true`) or a `Leave` (`false`) of the
session `id` in `g` and not yet done to `_sessions`. -/
def Pc.todo (g : GroupID) (id : SessionID) : Pc Buf → List Bool
  | .insert g' id' => if g' = g ∧ id' = id then [true] else []
  | .erase g' id' _ => if g' = g ∧ id' = id then [false] else []
  | _ => []

/-- The same of a job in a queue. -/
def jobTodo (g : GroupID) (id : SessionID) : GroupID × GroupJob → List Bool
  | (g', .Enter id') => if g' = g ∧ id' = id then [true] else []
  | (g', .Leave id' _) => if g' = g ∧ id' = id then [false] else []
  | (_, .Recv _) => []

/-- What `g` has still to do about the session `id`, in order. -/
def World.todo (w : World Buf) (g : GroupID) (id : SessionID) : List Bool :=
  w.threads.flatMap (Pc.todo g id) ++ w.shared.jobs.flatMap (jobTodo g id)

theorem handle_todo (g g' : GroupID) (id : SessionID) (job : GroupJob) :
    (handle g' job : Pc Buf).todo g id = jobTodo g id (g', job) := by
  cases job <;> rfl

theorem Pc.todo_of_home {g : GroupID} (id : SessionID) (h : pc.home ≠ some g) :
    pc.todo g id = [] := by
  cases pc with
  | insert g' id' | erase g' id' last => exact if_neg fun heq => h (by rw [← heq.1]; rfl)
  | _ => rfl

theorem jobTodo_of_ne {g : GroupID} (id : SessionID) {x : GroupID × GroupJob} (h : x.1 ≠ g) :
    jobTodo g id x = [] := by
  obtain ⟨g', job⟩ := x
  cases job with
  | Recv => rfl
  | Enter | Leave => exact if_neg fun heq => h heq.1

/-- The group's own thread has the only job of the group that is in hand. -/
theorem Exclusive.todo_threads {i : ℕ} {g : GroupID} (h : Exclusive w)
    (hpc : w.threads[i]? = some pc) (hhome : pc.home = some g) (id : SessionID) :
    w.threads.flatMap (Pc.todo g id) = pc.todo g id :=
  Pool.flatMap_of_others hpc fun _ _ hij hq => Pc.todo_of_home id (h.home_ne hpc hhome hij hq)

theorem jobs_todo {jobs : List (GroupID × GroupJob)} {g' : GroupID} {x : GroupID × GroupJob}
    (h : jobs.find? (·.1 = g') = some x) (g : GroupID) (id : SessionID) :
    jobs.flatMap (jobTodo g id) =
      jobTodo g id x ++ (jobs.eraseP (·.1 = g')).flatMap (jobTodo g id) := by
  obtain ⟨before, after, hjobs, herase, hne⟩ := jobs_split h
  rw [herase, hjobs, List.flatMap_append, List.flatMap_cons, List.flatMap_append]
  by_cases hg : g' = g
  · subst hg
    have hnil : before.flatMap (jobTodo g' id) = [] :=
      List.flatMap_eq_nil_iff.2 fun y hy => jobTodo_of_ne id (hne y hy)
    rw [hnil, List.nil_append, List.nil_append]
  · obtain rfl : x.1 = g' := by simpa using List.find?_some h
    rw [jobTodo_of_ne id hg, List.nil_append, List.nil_append]

/-- The group the thread is about to queue an `Enter` (`true`) or a `Leave`
(`false`) in. -/
def Pc.queues : Pc Buf → Option (GroupID × Bool)
  | .moveLeave _ src _ | .disconnectLeave _ src _ => some (src, false)
  | .moveEnter _ dst => some (dst, true)
  | _ => none

/-- What that adds to what `g` has to do about the session `id`. -/
def Pc.queued (s : Grouped Buf) (g : GroupID) (id : SessionID) (pc : Pc Buf) : List Bool :=
  match pc.queues with
  | some (g', b) => if g' = g ∧ s.slot.sessionId = id then [b] else []
  | none => []

/-- What an action does with the jobs about who is in a group. -/
inductive Handling (s : Grouped Buf) (pc : Pc Buf) (s' : Grouped Buf) (pc' : Pc Buf) : Prop
  | queue (htodo : ∀ g id, pc'.todo g id = pc.todo g id)
      (hjobs : ∀ g id, s'.jobs.flatMap (jobTodo g id) =
        s.jobs.flatMap (jobTodo g id) ++ pc.queued s g id)
      (hsessions : s'.sessions = s.sessions)
  | take (g : GroupID) (job : GroupJob) (hold : pc = .slot (some g) .idle)
      (hnew : pc' = handle g job) (hfind : s.jobs.find? (·.1 = g) = some (g, job))
      (hjobs : s'.jobs = s.jobs.eraseP (·.1 = g)) (hsessions : s'.sessions = s.sessions)
  | insert (g : GroupID) (id : SessionID) (hold : pc = .insert g id) (hnew : pc' = .onEnter g id)
      (hjobs : s'.jobs = s.jobs)
      (hsessions : s'.sessions = Function.update s.sessions g (Insert.insert id (s.sessions g)))
  | erase (g : GroupID) (id : SessionID) (last : Bool) (hold : pc = .erase g id last)
      (hnew : pc' = .onLeave g id last) (hin : id ∈ s.sessions g) (hjobs : s'.jobs = s.jobs)
      (hsessions : s'.sessions = Function.update s.sessions g ((s.sessions g).erase id))

theorem enter_todo (home : Option GroupID) (q q' : Slot.Pc Buf) (g : GroupID) (id : SessionID) :
    (enter home q q').todo g id = [] := by
  unfold enter
  split <;> rfl

theorem queue_job {x : GroupID × GroupJob} {g : GroupID} {id : SessionID} {l : List Bool}
    (hx : jobTodo g id x = l) :
    (s.jobs ++ [x]).flatMap (jobTodo g id) = s.jobs.flatMap (jobTodo g id) ++ l := by
  rw [List.flatMap_append, List.flatMap_singleton, hx]

theorem Action.handling {e : Event Buf} (h : Action index s pc e s' pc') :
    Handling s pc s' pc' := by
  cases h
  case slot home q q' ev r hnext _ =>
    obtain ⟨c, p, hobs⟩ := observe_eq s q
    rw [hobs]
    exact .queue (fun g id => enter_todo home q q' g id) (fun g id => (List.append_nil _).symm) rfl
  case dequeue g job hfind => exact .take g job rfl rfl hfind rfl rfl
  case insert g id => exact .insert g id rfl rfl rfl rfl
  case erase g id last hin => exact .erase g id last rfl rfl hin rfl rfl
  case disconnectLeave home src k =>
    refine .queue (fun g id => ?_) (fun g id => queue_job rfl) rfl
    cases k <;> rfl
  case disconnectNone home k _ =>
    refine .queue (fun g id => ?_) (fun g id => (List.append_nil _).symm) rfl
    cases k <;> rfl
  case moveLeave | moveEnter | enqueueRecv =>
    exact .queue (fun g id => rfl) (fun g id => queue_job rfl) rfl
  all_goals exact .queue (fun g id => rfl) (fun g id => (List.append_nil _).symm) rfl

/-- What a step does to what a group has to do about a session, and to its
`_sessions`. -/
inductive Progress (w : World Buf) (pc : Pc Buf) (w' : World Buf) (g : GroupID) (id : SessionID) :
    Prop
  | queue (htodo : w'.todo g id = w.todo g id ++ pc.queued w.shared g id)
      (hmem : id ∈ w'.shared.sessions g ↔ id ∈ w.shared.sessions g)
  | done (b : Bool) (hqueued : pc.queued w.shared g id = [])
      (htodo : w.todo g id = b :: w'.todo g id) (hmem : id ∈ w'.shared.sessions g ↔ b = true)

/-- Entering a session leaves who else is where. -/
theorem mem_enter_iff {sessions : GroupID → Finset SessionID} {g g' : GroupID} {id id' : SessionID}
    (hmiss : ¬(g = g' ∧ id = id')) :
    id' ∈ Function.update sessions g (Insert.insert id (sessions g)) g' ↔ id' ∈ sessions g' := by
  by_cases hg : g = g'
  · subst hg
    rw [Function.update_self, Finset.mem_insert]
    exact or_iff_right fun heq => hmiss ⟨rfl, heq.symm⟩
  · rw [Function.update_of_ne (Ne.symm hg)]

/-- And so does taking one out. -/
theorem mem_leave_iff {sessions : GroupID → Finset SessionID} {g g' : GroupID} {id id' : SessionID}
    (hmiss : ¬(g = g' ∧ id = id')) :
    id' ∈ Function.update sessions g ((sessions g).erase id) g' ↔ id' ∈ sessions g' := by
  by_cases hg : g = g'
  · subst hg
    rw [Function.update_self, Finset.mem_erase]
    exact and_iff_right fun heq => hmiss ⟨rfl, heq.symm⟩
  · rw [Function.update_of_ne (Ne.symm hg)]

/-- **Jobs are handled in the order in which they were queued**, and nothing
else changes who is in a group. -/
theorem Exclusive.progress {e : ℕ × Event Buf} (h : Exclusive w)
    (hpc : w.threads[e.1]? = some pc) (ha : Action index w.shared pc e.2 w'.shared pc')
    (ht : w'.threads = w.threads.set e.1 pc') (g : GroupID) (id : SessionID) :
    Progress w pc w' g id := by
  have h' := h.step hpc ha ht
  have hpc' : w'.threads[e.1]? = some pc' := by
    rw [ht, List.getElem?_set_self (List.getElem?_eq_some_iff.1 hpc).1]
  have hsame (hq : pc'.todo g id = pc.todo g id) :
      w'.threads.flatMap (Pc.todo g id) = w.threads.flatMap (Pc.todo g id) := by
    rw [ht]
    exact Pool.flatMap_set hpc hq
  cases ha.handling with
  | queue htodo hjobs hsessions =>
    refine .queue ?_ (by rw [hsessions])
    rw [World.todo, World.todo, hsame (htodo g id), hjobs, List.append_assoc]
  | take g' job hold hnew hfind hjobs hsessions =>
    subst hold hnew
    refine .queue ?_ (by rw [hsessions])
    rw [World.todo, World.todo, hjobs, jobs_todo hfind g id, ← List.append_assoc]
    refine (congrArg (· ++ _) ?_).trans (List.append_nil _).symm
    by_cases hg : g' = g
    · subst hg
      rw [h.todo_threads hpc rfl, h'.todo_threads hpc' (by cases job <;> rfl), handle_todo]
      rfl
    · rw [jobTodo_of_ne id hg, List.append_nil]
      refine hsame ?_
      rw [handle_todo, jobTodo_of_ne id hg]
      rfl
  | insert g' i hold hnew hjobs hsessions =>
    subst hold hnew
    by_cases hhit : g' = g ∧ i = id
    · obtain ⟨rfl, rfl⟩ := hhit
      refine .done true rfl ?_ ?_
      · rw [World.todo, World.todo, hjobs, h.todo_threads hpc rfl, h'.todo_threads hpc' rfl,
          Pc.todo, if_pos ⟨rfl, rfl⟩]
        rfl
      · rw [hsessions, Function.update_self]
        exact iff_of_true (Finset.mem_insert_self i _) rfl
    · refine .queue ?_ ?_
      · rw [World.todo, World.todo, hjobs, hsame (if_neg hhit).symm]
        exact (List.append_nil _).symm
      · rw [hsessions]
        exact mem_enter_iff hhit
  | erase g' i last hold hnew hin hjobs hsessions =>
    subst hold hnew
    by_cases hhit : g' = g ∧ i = id
    · obtain ⟨rfl, rfl⟩ := hhit
      refine .done false rfl ?_ ?_
      · rw [World.todo, World.todo, hjobs, h.todo_threads hpc rfl, h'.todo_threads hpc' rfl,
          Pc.todo, if_pos ⟨rfl, rfl⟩]
        rfl
      · rw [hsessions, Function.update_self]
        exact iff_of_false (Finset.notMem_erase i _) Bool.false_ne_true
    · refine .queue ?_ ?_
      · rw [World.todo, World.todo, hjobs, hsame (if_neg hhit).symm]
        exact (List.append_nil _).symm
      · rw [hsessions]
        exact mem_leave_iff hhit

end Grouped

end NetLib
