import NetLib.Group.Nesting
/-!
# Threads that wait for themselves

The calls on a stack say what its thread holds: it holds `_groupLock` shared
once for every call between the acquire and the release, and the groups it
consumes are those it is in the `Update` of. `MoveSession` and
`SessionDisconnected` call `Enqueue` under the lock, so a callback that calls
`CreateGroup` may wait for the lock of its own thread, and one that enqueues to
its own group may wait for room only it can make. Nothing else makes a thread
wait for itself.
-/

namespace NetLib

namespace Group

variable {Job : Type}

/-- Of the nested calls that `Home` has only this one is in the frame. -/
def Pc.Single : Pc Job → Prop
  | .code (.job _ home) | .code (.update home) => home = .outside
  | .code .outside | .debugBreak => True
  | .retry home _ _ | .load home _ _ _ | .put home _ _ _ | .publish home _ _ _
  | .checkRun home | .exchangeRun home => home = .outside
  | .sizeHead home | .sizeTail home _ | .orNeedUpdate home | .needUpdate home | .endRun home
  | .dequeue _ home | .headLoad _ home _ | .cas _ home _ | .take _ home _
  | .clear _ home _ _ => home = .outside

variable {s s' : Jobs Job} {pc pc' : Pc Job} {e : Event Job} {c : Option (Call Job)}

theorem Pc.single_of_access (h : Group.access s pc e = some (s', pc', c)) (hsingle : pc.Single)
    (hcalls : ∀ job update, e = .enqueue job update → pc = .code .outside) : pc'.Single := by
  cases action_of_access h with
  | @enqueue home job update =>
    obtain rfl : home = .outside := by simpa using hcalls job update rfl
    rfl
  | run => rfl
  | published | clear => trivial
  | @publish _ _ update =>
    obtain rfl := hsingle
    cases update with
    | true => rfl
    | false => trivial
  | isRun | isRunning | endRun =>
    obtain rfl := hsingle
    trivial
  | _ => exact hsingle

/-- `Update` ends where it clears `_isRun`. -/
theorem Pc.updates_of_access (h : Group.access s pc e = some (s', pc', c))
    (hupdates : pc.updates = true)
    (hcalls : ∀ job update, e = .enqueue job update → pc = .code .outside)
    (hend : ∀ home, pc ≠ .endRun home) : pc'.updates = true := by
  cases action_of_access h with
  | enqueue =>
    rw [hcalls _ _ rfl] at hupdates
    cases hupdates
  | endRun => exact absurd rfl (hend _)
  | _ => first | rfl | cases hupdates

theorem Pc.eq_of_exchange {home : Home}
    (h : Group.access s (.exchangeRun home) e = some (s', pc', c)) :
    pc' = if s.isRun then .code home else .sizeHead home := by
  cases action_of_access h with
  | isRunning hrun => rw [if_pos hrun]
  | startRun hrun => rw [if_neg (ne_true_of_eq_false hrun)]

theorem Pc.eq_of_endRun {home : Home} (h : Group.access s (.endRun home) e = some (s', pc', c)) :
    pc' = .code home := by
  cases action_of_access h
  rfl

/-- Only a cell in use makes `Enqueue` retry. -/
theorem Pc.used_of_retry {home : Home} {call : Call Job} {update : Bool}
    (h : Group.access s pc e = some (s', .retry home call update, c)) :
    e = .go ∧ ∃ t, pc = .load home call update t ∧ s.queue.loadUsed t = true := by
  generalize hpc : Pc.retry home call update = pc' at h
  cases action_of_access h with
  | @refused _ _ _ t hused =>
    cases hpc
    exact ⟨rfl, t, rfl, hused⟩
  | @publish _ _ b => cases b <;> cases hpc
  | _ => cases hpc

end Group

namespace GroupManager

/-- Does the call request `_groupLock` exclusively? -/
def Frame.creates : Frame → Bool
  | .createLock _ => true
  | _ => false

/-- The group whose queue had no room for the call. -/
def Frame.retries : Frame → Option GroupID
  | .group g (.retry _ _ _) => some g
  | _ => none

/-- No call keeps the program point of a group that only another can have. -/
def Frame.Single : Frame → Prop
  | .group _ pc => pc.Single
  | .recvFind _ _ pc => pc.Single ∧ pc.updates = true
  | _ => True

/-- The inner of two calls does not wait for what the outer has. -/
def Above (f f' : Frame) : Prop :=
  (f.creates = true → f'.locks = 0) ∧ ∀ g, f.retries = some g → f'.runs ≠ some g

/-- A thread and its stack. -/
structure Thread.Inv (q : Thread) : Prop where
  held : q.held = (q.stack.map Frame.locks).sum
  consumes : q.consumes.Sublist (q.stack.filterMap Frame.runs)
  single : ∀ f ∈ q.stack, f.Single
  above : q.stack.Pairwise Above

/-! ## One access -/

/-- **What an access does to the stack**, whatever is below its call. -/
structure Effect (s : GroupManager) (f : Frame) (e : Event) (fs : List Frame) (n : Note) :
    Prop where
  held : ∀ {k m}, m = f.locks + k → n.hold m = (fs.map Frame.locks).sum + k
  consumes : ∀ {l r}, l.Sublist (f.runs.toList ++ r) →
    (n.consume l).Sublist (fs.filterMap Frame.runs ++ r)
  single : ∀ f' ∈ fs, f'.Single
  above : fs.Pairwise Above
  creates : ∀ f' ∈ fs, f'.creates = true → e = .createGroup
  retries : ∀ f' ∈ fs, ∀ g, f'.retries = some g → ∃ home call update t,
    f = .group g (.load home call update t) ∧ ∃ jobs, s.groups g = some jobs ∧
      jobs.queue.loadUsed t = true

variable {s s' : GroupManager} {f : Frame} {e : Event} {fs : List Frame} {n : Note}

/-- A call that does not wait. -/
structure Frame.Quiet (f : Frame) : Prop where
  creates : f.creates = false
  retries : f.retries = none
  single : f.Single

theorem Frame.Quiet.above {f' : Frame} (h : f.Quiet) : Above f f' :=
  ⟨fun hc => by simp [h.creates] at hc, fun g hg => by simp [h.retries] at hg⟩

theorem Effect.of_quiet (hheld : ∀ {k m}, m = f.locks + k → n.hold m = (fs.map Frame.locks).sum + k)
    (hconsumes : ∀ {l r}, l.Sublist (f.runs.toList ++ r) →
      (n.consume l).Sublist (fs.filterMap Frame.runs ++ r))
    (hquiet : ∀ f' ∈ fs, f'.Quiet) : Effect s f e fs n where
  held := hheld
  consumes := hconsumes
  single f' hf' := (hquiet f' hf').single
  above := List.pairwise_of_forall_mem_list fun f' hf' _ _ => (hquiet f' hf').above
  creates f' hf' hc := by simp [(hquiet f' hf').creates] at hc
  retries f' hf' g hg := by simp [(hquiet f' hf').retries] at hg

/-- Calls in the place of one with the same locks and groups. -/
theorem Effect.silent (hlocks : f.locks = (fs.map Frame.locks).sum)
    (hruns : f.runs.toList = fs.filterMap Frame.runs) (hquiet : ∀ f' ∈ fs, f'.Quiet) :
    Effect s f e fs .none :=
  .of_quiet (fun hm => by rw [← hlocks]; exact hm) (fun hl => by rw [← hruns]; exact hl) hquiet

theorem effect_acquire {f' : Frame} (h : acquireShared s f' = some (s', fs, n)) (hf : f.locks = 0)
    (hf' : f'.locks = 1) (hruns : f.runs = f'.runs) (hquiet : f'.Quiet) : Effect s f e fs n := by
  unfold acquireShared at h
  split at h
  · cases h
  · obtain ⟨-, rfl, rfl⟩ : _ ∧ [f'] = fs ∧ Note.acquired = n := by simpa using h
    refine .of_quiet (fun hm => ?_) (fun hl => ?_) (by simpa using hquiet)
    · simp [Note.hold, hm, hf, hf']
      omega
    · cases hr : f'.runs <;> simpa [Note.consume, hruns, hr] using hl

theorem effect_release (h : releaseShared s fs = (s', fs, n)) (hf : f.locks = 1)
    (hfs : (fs.map Frame.locks).sum = 0) (hruns : f.runs.toList = fs.filterMap Frame.runs)
    (hquiet : ∀ f' ∈ fs, f'.Quiet) : Effect s f e fs n := by
  obtain ⟨-, rfl⟩ : _ ∧ Note.released = n := by simpa [releaseShared] using h
  refine .of_quiet (fun hm => ?_) (fun hl => ?_) hquiet
  · simp [Note.hold, hm, hf, hfs]
  · simpa [Note.consume, ← hruns] using hl

theorem effect_find {id : SessionID} {f' : Frame} (h : find s id f' e = some (s', fs, n))
    (hf : f.locks = 0) (hruns : f.runs = none) (hf' : f'.locks = 0) (hruns' : f'.runs = none)
    (hquiet : f'.Quiet) : Effect s f e fs n := by
  cases e <;> simp only [find, Option.some.injEq, Prod.mk.injEq, reduceCtorEq] at h
  case found =>
    obtain ⟨-, rfl, rfl⟩ := h
    exact .silent (by simp [hf, hf']) (by simp [hruns, hruns']) (by simpa using hquiet)
  case missing =>
    obtain ⟨-, rfl, rfl⟩ := h
    exact .silent hf (by rw [hruns]; rfl) (by simpa using ⟨rfl, rfl, trivial⟩)
  case outOfRange =>
    obtain ⟨-, rfl, rfl⟩ := h
    exact .silent hf (by rw [hruns]; rfl) nofun

/-! ## The accesses of a group -/

section Access

variable {g : GroupID} {pc pc' : Group.Pc GroupJob}

theorem runs_groupFrames :
    (groupFrames g pc pc').filterMap Frame.runs = if pc'.updates then [g] else [] := by
  unfold groupFrames
  split
  · rfl
  · rfl
  · split
    · unfold jobFrames
      split <;> rfl
    · rfl
  · cases hu : pc'.updates <;> simp [Frame.runs, hu]

theorem locks_groupFrames : ((groupFrames g pc pc').map Frame.locks).sum = 0 := by
  unfold groupFrames jobFrames
  repeat' split
  all_goals rfl

theorem creates_groupFrames : ∀ f' ∈ groupFrames g pc pc', f'.creates = false := by
  unfold groupFrames jobFrames
  repeat' split
  all_goals simp [Frame.creates]

theorem single_groupFrames (h : pc'.Single) : ∀ f' ∈ groupFrames g pc pc', f'.Single := by
  unfold groupFrames jobFrames
  repeat' split
  all_goals
    first
    | simp [Frame.Single, Group.Pc.updates]; done
    | simpa [Frame.Single, Group.Pc.updates] using h

/-- Of the frames only the one of the group may retry. -/
theorem eq_or_retries_groupFrames :
    ∀ f' ∈ groupFrames g pc pc', f' = .group g pc' ∨ f'.retries = none := by
  unfold groupFrames jobFrames
  repeat' split
  all_goals simp [Frame.retries]

theorem above_groupFrames : (groupFrames g pc pc').Pairwise Above := by
  unfold groupFrames jobFrames
  repeat' split
  all_goals simp [Above, Frame.creates, Frame.retries]

theorem retry_of_retries {g' : GroupID} (h : (Frame.group g pc').retries = some g') :
    g' = g ∧ ∃ home call update, pc' = .retry home call update := by
  unfold Frame.retries at h
  split at h
  · rename_i heq
    cases heq
    exact ⟨(Option.some.inj h).symm, _, _, _, rfl⟩
  · cases h

/-- A thread comes to consume a group where it sets `_isRun`, and it does so
until it clears it. -/
theorem consume_groupNote {jobs jobs' : Group.Jobs GroupJob} {e' : Group.Event GroupJob}
    {c : Option (Group.Call GroupJob)} {l r : List GroupID}
    (h : Group.access jobs pc e' = some (jobs', pc', c)) (hsingle : pc.Single)
    (hcalls : ∀ job update, e' = .enqueue job update → pc = .code .outside)
    (hl : l.Sublist ((if pc.updates then [g] else []) ++ r)) :
    ((groupNote g jobs pc).consume l).Sublist ((if pc'.updates then [g] else []) ++ r) := by
  unfold groupNote
  split
  · rename_i home
    rw [Group.Pc.eq_of_exchange h]
    cases hrun : jobs.isRun
    · exact hl.cons_cons g
    · exact hl.trans (List.sublist_append_right _ r)
  · rename_i home
    obtain rfl : home = .outside := hsingle
    rw [Group.Pc.eq_of_endRun h]
    change (l.erase g).Sublist r
    simpa [Group.Pc.updates] using hl.erase g
  · rename_i hend
    cases hu : pc.updates with
    | false =>
      rw [hu] at hl
      exact hl.trans (List.sublist_append_right _ r)
    | true =>
      rw [hu] at hl
      rw [Group.Pc.updates_of_access h hu hcalls hend]
      exact hl

theorem hold_groupNote {jobs : Group.Jobs GroupJob} {m : ℕ} : (groupNote g jobs pc).hold m = m := by
  unfold groupNote
  repeat' split
  all_goals rfl

/-- **An access of a group**, by a call that is inside its `Update` where `pc`
is. -/
theorem effect_group {e' : Group.Event GroupJob} (h : accessGroup s g pc e' = some (s', fs, n))
    (hf : f.locks = 0) (hruns : f.runs = if pc.updates then some g else none)
    (hsingle : pc.Single)
    (hcalls : ∀ job update, e' = .enqueue job update → pc = .code .outside)
    (hgo : e' = .go → f = .group g pc) : Effect s f e fs n := by
  unfold accessGroup at h
  obtain ⟨jobs, hjobs, hrest⟩ := Option.bind_eq_some_iff.1 h
  obtain ⟨⟨jobs', pc', c⟩, haccess, heq⟩ := Option.map_eq_some_iff.1 hrest
  obtain ⟨-, rfl, rfl⟩ : _ ∧ groupFrames g pc pc' = fs ∧ groupNote g jobs pc = n := by
    simpa only [Prod.mk.injEq] using heq
  refine {
    held := fun {k m} hm => by rw [hold_groupNote, locks_groupFrames, hm, hf]
    consumes := fun {l r} hl => ?_
    single := single_groupFrames (Group.Pc.single_of_access haccess hsingle hcalls)
    above := above_groupFrames
    creates := fun f' hf' hc => by rw [creates_groupFrames f' hf'] at hc; cases hc
    retries := fun f' hf' g' hg' => ?_ }
  · rw [runs_groupFrames]
    refine consume_groupNote haccess hsingle hcalls ?_
    rw [hruns] at hl
    cases hu : pc.updates <;> simpa [hu] using hl
  · rcases eq_or_retries_groupFrames f' hf' with rfl | hnone
    · obtain ⟨rfl, home, call, update, rfl⟩ := retry_of_retries hg'
      obtain ⟨rfl, t, rfl, hused⟩ := Group.Pc.used_of_retry haccess
      exact ⟨home, call, update, t, hgo rfl, jobs, hjobs, hused⟩
    · rw [hnone] at hg'
      cases hg'

end Access

/-! ## Every access -/

theorem quiet_one (h : f.Quiet) : ∀ f' ∈ [f], f'.Quiet := by
  simpa using h

theorem quiet_two {f₁ f₂ : Frame} (h₁ : f₁.Quiet) (h₂ : f₂.Quiet) : ∀ f' ∈ [f₁, f₂], f'.Quiet := by
  simpa using ⟨h₁, h₂⟩

theorem effect_code {c : Code} (h : accessCode s c e = some (s', fs, n)) :
    Effect s (.code c) e fs n := by
  unfold accessCode at h
  split at h
  case h_2 =>
    simp only [Option.some.injEq, Prod.mk.injEq] at h
    obtain ⟨-, rfl, rfl⟩ := h
    exact {
      held := fun hm => hm
      consumes := fun hl => hl
      single := by simp [Frame.Single]
      above := by simp [Above, Frame.creates, Frame.retries, Frame.locks]
      creates := fun _ _ _ => rfl
      retries := by simp [Frame.retries] }
  case h_11 => cases h
  all_goals
    revert h
    repeat' split
    all_goals
      rintro ⟨⟩ <;> first
        | exact .silent rfl rfl (quiet_one ⟨rfl, rfl, trivial⟩)
        | exact .silent rfl rfl (quiet_two ⟨rfl, rfl, trivial⟩ ⟨rfl, rfl, trivial⟩)
        | exact .silent rfl rfl fun f' hf' => absurd hf' List.not_mem_nil

theorem retries_of_updates {g : GroupID} {pc : Group.Pc GroupJob} (h : pc.updates = true) :
    (Frame.group g pc).retries = none := by
  unfold Frame.retries
  split
  · rename_i heq
    cases heq
    cases h
  · rfl

/-- `HandleJob` goes on with the next job, and the failed `FindSession` still
has its reference. -/
theorem Effect.release {id : SessionID} (h : Effect s f e fs n) :
    Effect s f e (.release id :: fs) n where
  held hm := by simpa [Frame.locks] using h.held hm
  consumes hl := h.consumes hl
  single := List.forall_mem_cons.2 ⟨trivial, h.single⟩
  above := List.pairwise_cons.2
    ⟨fun f' _ => Frame.Quiet.above (f := .release id) ⟨rfl, rfl, trivial⟩, h.above⟩
  creates := List.forall_mem_cons.2 ⟨nofun, h.creates⟩
  retries := List.forall_mem_cons.2 ⟨nofun, h.retries⟩

theorem effect_recvFind {g : GroupID} {id : SessionID} {pc : Group.Pc GroupJob}
    (h : access s (.recvFind g id pc) e = some (s', fs, n))
    (hsingle : (Frame.recvFind g id pc).Single) : Effect s (.recvFind g id pc) e fs n := by
  obtain ⟨hpc, hupdates⟩ := hsingle
  cases e with
  | found =>
    simp only [access, Option.some.injEq, Prod.mk.injEq] at h
    obtain ⟨-, rfl, rfl⟩ := h
    exact .silent rfl (by simp [Frame.runs, hupdates, List.filterMap_cons])
      (quiet_two ⟨rfl, rfl, trivial⟩ ⟨rfl, retries_of_updates hupdates, hpc⟩)
  | missing =>
    obtain ⟨⟨s₁, fs₁, n₁⟩, hgone, heq⟩ := Option.map_eq_some_iff.1 h
    obtain ⟨-, rfl, rfl⟩ : _ ∧ .release id :: fs₁ = fs ∧ n₁ = n := by
      simpa only [Prod.mk.injEq] using heq
    exact (effect_group hgone rfl rfl hpc nofun nofun).release
  | outOfRange => exact effect_group h rfl rfl hpc nofun nofun
  | _ => cases h

/-- **What an access does**, whatever the call. -/
theorem effect_of_access (h : access s f e = some (s', fs, n)) (hsingle : f.Single) :
    Effect s f e fs n := by
  cases f with
  | code c => exact effect_code h
  | moveFind _ _ _ | closeFind _ | sendFind _ =>
    exact effect_find h rfl rfl rfl rfl ⟨rfl, rfl, trivial⟩
  | moveLock _ _ _ _ | disconnectLock _ _ | onRecvLock _ _ | updateLock =>
    cases e with
    | go => exact effect_acquire h rfl rfl rfl ⟨rfl, rfl, trivial⟩
    | _ => cases h
  | moveUnlock _ | onRecvUnlock _ _ =>
    cases e with
    | go =>
      cases h
      exact effect_release rfl rfl rfl rfl (quiet_one ⟨rfl, rfl, trivial⟩)
    | _ => cases h
  | disconnectUnlock | updateUnlock =>
    cases e with
    | go =>
      cases h
      exact effect_release rfl rfl rfl rfl nofun
    | _ => cases h
  | enqueue g job update =>
    cases e with
    | go => exact effect_group h rfl rfl trivial (fun _ _ _ => rfl) nofun
    | _ => cases h
  | update g =>
    cases e with
    | go => exact effect_group h rfl rfl trivial nofun nofun
    | _ => cases h
  | group g pc =>
    cases e with
    | go => exact effect_group h rfl rfl hsingle nofun fun _ => rfl
    | due b => exact effect_group h rfl rfl hsingle nofun nofun
    | _ => cases h
  | recvFind g id pc => exact effect_recvFind h hsingle
  | _ =>
    -- calls that neither lock nor touch a group
    cases e <;> first | cases h; done | skip
    all_goals
      simp only [access] at h
      revert h
      repeat' split
      all_goals
        rintro ⟨⟩ <;> first
          | exact .silent rfl rfl (quiet_one ⟨rfl, rfl, trivial⟩)
          | exact .silent rfl rfl (quiet_two ⟨rfl, rfl, trivial⟩ ⟨rfl, rfl, trivial⟩)
          | exact .silent rfl rfl fun f' hf' => absurd hf' List.not_mem_nil

/-! ## Runs -/

section Run

variable {w w' : World} {q : Thread} {rest : List Frame}

/-- What is on top of a stack stands above all that is below it. -/
theorem Effect.above_rest (h : Effect s f e fs n) (hstack : q.stack = f :: rest)
    (hcreate : e = .createGroup → q.MayCreate) (hroom : q.FindsRoom s) :
    ∀ f' ∈ fs, ∀ g ∈ rest, Above f' g := by
  intro f' hf' f'' hf''
  refine ⟨fun hc => ?_, fun g hg hruns => ?_⟩
  · exact hcreate (h.creates f' hf' hc) f'' (hstack ▸ List.mem_cons_of_mem f hf'')
  · obtain ⟨home, call, update, t, rfl, jobs, hjobs, hused⟩ := h.retries f' hf' g hg
    rw [Thread.FindsRoom, hstack] at hroom
    have hfree := hroom ⟨f'', hf'', hruns⟩
    simp [hjobs, hused] at hfree

theorem Thread.Inv.step (h : q.Inv) (hstack : q.stack = f :: rest)
    (haccess : access s f e = some (s', fs, n)) (hcreate : e = .createGroup → q.MayCreate)
    (hroom : q.FindsRoom s) :
    Thread.Inv ⟨fs ++ rest, n.hold q.held, n.consume q.consumes⟩ := by
  have heffect := effect_of_access haccess (h.single f (hstack ▸ List.mem_cons_self))
  obtain ⟨hheld, hconsumes, hsingle, habove⟩ := h
  rw [hstack] at hheld hconsumes hsingle habove
  refine {
    held := ?_
    consumes := ?_
    single := List.forall_mem_append.2 ⟨heffect.single, fun f' hf' =>
      hsingle f' (List.mem_cons_of_mem f hf')⟩
    above := List.pairwise_append.2 ⟨heffect.above, (List.pairwise_cons.1 habove).2,
      heffect.above_rest hstack hcreate hroom⟩ }
  · rw [List.map_append, List.sum_append]
    exact heffect.held (by simpa using hheld)
  · rw [List.filterMap_append]
    refine heffect.consumes ?_
    cases hr : f.runs <;> simpa [List.filterMap_cons, hr] using hconsumes

theorem inv_of_careful {n : ℕ} (h : Runs step Careful (World.initial n) w) :
    ∀ q ∈ w.threads, q.Inv := by
  refine h.invariant (I := fun w => ∀ q ∈ w.threads, q.Inv) (fun q hq => ?_)
    fun {v u e} hinv hstep hok => ?_
  · rw [List.eq_of_mem_replicate hq]
    exact ⟨rfl, .slnil, by simp [Frame.Single], List.pairwise_singleton _ _⟩
  · obtain ⟨q, q', hq, hnext, ht⟩ := Pool.step_eq_some hstep
    obtain ⟨hcreate, hroom⟩ := hok q hq
    refine Pool.forall_threads ht hinv ?_
    unfold next at hnext
    split at hnext
    · cases hnext
    · rename_i f rest hstack
      obtain ⟨⟨s', fs, n⟩, haccess, heq⟩ := Option.map_eq_some_iff.1 hnext
      obtain ⟨-, rfl⟩ := Prod.mk.inj heq
      exact (hinv q (List.mem_of_getElem? hq)).step hstack haccess hcreate hroom

/-- What is under a call that requests the lock does not hold it. -/
theorem Thread.Inv.exclusive (h : q.Inv) {g : GroupID} (hstack : q.stack = .createLock g :: rest) :
    q.held = 0 := by
  obtain ⟨hheld, -, -, habove⟩ := h
  rw [hstack] at hheld habove
  rw [hheld, List.map_cons, List.sum_cons]
  have hsum : (rest.map Frame.locks).sum = 0 := List.sum_eq_zero fun k hk => by
    obtain ⟨f', hf', rfl⟩ := List.mem_map.1 hk
    exact ((List.pairwise_cons.1 habove).1 f' hf').1 rfl
  simp [Frame.locks, hsum]

/-- What is under a call that waits for room is not in the `Update` that makes
it. -/
theorem Thread.Inv.room (h : q.Inv) {g : GroupID} {home : Group.Home}
    {call : Group.Call GroupJob} {update : Bool}
    (hstack : q.stack = .group g (.retry home call update) :: rest) : g ∉ q.consumes := by
  obtain ⟨-, hconsumes, -, habove⟩ := h
  rw [hstack] at hconsumes habove
  intro hg
  obtain ⟨f', hf', hruns⟩ := List.mem_filterMap.1 (hconsumes.subset hg)
  rcases List.mem_cons.1 hf' with rfl | hrest
  · simp [Frame.runs, Group.Pc.updates] at hruns
  · exact ((List.pairwise_cons.1 habove).1 f' hrest).2 g rfl hruns

/-- **No thread waits for itself**, as long as no callback under `_groupLock`
calls `CreateGroup` and no callback enqueues to its own group while it is full. -/
theorem safe_of_careful {n : ℕ} (h : Runs step Careful (World.initial n) w) : Safe w where
  exclusive q hq _ _ hstack := (inv_of_careful h q hq).exclusive hstack
  room q hq _ _ _ _ _ hstack := (inv_of_careful h q hq).room hstack

end Run

/-- `CreateGroup`, and `IOCP::MoveSession` of a session into the new group, up
to the callback `OnEnter` of the job it has just queued. -/
def enterInline : List Event :=
  .createGroup :: .go :: .go :: .go :: .go :: .moveSession ⟨1, 0⟩ 1 true :: .found ::
    List.replicate 18 .go

/-- `OnEnter` moves a second session into its own group: two calls of
`MoveSession` hold the lock, and an `Enqueue` is under way in the group that the
thread consumes. -/
theorem safe_of_careful_nested : ∃ w, Runs step Careful (World.initial 1) w ∧
    w.threads.map (fun q => (q.held, q.consumes)) = [(2, [1])] ∧ Safe w := by
  let es : List Event := .moveSession ⟨2, 1⟩ 1 false :: .found :: List.replicate 7 .go
  obtain ⟨w, hw, heq⟩ := Option.map_eq_some_iff.1
    (show (exec step (World.initial 1) ((enterInline ++ es).map (0, ·))).map
      (fun w => w.threads.map fun q => (q.held, q.consumes)) = some [(2, [1])] by rfl)
  have hruns : Runs step Careful (World.initial 1) w := runs_of_exec hw (by decide +kernel)
  exact ⟨w, hruns, heq, safe_of_careful hruns⟩

/-- Does the call on top of the stack request the lock? -/
def Thread.requests (q : Thread) : Bool :=
  match q.stack with
  | .createLock _ :: _ => true
  | _ => false

theorem Thread.exists_of_requests {q : Thread} (h : q.requests = true) :
    ∃ g rest, q.stack = .createLock g :: rest := by
  unfold requests at h
  split at h
  · rename_i g rest hstack
    exact ⟨g, rest, hstack⟩
  · cases h

/-- **A callback that waits for its own thread.** `IOCP::MoveSession` holds the
lock while `OnEnter` runs, and `OnEnter` calls `CreateGroup`. -/
theorem createGroup_waits_for_itself : ∃ es, ∃ w : World,
    exec step (World.initial 1) es = some w ∧ ¬ Safe w := by
  let es : List Event := [.createGroup, .go]
  obtain ⟨w, hw, heq⟩ := Option.map_eq_some_iff.1
    (show (exec step (World.initial 1) ((enterInline ++ es).map (0, ·))).map
      (fun w => w.threads.map fun q => (q.held, q.requests)) = some [(1, true)] by rfl)
  refine ⟨_, w, hw, fun hsafe => ?_⟩
  obtain ⟨q, hq, hpair⟩ := List.map_eq_singleton_iff.1 heq
  obtain ⟨hheld, hrequests⟩ := Prod.mk.inj hpair
  obtain ⟨g, rest, hstack⟩ := Thread.exists_of_requests hrequests
  have hfree := hsafe.exclusive q (by simp [hq]) g rest hstack
  omega

end GroupManager

end NetLib
