import NetLib.Group.SelfWait
/-!
# The groups of `GroupManager`

`_groups` only grows, and only under the exclusive lock. That a lookup finds its
group is left to the callers: `MoveSession` and `SessionDisconnected` do not
test what `find` returns, and `OnRecv` asks with `operator[]`, which would put a
null pointer into the map of a group that is not there, under the shared lock.

Two calls can go wrong. `MoveSession` may name a group whose `CreateGroup` has
not come to its `emplace` (`OnCreate` knows the id already), and `Execute` reads
the group of the session a second time for `OnRecv`, when the session may have
left its group.
-/

namespace NetLib

namespace GroupManager

variable {s s' : GroupManager} {f f' : Frame} {e : Event} {fs fs' : List Frame} {n : Note}

/-- The base group, or a group in `_groups`. -/
def Known (s : GroupManager) (g : GroupID) : Prop :=
  g = BaseGroupID ∨ (s.groups g).isSome = true

instance (s : GroupManager) (g : GroupID) : Decidable (s.Known g) :=
  inferInstanceAs (Decidable (_ ∨ _))

theorem Known.isSome {g : GroupID} (h : s.Known g) (hne : g ≠ BaseGroupID) :
    (s.groups g).isSome = true := h.resolve_left hne

/-- The id that `CreateGroup` has drawn and not yet put into `_groups`. -/
def Frame.draws : Frame → Option GroupID
  | .createLock g | .createEmplace g => some g
  | _ => none

/-- The session whose group `Execute` is about to read again. -/
def Frame.rereads : Frame → Option SessionID
  | .executeGroup id => some id
  | _ => none

/-- What a call relies on about the groups it names. -/
def Frame.Relies (s : GroupManager) : Frame → Prop
  | .moveFind _ dst _ | .moveSrc _ dst _ | .moveSetGroup _ dst _ | .moveEnter _ dst _ => s.Known dst
  | .moveLock _ src dst _ | .moveLeave _ src dst _ => s.Known src ∧ s.Known dst
  | .disconnectLock _ src | .disconnectLeave _ src => s.Known src
  | .executeGroup id => s.groupId id ≠ BaseGroupID
  | .onRecvLock _ g | .onRecvUnlock _ g | .enqueue g _ _ | .update g | .group g _
  | .recvFind g _ _ | .recvHandler g _ => (s.groups g).isSome = true
  | .createLock g | .createEmplace g => g ≠ BaseGroupID ∧ g ≤ s.lastId ∧ s.groups g = none
  | _ => True

/-- What a call from outside may name. -/
def Event.Names (s : GroupManager) : Event → Prop
  | .moveSession _ dst _ => s.Known dst
  | .run g => (s.groups g).isSome = true
  | _ => True

instance (s : GroupManager) (e : Event) : Decidable (e.Names s) := by
  unfold Event.Names
  split <;> infer_instance

/-- The session that the thread is about to take out of its group. -/
def Thread.frees (q : Thread) : Option SessionID :=
  match q.stack with
  | .moveSetGroup id 0 _ :: _ => some id
  | _ => none

/-- `MoveSession` names a group that `CreateGroup` has put into `_groups`, a
worker runs one, and no session leaves its group while `Execute` is between its
two reads of it. -/
def NamesGroups (w : World) (e : ℕ × Event) (_ : World) : Prop :=
  e.2.Names w.shared ∧ ∀ q ∈ w.threads[e.1]?, ∀ id ∈ q.frees, ∀ r ∈ w.threads,
    some id ∉ r.stack.map Frame.rereads

instance decidableNamesGroups (w : World) (e : ℕ × Event) (w' : World) :
    Decidable (NamesGroups w e w') :=
  have (id : SessionID) : Decidable (∀ r ∈ w.threads, some id ∉ r.stack.map Frame.rereads) :=
    List.decidableBAll ..
  have (q : Thread) : Decidable (∀ id ∈ q.frees, ∀ r ∈ w.threads,
      some id ∉ r.stack.map Frame.rereads) := Option.decidableForallMem _
  have : Decidable (∀ q ∈ w.threads[e.1]?, ∀ id ∈ q.frees, ∀ r ∈ w.threads,
      some id ∉ r.stack.map Frame.rereads) := Option.decidableForallMem _
  inferInstanceAs (Decidable (_ ∧ _))

/-- Every lookup in `_groups` finds its group. -/
structure Found (w : World) : Prop where
  /-- `_groups.find(src)->second` in `MoveSession` -/
  leave : ∀ q ∈ w.threads, ∀ id src dst update rest,
    q.stack = .moveLeave id src dst update :: rest → src ≠ BaseGroupID →
      (w.shared.groups src).isSome = true
  /-- `_groups.find(dst)->second` -/
  enter : ∀ q ∈ w.threads, ∀ id dst update rest,
    q.stack = .moveEnter id dst update :: rest → dst ≠ BaseGroupID →
      (w.shared.groups dst).isSome = true
  /-- `_groups.find(src)->second` in `SessionDisconnected` -/
  disconnect : ∀ q ∈ w.threads, ∀ id src rest,
    q.stack = .disconnectLeave id src :: rest → src ≠ BaseGroupID →
      (w.shared.groups src).isSome = true
  /-- `_groups[groupId]` in `OnRecv` -/
  recv : ∀ q ∈ w.threads, ∀ id g rest, q.stack = .onRecvUnlock id g :: rest →
    (w.shared.groups g).isSome = true
  /-- `emplace` finds no group of the new id, which is not the one of the base
  group. -/
  emplace : ∀ q ∈ w.threads, ∀ g rest, q.stack = .createEmplace g :: rest →
    g ≠ BaseGroupID ∧ w.shared.groups g = none

/-! ## Weights of the calls -/

/-- A weight of the frames, summed over the calls of a thread. -/
def Thread.sum (φ : Frame → ℕ) (q : Thread) : ℕ := (q.stack.map φ).sum

section Step

variable {w w' : World} {i : ℕ × Event}

/-- **What a step is**: an access of the innermost call of one thread. -/
theorem step_frames (h : step w i = some w') : ∃ q q' : Thread, ∃ f rest fs n,
    w.threads[i.1]? = some q ∧ q.stack = f :: rest ∧
      access w.shared f i.2 = some (w'.shared, fs, n) ∧ q'.stack = fs ++ rest ∧
        w'.threads = w.threads.set i.1 q' := by
  obtain ⟨q, q', hq, hnext, ht⟩ := Pool.step_eq_some h
  unfold next at hnext
  split at hnext
  · cases hnext
  · rename_i f rest hstack
    obtain ⟨⟨s', fs, n⟩, haccess, heq⟩ := Option.map_eq_some_iff.1 hnext
    obtain ⟨rfl, rfl⟩ := Prod.mk.inj heq
    exact ⟨q, _, f, rest, fs, n, hq, hstack, haccess, rfl, ht⟩

theorem total_sum_step (φ : Frame → ℕ) {q q' : Thread} {rest : List Frame}
    (hq : w.threads[i.1]? = some q) (hstack : q.stack = f :: rest) (hstack' : q'.stack = fs ++ rest)
    (ht : w'.threads = w.threads.set i.1 q') :
    w'.total (Thread.sum φ) + φ f = w.total (Thread.sum φ) + (fs.map φ).sum := by
  have htotal := Pool.total_step (Thread.sum φ) hq ht
  simp only [Thread.sum, hstack, hstack', List.map_cons, List.sum_cons, List.map_append,
    List.sum_append] at htotal ⊢
  omega

theorem le_total_sum (φ : Frame → ℕ) {q : Thread} (hq : q ∈ w.threads) (hf : f ∈ q.stack) :
    φ f ≤ w.total (Thread.sum φ) := by
  have hle : φ f ≤ Thread.sum φ q := List.single_le_sum (by simp) _ (List.mem_map_of_mem hf)
  exact hle.trans (Pool.le_total (Thread.sum φ) hq)

end Step

/-! ## The lock -/

/-- Is the call between `AcquireSRWLockExclusive` and its release? -/
def Frame.writes : Frame → ℕ
  | .createEmplace _ | .createUnlock => 1
  | _ => 0

/-- The lock is held by the calls that have acquired it. -/
structure Locked (w : World) : Prop where
  readers : w.total (Thread.sum Frame.locks) = w.shared.groupLock.readers
  writer : w.total (Thread.sum Frame.writes) = w.shared.groupLock.writer.toNat
  exclusive : w.shared.groupLock.writer = true → w.shared.groupLock.readers = 0

/-- What an access does to the lock. -/
structure LockMoves (s : GroupManager) (f : Frame) (s' : GroupManager) (fs : List Frame) :
    Prop where
  readers : s'.groupLock.readers + f.locks = s.groupLock.readers + (fs.map Frame.locks).sum
  writer : s'.groupLock.writer.toNat + f.writes =
    s.groupLock.writer.toNat + (fs.map Frame.writes).sum
  exclusive : s'.groupLock.writer = true → s'.groupLock.readers = 0

/-- The access is one of a call that holds what it takes itself to hold. -/
structure HoldsLock (s : GroupManager) (f : Frame) : Prop where
  locks : f.locks ≤ s.groupLock.readers
  writes : f.writes ≤ s.groupLock.writer.toNat
  exclusive : s.groupLock.writer = true → s.groupLock.readers = 0

theorem LockMoves.stay (hs : HoldsLock s f) (hlock : s'.groupLock = s.groupLock)
    (hlocks : (fs.map Frame.locks).sum = f.locks) (hwrites : (fs.map Frame.writes).sum = f.writes) :
    LockMoves s f s' fs := by
  refine ⟨?_, ?_, ?_⟩
  · rw [hlock, hlocks]
  · rw [hlock, hwrites]
  · rw [hlock]
    exact hs.exclusive

theorem lockMoves_acquire (h : acquireShared s f' = some (s', fs, n)) (hf : f.locks = 0)
    (hf' : f'.locks = 1) (hw : f.writes = 0) (hw' : f'.writes = 0) : LockMoves s f s' fs := by
  unfold acquireShared at h
  split at h
  · cases h
  · rename_i hwriter
    obtain ⟨rfl, rfl, -⟩ : _ ∧ [f'] = fs ∧ Note.acquired = n := by simpa using h
    have hfree : s.groupLock.writer = false := Bool.eq_false_of_not_eq_true hwriter
    refine ⟨?_, ?_, nofun⟩
    · simp only [List.map_cons, List.map_nil, List.sum_cons, List.sum_nil, hf, hf']
      omega
    · simp [hfree, hw, hw']

theorem lockMoves_release (hs : HoldsLock s f) (h : releaseShared s fs = (s', fs', n))
    (hf : f.locks = 1) (hw : f.writes = 0) (hfs : (fs.map Frame.locks).sum = 0)
    (hws : (fs.map Frame.writes).sum = 0) : LockMoves s f s' fs' := by
  obtain ⟨rfl, rfl, -⟩ : _ ∧ fs = fs' ∧ Note.released = n := by simpa [releaseShared] using h
  have hlocks := hs.locks
  refine ⟨?_, ?_, ?_⟩
  · change s.groupLock.readers - 1 + _ = _
    omega
  · change s.groupLock.writer.toNat + _ = _
    omega
  · intro hwriter
    have := hs.exclusive hwriter
    omega

theorem lockMoves_find {id : SessionID} (hs : HoldsLock s f)
    (h : find s id f' e = some (s', fs, n)) (hf : f.locks = 0) (hf' : f'.locks = 0)
    (hw : f.writes = 0) (hw' : f'.writes = 0) : LockMoves s f s' fs := by
  unfold find at h
  split at h
  · obtain ⟨rfl, rfl, -⟩ : _ ∧ [f'] = fs ∧ Note.none = n := by simpa using h
    exact .stay hs rfl (by rw [hf]; simpa using hf') (by rw [hw]; simpa using hw')
  · obtain ⟨rfl, rfl, -⟩ : _ ∧ [Frame.release id] = fs ∧ Note.none = n := by simpa using h
    exact .stay hs rfl (by rw [hf]; rfl) (by rw [hw]; rfl)
  · obtain ⟨rfl, rfl, -⟩ : _ ∧ [] = fs ∧ Note.none = n := by simpa using h
    exact .stay hs rfl (by rw [hf]; rfl) (by rw [hw]; rfl)
  · cases h

section Access

variable {g : GroupID} {pc pc' : Group.Pc GroupJob}

theorem writes_groupFrames : ((groupFrames g pc pc').map Frame.writes).sum = 0 := by
  unfold groupFrames jobFrames
  repeat' split
  all_goals rfl

theorem lockMoves_group {e' : Group.Event GroupJob} (hs : HoldsLock s f)
    (h : accessGroup s g pc e' = some (s', fs, n)) (hf : f.locks = 0) (hw : f.writes = 0) :
    LockMoves s f s' fs := by
  unfold accessGroup at h
  obtain ⟨jobs, -, hrest⟩ := Option.bind_eq_some_iff.1 h
  obtain ⟨⟨jobs', pc', c⟩, -, heq⟩ := Option.map_eq_some_iff.1 hrest
  obtain ⟨rfl, rfl, -⟩ : _ ∧ groupFrames g pc pc' = fs ∧ groupNote g jobs pc = n := by
    simpa only [Prod.mk.injEq] using heq
  exact .stay hs rfl (locks_groupFrames.trans hf.symm) (writes_groupFrames.trans hw.symm)

end Access

theorem lockMoves_recvFind {g : GroupID} {id : SessionID} {pc : Group.Pc GroupJob}
    (hs : HoldsLock s (.recvFind g id pc))
    (h : access s (.recvFind g id pc) e = some (s', fs, n)) :
    LockMoves s (.recvFind g id pc) s' fs := by
  cases e with
  | found =>
    simp only [access, Option.some.injEq, Prod.mk.injEq] at h
    obtain ⟨rfl, rfl, -⟩ := h
    exact .stay hs rfl rfl rfl
  | missing =>
    obtain ⟨⟨s₁, fs₁, n₁⟩, hgone, heq⟩ := Option.map_eq_some_iff.1 h
    obtain ⟨rfl, rfl, -⟩ : _ ∧ .release id :: fs₁ = fs ∧ n₁ = n := by
      simpa only [Prod.mk.injEq] using heq
    obtain ⟨hreaders, hwriter, hexclusive⟩ := lockMoves_group hs hgone rfl rfl
    exact ⟨by simpa [Frame.locks] using hreaders, by simpa [Frame.writes] using hwriter,
      hexclusive⟩
  | outOfRange => exact lockMoves_group hs h rfl rfl
  | _ => cases h

/-- **What an access does to the lock**, whatever the call. -/
theorem lockMoves_of_access (hs : HoldsLock s f) (h : access s f e = some (s', fs, n)) :
    LockMoves s f s' fs := by
  cases f with
  | code c =>
    simp only [access] at h
    unfold accessCode at h
    revert h
    repeat' split
    all_goals rintro ⟨⟩ <;> exact .stay hs rfl rfl rfl
  | moveFind _ _ _ | closeFind _ | sendFind _ => exact lockMoves_find hs h rfl rfl rfl rfl
  | moveLock _ _ _ _ | disconnectLock _ _ | onRecvLock _ _ | updateLock =>
    cases e with
    | go => exact lockMoves_acquire h rfl rfl rfl rfl
    | _ => cases h
  | moveUnlock _ | onRecvUnlock _ _ | disconnectUnlock | updateUnlock =>
    cases e with
    | go => exact lockMoves_release hs (Option.some.inj h) rfl rfl rfl rfl
    | _ => cases h
  | createLock g =>
    cases e with
    | go =>
      simp only [access] at h
      split at h
      · cases h
      · rename_i hfree
        obtain ⟨rfl, rfl, -⟩ : _ ∧ [Frame.createEmplace g] = fs ∧ Note.none = n := by simpa using h
        obtain ⟨hwriter, hreaders⟩ := not_or.1 hfree
        refine ⟨?_, ?_, fun _ => rfl⟩
        · have := not_not.1 hreaders
          simp [Frame.locks, this]
        · simp [Frame.writes, Bool.eq_false_of_not_eq_true hwriter]
    | _ => cases h
  | createUnlock =>
    cases e with
    | go =>
      obtain ⟨rfl, rfl, -⟩ : _ ∧ [] = fs ∧ Note.none = n := by simpa [access] using h
      have hwrites := hs.writes
      have hwriter : s.groupLock.writer = true := by
        cases hb : s.groupLock.writer with
        | true => rfl
        | false => simp [Frame.writes, hb] at hwrites
      have hreaders := hs.exclusive hwriter
      refine ⟨by simp [Frame.locks, hreaders], by simp [Frame.writes, hwriter], fun hfree => ?_⟩
      cases hfree
    | _ => cases h
  | enqueue g job update =>
    cases e with
    | go => exact lockMoves_group hs h rfl rfl
    | _ => cases h
  | update g =>
    cases e with
    | go => exact lockMoves_group hs h rfl rfl
    | _ => cases h
  | group g pc =>
    cases e with
    | go | due b => exact lockMoves_group hs h rfl rfl
    | _ => cases h
  | recvFind g id pc => exact lockMoves_recvFind hs h
  | _ =>
    cases e <;> first | cases h; done | skip
    all_goals
      simp only [access] at h
      revert h
      repeat' split
      all_goals rintro ⟨⟩ <;> exact .stay hs rfl rfl rfl

/-- **The lock is held by the calls that have acquired it**, in every
interleaving. -/
theorem locked_of_runs {ok : World → ℕ × Event → World → Prop} {k : ℕ} {w : World}
    (h : Runs step ok (World.initial k) w) : Locked w := by
  refine h.invariant (I := Locked) ?_ fun {v u i} hv hstep _ => ?_
  · have hzero (φ : Frame → ℕ) (hφ : φ (.code .outside) = 0) :
        (World.initial k).total (Thread.sum φ) = 0 := by
      refine Pool.total_eq_zero fun q hq => ?_
      obtain rfl := List.eq_of_mem_replicate hq
      simp [Thread.sum, hφ]
    exact ⟨hzero _ rfl, hzero _ rfl, nofun⟩
  · obtain ⟨q, q', f, rest, fs, n, hq, hstack, haccess, hstack', ht⟩ := step_frames hstep
    have hmem := List.mem_of_getElem? hq
    have hf : f ∈ q.stack := hstack ▸ List.mem_cons_self
    have hlocks := total_sum_step Frame.locks hq hstack hstack' ht
    have hwrites := total_sum_step Frame.writes hq hstack hstack' ht
    have hholds : HoldsLock v.shared f :=
      ⟨hv.readers ▸ le_total_sum Frame.locks hmem hf, hv.writer ▸ le_total_sum Frame.writes hmem hf,
        hv.exclusive⟩
    obtain ⟨hreaders, hwriter, hexclusive⟩ := lockMoves_of_access hholds haccess
    have hr := hv.readers
    have hw := hv.writer
    exact ⟨by omega, by omega, hexclusive⟩

/-! ## The groups -/

/-- What holds of the ids in `_groups` and of the groups of the sessions. -/
structure Registered (s : GroupManager) : Prop where
  sessions : ∀ id, s.Known (s.groupId id)
  ids : ∀ g, (s.groups g).isSome = true → g ≠ BaseGroupID ∧ g ≤ s.lastId

/-- What an access changes of the groups. -/
structure Grows (s : GroupManager) (f : Frame) (s' : GroupManager) : Prop where
  kept : ∀ g, (s.groups g).isSome = true → (s'.groups g).isSome = true
  /-- Only `emplace` puts a group into the map. -/
  put : ∀ g, s.groups g = none → f ≠ .createEmplace g → s'.groups g = none
  lastId : s.lastId ≤ s'.lastId
  groupId : ∀ id, s'.groupId id = s.groupId id ∨
    ∃ dst update, f = .moveSetGroup id dst update ∧ s'.groupId id = dst

theorem Grows.refl (s : GroupManager) (f : Frame) : Grows s f s :=
  ⟨fun _ => id, fun _ hnone _ => hnone, le_rfl, fun _ => .inl rfl⟩

theorem Grows.known (h : Grows s f s') {g : GroupID} (hg : s.Known g) : s'.Known g :=
  hg.imp_right (h.kept g)

/-- What another call relies on stays so. -/
theorem Frame.Relies.mono (h : f'.Relies s) (hgrows : Grows s f s')
    (hdraws : ∀ g, f'.draws = some g → f ≠ .createEmplace g)
    (hrereads : ∀ id, f'.rereads = some id → ∀ update, f ≠ .moveSetGroup id BaseGroupID update) :
    f'.Relies s' := by
  cases f' with
  | moveFind _ _ _ | moveSrc _ _ _ | moveSetGroup _ _ _ | moveEnter _ _ _ | disconnectLock _ _
  | disconnectLeave _ _ => exact hgrows.known h
  | moveLock _ _ _ _ | moveLeave _ _ _ _ => exact ⟨hgrows.known h.1, hgrows.known h.2⟩
  | onRecvLock _ g | onRecvUnlock _ g | enqueue g _ _ | update g | group g _ | recvFind g _ _
  | recvHandler g _ => exact hgrows.kept g h
  | createLock g | createEmplace g =>
    obtain ⟨hbase, hle, hnone⟩ := h
    exact ⟨hbase, hle.trans hgrows.lastId, hgrows.put g hnone (hdraws g rfl)⟩
  | executeGroup id =>
    intro hbase
    rcases hgrows.groupId id with heq | ⟨dst, update, rfl, heq⟩
    · exact h (heq ▸ hbase)
    · exact hrereads id rfl update (by rw [← hbase, heq])
  | _ => trivial

/-- Has the call drawn the id `g`? -/
def Frame.draw (g : GroupID) (f : Frame) : ℕ := if f.draws = some g then 1 else 0

theorem draw_of_none {g : GroupID} (h : f.draws = none) : f.draw g = 0 := if_neg (by simp [h])

/-- **What an access does to the groups**, whatever is below its call. -/
structure Registers (s : GroupManager) (f : Frame) (s' : GroupManager) (fs : List Frame) :
    Prop where
  registered : Registered s'
  grows : Grows s f s'
  relies : ∀ f' ∈ fs, f'.Relies s'
  /-- The ids that were drawn before, and the ones that are drawn now. -/
  draws : ∀ g, (fs.map (Frame.draw g)).sum ≤
    f.draw g + if s.lastId < g ∧ g ≤ s'.lastId then 1 else 0

/-- The groups stay as they are, and so do the ids that were drawn. -/
theorem Registers.stay (hs : Registered s) (hgroups : s'.groups = s.groups)
    (hlast : s'.lastId = s.lastId) (hids : s'.groupId = s.groupId) (hrelies : ∀ f' ∈ fs, f'.Relies s')
    (hdraws : ∀ f' ∈ fs, f'.draws = none) : Registers s f s' fs where
  registered := by
    refine ⟨fun id => ?_, fun g hg => ?_⟩
    · rw [Known, hgroups, hids]
      exact hs.sessions id
    · rw [hlast]
      exact hs.ids g (hgroups ▸ hg)
  grows := by
    refine ⟨fun g hg => ?_, fun g hg _ => ?_, hlast.ge, fun id => .inl (by rw [hids])⟩
    · rwa [hgroups]
    · rwa [hgroups]
  relies := hrelies
  draws g := by
    have hzero : (fs.map (Frame.draw g)).sum = 0 := List.sum_eq_zero fun k hk => by
      obtain ⟨f', hf', rfl⟩ := List.mem_map.1 hk
      exact draw_of_none (hdraws f' hf')
    omega

theorem registers_acquire (hs : Registered s) (h : acquireShared s f' = some (s', fs, n))
    (hf' : ∀ lock, f'.Relies { s with groupLock := lock }) (hdraws : f'.draws = none) :
    Registers s f s' fs := by
  unfold acquireShared at h
  split at h
  · cases h
  · obtain ⟨rfl, rfl, -⟩ : _ ∧ [f'] = fs ∧ Note.acquired = n := by simpa using h
    exact .stay hs rfl rfl rfl (by simpa using hf' _) (by simpa using hdraws)

theorem registers_release (hs : Registered s) (h : releaseShared s fs = (s', fs', n))
    (hfs : ∀ lock, ∀ f' ∈ fs, f'.Relies { s with groupLock := lock })
    (hdraws : ∀ f' ∈ fs, f'.draws = none) : Registers s f s' fs' := by
  obtain ⟨rfl, rfl, -⟩ : _ ∧ fs = fs' ∧ Note.released = n := by simpa [releaseShared] using h
  exact .stay hs rfl rfl rfl (hfs _) hdraws

theorem registers_find {id : SessionID} (hs : Registered s)
    (h : find s id f' e = some (s', fs, n)) (hf' : f'.Relies s) (hdraws : f'.draws = none) :
    Registers s f s' fs := by
  unfold find at h
  split at h
  · obtain ⟨rfl, rfl, -⟩ : _ ∧ [f'] = fs ∧ Note.none = n := by simpa using h
    exact .stay hs rfl rfl rfl (by simpa using hf') (by simpa using hdraws)
  · obtain ⟨rfl, rfl, -⟩ : _ ∧ [Frame.release id] = fs ∧ Note.none = n := by simpa using h
    exact .stay hs rfl rfl rfl (by simp [Frame.Relies]) (by simp [Frame.draws])
  · obtain ⟨rfl, rfl, -⟩ : _ ∧ [] = fs ∧ Note.none = n := by simpa using h
    exact .stay hs rfl rfl rfl nofun nofun
  · cases h

section Access

variable {g : GroupID} {pc pc' : Group.Pc GroupJob}

theorem relies_groupFrames (h : (s.groups g).isSome = true) :
    ∀ f' ∈ groupFrames g pc pc', f'.Relies s := by
  unfold groupFrames jobFrames
  repeat' split
  all_goals simp [Frame.Relies, h]

theorem draws_groupFrames : ∀ f' ∈ groupFrames g pc pc', f'.draws = none := by
  unfold groupFrames jobFrames
  repeat' split
  all_goals simp [Frame.draws]

/-- An access of a group leaves which groups there are. -/
theorem registers_group {e' : Group.Event GroupJob} (hs : Registered s)
    (h : accessGroup s g pc e' = some (s', fs, n)) : Registers s f s' fs := by
  unfold accessGroup at h
  obtain ⟨jobs, hjobs, hrest⟩ := Option.bind_eq_some_iff.1 h
  obtain ⟨⟨jobs', pc', c⟩, -, heq⟩ := Option.map_eq_some_iff.1 hrest
  obtain ⟨rfl, rfl, -⟩ : _ ∧ groupFrames g pc pc' = fs ∧ groupNote g jobs pc = n := by
    simpa only [Prod.mk.injEq] using heq
  have hsome (g' : GroupID) :
      (Function.update s.groups g (some jobs') g').isSome = (s.groups g').isSome := by
    by_cases heq : g' = g
    · subst heq
      rw [Function.update_self, hjobs]
      rfl
    · rw [Function.update_of_ne heq]
  refine ⟨⟨fun id => ?_, fun g' hg' => ?_⟩, ⟨fun g' hg' => ?_, fun g' hg' _ => ?_, le_rfl,
    fun id => .inl rfl⟩, ?_, fun g' => ?_⟩
  · refine (hs.sessions id).imp_right fun hid => ?_
    rwa [hsome]
  · exact hs.ids g' (by rwa [hsome] at hg')
  · rwa [hsome]
  · have := hsome g'
    rw [hg'] at this
    exact Option.not_isSome_iff_eq_none.1 (by rw [this]; exact Bool.false_ne_true)
  · exact relies_groupFrames (by rw [hsome, hjobs]; rfl)
  · have hzero : ((groupFrames g pc pc').map (Frame.draw g')).sum = 0 :=
      List.sum_eq_zero fun k hk => by
        obtain ⟨f', hf', rfl⟩ := List.mem_map.1 hk
        exact draw_of_none (draws_groupFrames f' hf')
    omega

end Access

theorem registers_recvFind {g : GroupID} {id : SessionID} {pc : Group.Pc GroupJob}
    (hs : Registered s) (hf : (Frame.recvFind g id pc).Relies s)
    (h : access s (.recvFind g id pc) e = some (s', fs, n)) :
    Registers s (.recvFind g id pc) s' fs := by
  cases e with
  | found =>
    simp only [access, Option.some.injEq, Prod.mk.injEq] at h
    obtain ⟨rfl, rfl, -⟩ := h
    refine .stay hs rfl rfl rfl ?_ (by simp [Frame.draws])
    intro f' hf'
    simp only [List.mem_cons, List.not_mem_nil, or_false] at hf'
    rcases hf' with rfl | rfl
    · exact hf
    · exact hf
  | missing =>
    obtain ⟨⟨s₁, fs₁, n₁⟩, hgone, heq⟩ := Option.map_eq_some_iff.1 h
    obtain ⟨rfl, rfl, -⟩ : _ ∧ .release id :: fs₁ = fs ∧ n₁ = n := by
      simpa only [Prod.mk.injEq] using heq
    obtain ⟨hregistered, hgrows, hrelies, hdraws⟩ := registers_group (f := .recvFind g id pc) hs hgone
    exact ⟨hregistered, hgrows, List.forall_mem_cons.2 ⟨trivial, hrelies⟩, by
      simpa [Frame.draw, Frame.draws] using hdraws⟩
  | outOfRange => exact registers_group hs h
  | _ => cases h

/-- `CreateGroup` draws an id that no group has. -/
theorem registers_createGroup {c : Code} (hs : Registered s)
    (h : accessCode s c .createGroup = some (s', fs, n)) : Registers s (.code c) s' fs := by
  obtain ⟨rfl, rfl, -⟩ : _ ∧ [.code .onCreate, .createLock (s.lastId + 1), .code c] = fs ∧
      Note.none = n := by simpa [accessCode] using h
  have hnone : s.groups (s.lastId + 1) = none := by
    by_contra hsome
    obtain ⟨-, hle⟩ := hs.ids (s.lastId + 1) (Option.isSome_iff_ne_none.2 hsome)
    exact Nat.not_succ_le_self s.lastId hle
  refine ⟨⟨hs.sessions, fun g hg => ?_⟩, ⟨fun _ => id, fun _ hg _ => hg, Nat.le_succ _,
    fun id => .inl rfl⟩, ?_, fun g => ?_⟩
  · obtain ⟨hbase, hle⟩ := hs.ids g hg
    exact ⟨hbase, Nat.le_succ_of_le hle⟩
  · intro f' hf'
    simp only [List.mem_cons, List.not_mem_nil, or_false] at hf'
    rcases hf' with rfl | rfl | rfl
    · trivial
    · exact ⟨Nat.succ_ne_zero _, le_rfl, hnone⟩
    · trivial
  · change 0 + (Frame.draw g (.createLock (s.lastId + 1)) + (0 + 0)) ≤
      0 + if s.lastId < g ∧ g ≤ s.lastId + 1 then 1 else 0
    by_cases hg : g = s.lastId + 1
    · subst hg
      have hdraw : Frame.draw (s.lastId + 1) (.createLock (s.lastId + 1)) = 1 := if_pos rfl
      rw [hdraw, if_pos ⟨Nat.lt_succ_self _, le_rfl⟩]
    · have hdraw : Frame.draw g (.createLock (s.lastId + 1)) = 0 :=
        if_neg fun heq => hg (Option.some.inj heq).symm
      rw [hdraw]
      exact Nat.zero_le _

theorem registers_code {c : Code} (hs : Registered s) (he : e.Names s)
    (h : accessCode s c e = some (s', fs, n)) : Registers s (.code c) s' fs := by
  cases e with
  | createGroup => exact registers_createGroup hs h
  | moveSession id dst update =>
    obtain ⟨rfl, rfl, -⟩ : _ ∧ [.moveFind id dst update, .code c] = fs ∧ Note.none = n := by
      simpa [accessCode] using h
    refine .stay hs rfl rfl rfl ?_ (by simp [Frame.draws])
    intro f' hf'
    simp only [List.mem_cons, List.not_mem_nil, or_false] at hf'
    rcases hf' with rfl | rfl
    · exact he
    · trivial
  | run g =>
    simp only [accessCode] at h
    split at h
    · obtain ⟨rfl, rfl, -⟩ : _ ∧ [.update g, .code c] = fs ∧ Note.none = n := by simpa using h
      refine .stay hs rfl rfl rfl ?_ (by simp [Frame.draws])
      intro f' hf'
      simp only [List.mem_cons, List.not_mem_nil, or_false] at hf'
      rcases hf' with rfl | rfl
      · exact he
      · trivial
    · cases h
  | _ =>
    simp only [accessCode] at h
    revert h
    repeat' split
    all_goals
      rintro ⟨⟩ <;>
        exact .stay hs rfl rfl rfl (by simp [Frame.Relies]) (by simp [Frame.draws])

/-- `emplace` puts the group under the id that was drawn for it. -/
theorem registers_emplace {g : GroupID} (hs : Registered s) (hf : (Frame.createEmplace g).Relies s)
    (h : access s (.createEmplace g) .go = some (s', fs, n)) :
    Registers s (.createEmplace g) s' fs := by
  obtain ⟨hbase, hle, hnone⟩ := hf
  obtain ⟨rfl, rfl, -⟩ : _ ∧ [.createUnlock] = fs ∧ Note.none = n := by simpa [access] using h
  have hkept {g' : GroupID} (hg' : (s.groups g').isSome = true) :
      (Function.update s.groups g (some (Group.World.initial 0).shared) g').isSome = true := by
    by_cases heq : g' = g
    · rw [heq, Function.update_self]
      rfl
    · rwa [Function.update_of_ne heq]
  refine ⟨⟨fun id => (hs.sessions id).imp_right hkept, fun g' hg' => ?_⟩,
    ⟨fun _ => hkept, fun g' hg' hne => ?_, le_rfl, fun id => .inl rfl⟩, by simp [Frame.Relies],
    fun g' => by simp [Frame.draw, Frame.draws]⟩
  · by_cases heq : g' = g
    · subst heq
      exact ⟨hbase, hle⟩
    · have hsame : Function.update s.groups g (some (Group.World.initial 0).shared) g' =
          s.groups g' := Function.update_of_ne heq _ _
      exact hs.ids g' (hsame ▸ hg')
  · have heq : g' ≠ g := fun heq => hne (heq ▸ rfl)
    exact (Function.update_of_ne heq _ _).trans hg'

/-- `SetGroupID` gives the session a group that the call named. -/
theorem registers_setGroup {id : SessionID} {dst : GroupID} {update : Bool} (hs : Registered s)
    (hf : s.Known dst) (h : access s (.moveSetGroup id dst update) .go = some (s', fs, n)) :
    Registers s (.moveSetGroup id dst update) s' fs := by
  obtain ⟨rfl, rfl, -⟩ : _ ∧ [.moveEnter id dst update] = fs ∧ Note.none = n := by
    simpa [access] using h
  have hgroup (i : SessionID) : Function.update s.groupId id dst i = s.groupId i ∨
      i = id ∧ Function.update s.groupId id dst i = dst := by
    by_cases heq : i = id
    · subst heq
      exact .inr ⟨rfl, Function.update_self ..⟩
    · exact .inl (Function.update_of_ne heq ..)
  refine ⟨⟨fun i => ?_, hs.ids⟩, ⟨fun _ hg => hg, fun _ hg _ => hg, le_rfl, fun i => ?_⟩, ?_,
    fun g => by simp [Frame.draw, Frame.draws]⟩
  · change s.Known (Function.update s.groupId id dst i)
    rcases hgroup i with heq | ⟨-, heq⟩
    · rw [heq]
      exact hs.sessions i
    · rw [heq]
      exact hf
  · exact (hgroup i).imp_right fun hmoved => ⟨dst, update, by rw [hmoved.1], hmoved.2⟩
  · intro f' hf'
    obtain rfl := List.mem_singleton.1 hf'
    exact hf

theorem parts_of_some {r r' : GroupManager × List Frame × Note} (h : some r = some r') :
    r.1 = r'.1 ∧ r.2.1 = r'.2.1 ∧ r.2.2 = r'.2.2 := by
  obtain rfl := Option.some.inj h
  exact ⟨rfl, rfl, rfl⟩

/-- **What an access does to the groups**, whatever the call. -/
theorem registers_of_access (hs : Registered s) (hf : f.Relies s) (he : e.Names s)
    (h : access s f e = some (s', fs, n)) : Registers s f s' fs := by
  cases f with
  | code c => exact registers_code hs he h
  | moveFind _ _ _ => exact registers_find hs h hf rfl
  | closeFind _ | sendFind _ => exact registers_find hs h trivial rfl
  | moveLock _ _ _ _ | disconnectLock _ _ | onRecvLock _ _ | updateLock =>
    cases e with
    | go => exact registers_acquire hs h (fun _ => hf) rfl
    | _ => cases h
  | moveUnlock _ | disconnectUnlock | updateUnlock =>
    cases e with
    | go =>
      exact registers_release hs (Option.some.inj h) (by simp [Frame.Relies]) (by simp [Frame.draws])
    | _ => cases h
  | onRecvUnlock id g =>
    cases e with
    | go =>
      refine registers_release hs (Option.some.inj h) (fun _ f' hf' => ?_) (by simp [Frame.draws])
      obtain rfl := List.mem_singleton.1 hf'
      exact hf
    | _ => cases h
  | moveSetGroup id dst update =>
    cases e with
    | go => exact registers_setGroup hs hf h
    | _ => cases h
  | createEmplace g =>
    cases e with
    | go => exact registers_emplace hs hf h
    | _ => cases h
  | enqueue g job update | update g =>
    cases e with
    | go => exact registers_group hs h
    | _ => cases h
  | group g pc =>
    cases e with
    | go | due b => exact registers_group hs h
    | _ => cases h
  | recvFind g id pc => exact registers_recvFind hs hf h
  | moveSrc id dst update =>
    cases e with
    | go =>
      obtain ⟨rfl, rfl, -⟩ := parts_of_some h
      exact .stay hs rfl rfl rfl (by simpa [Frame.Relies] using ⟨hs.sessions id, hf⟩)
        (by simp [Frame.draws])
    | _ => cases h
  | moveLeave id src dst update =>
    cases e with
    | go =>
      obtain ⟨rfl, rfl, -⟩ := parts_of_some h
      refine .stay hs rfl rfl rfl ?_ ?_
      · split
        · simpa [Frame.Relies] using hf.2
        · rename_i hne
          simpa [Frame.Relies] using ⟨hf.1.isSome hne, hf.2⟩
      · split <;> simp [Frame.draws]
    | _ => cases h
  | moveEnter id dst update =>
    cases e with
    | go =>
      obtain ⟨rfl, rfl, -⟩ := parts_of_some h
      refine .stay hs rfl rfl rfl ?_ ?_
      · split
        · simp [Frame.Relies]
        · rename_i hne
          simpa [Frame.Relies] using Known.isSome hf hne
      · split <;> simp [Frame.draws]
    | _ => cases h
  | disconnectSrc id =>
    cases e with
    | go =>
      obtain ⟨rfl, rfl, -⟩ := parts_of_some h
      exact .stay hs rfl rfl rfl (by simpa [Frame.Relies] using hs.sessions id)
        (by simp [Frame.draws])
    | _ => cases h
  | disconnectLeave id src =>
    cases e with
    | go =>
      obtain ⟨rfl, rfl, -⟩ := parts_of_some h
      refine .stay hs rfl rfl rfl ?_ ?_
      · split
        · simp [Frame.Relies]
        · rename_i hne
          simpa [Frame.Relies] using Known.isSome hf hne
      · split <;> simp [Frame.draws]
    | _ => cases h
  | execute id =>
    cases e with
    | handled b =>
      obtain ⟨rfl, rfl, -⟩ := parts_of_some h
      refine .stay hs rfl rfl rfl ?_ ?_
      · split
        · rename_i hgo
          simpa [Frame.Relies] using hgo.1
        · simp [Frame.Relies]
      · split <;> simp [Frame.draws]
    | _ => cases h
  | executeGroup id =>
    cases e with
    | go =>
      obtain ⟨rfl, rfl, -⟩ := parts_of_some h
      exact .stay hs rfl rfl rfl (by simpa [Frame.Relies] using (hs.sessions id).isSome hf)
        (by simp [Frame.draws])
    | _ => cases h
  | createLock g =>
    cases e with
    | go =>
      simp only [access] at h
      split at h
      · cases h
      · obtain ⟨rfl, rfl, -⟩ := parts_of_some h
        refine ⟨⟨hs.sessions, hs.ids⟩, ⟨fun _ hg => hg, fun _ hg _ => hg, le_rfl,
          fun id => .inl rfl⟩, ?_, fun g' => ?_⟩
        · intro f' hf'
          obtain rfl := List.mem_singleton.1 hf'
          exact hf
        · change Frame.draw g' (.createEmplace g) + 0 ≤ Frame.draw g' (.createLock g) + _
          have hsame : Frame.draw g' (.createEmplace g) = Frame.draw g' (.createLock g) := rfl
          omega
    | _ => cases h
  | recvHandler g id =>
    cases e with
    | packet =>
      simp only [access] at h
      split at h
      · obtain ⟨rfl, rfl, -⟩ := parts_of_some h
        refine .stay hs rfl rfl rfl ?_ (by simp [Frame.draws])
        intro f' hf'
        simp only [List.mem_cons, List.not_mem_nil, or_false] at hf'
        rcases hf' with rfl | rfl
        · trivial
        · exact hf
      · cases h
    | go =>
      obtain ⟨rfl, rfl, -⟩ := parts_of_some h
      exact .stay hs rfl rfl rfl (by simp [Frame.Relies]) (by simp [Frame.draws])
    | _ => cases h
  | release _ | recvLoop _ | recvNotIncrease _ | createUnlock | processBuffer _ =>
    -- calls that name no group
    cases e <;> first | cases h; done | skip
    all_goals
      simp only [access] at h
      revert h
      repeat' split
      all_goals
        rintro ⟨⟩ <;>
          exact .stay hs rfl rfl rfl (by simp [Frame.Relies]) (by simp [Frame.draws])

/-! ## Runs -/

section Run

variable {w w' : World} {i : ℕ × Event} {k : ℕ}

/-- What the calls of all threads rely on holds, and no two of them have drawn
one id. -/
structure Named (w : World) : Prop where
  registered : Registered w.shared
  relies : ∀ q ∈ w.threads, ∀ f ∈ q.stack, f.Relies w.shared
  draws : ∀ g, w.total (Thread.sum (Frame.draw g)) ≤ 1

/-- The id that a call puts into the map was drawn by no other call. -/
theorem Named.draws_ne (h : Named w) {q r : Thread} {j : ℕ} {g : GroupID} {rest : List Frame}
    (hq : w.threads[i.1]? = some q) (hstack : q.stack = .createEmplace g :: rest)
    (hr : w.threads[j]? = some r) (hf : f ∈ r.stack) (hrest : j = i.1 → f ∈ rest) :
    f.draws ≠ some g := by
  intro hdraws
  have htotal := h.draws g
  have hone : f.draw g = 1 := if_pos hdraws
  have hq₁ : Thread.sum (Frame.draw g) q = 1 + (rest.map (Frame.draw g)).sum := by
    rw [Thread.sum, hstack, List.map_cons, List.sum_cons]
    congr 1
    exact if_pos rfl
  by_cases hj : j = i.1
  · have hle : f.draw g ≤ (rest.map (Frame.draw g)).sum :=
      List.single_le_sum (by simp) _ (List.mem_map_of_mem (hrest hj))
    have hthread := Pool.le_total (Thread.sum (Frame.draw g)) (List.mem_of_getElem? hq)
    omega
  · have hle : f.draw g ≤ Thread.sum (Frame.draw g) r :=
      List.single_le_sum (by simp) _ (List.mem_map_of_mem hf)
    have hthreads := Pool.add_le_sum_map (Thread.sum (Frame.draw g)) hj hr hq
    have htotal : (w.threads.map (Thread.sum (Frame.draw g))).sum ≤ 1 := htotal
    omega

/-- No call has drawn an id that is still to come. -/
theorem Named.total_draw_eq_zero (h : Named w) {g : GroupID} (hg : w.shared.lastId < g) :
    w.total (Thread.sum (Frame.draw g)) = 0 := by
  refine Pool.total_eq_zero fun q hq => List.sum_eq_zero fun k hk => ?_
  obtain ⟨f, hf, rfl⟩ := List.mem_map.1 hk
  have hrelies := h.relies q hq f hf
  refine if_neg fun hdraws => ?_
  cases f with
  | createLock g' | createEmplace g' =>
    obtain rfl := Option.some.inj hdraws
    exact absurd hrelies.2.1 (Nat.not_le.2 hg)
  | _ => cases hdraws

theorem Named.step (h : Named w) (hstep : step w i = some w') (hok : NamesGroups w i w') :
    Named w' := by
  obtain ⟨q, q', f, rest, fs, n, hq, hstack, haccess, hstack', ht⟩ := step_frames hstep
  have hmem := List.mem_of_getElem? hq
  have hf : f ∈ q.stack := hstack ▸ List.mem_cons_self
  obtain ⟨hregistered, hgrows, hrelies, hdraws⟩ :=
    registers_of_access h.registered (h.relies q hmem f hf) hok.1 haccess
  -- what the other calls rely on
  have hother {r : Thread} {j : ℕ} {f' : Frame} (hr : w.threads[j]? = some r) (hf' : f' ∈ r.stack)
      (hrest : j = i.1 → f' ∈ rest) : f'.Relies w'.shared := by
    have hmem' := List.mem_of_getElem? hr
    refine (h.relies r hmem' f' hf').mono hgrows (fun g hg heq => ?_) fun id hid update heq => ?_
    · subst heq
      exact h.draws_ne hq hstack hr hf' hrest hg
    · subst heq
      have hfrees : q.frees = some id := by
        unfold Thread.frees
        rw [hstack]
        rfl
      exact hok.2 q hq id hfrees r hmem' (hid ▸ List.mem_map_of_mem hf')
  refine ⟨hregistered, ?_, fun g => ?_⟩
  · refine Pool.forall_threads_of_others ht (fun j r hne hr f' hf' => ?_) fun f' hf' => ?_
    · exact hother hr hf' fun heq => absurd heq.symm hne
    · rw [hstack'] at hf'
      rcases List.mem_append.1 hf' with hnew | hold
      · exact hrelies f' hnew
      · exact hother hq (hstack ▸ List.mem_cons_of_mem f hold) fun _ => hold
  · have htotal := total_sum_step (Frame.draw g) hq hstack hstack' ht
    have hle := hdraws g
    have hone := h.draws g
    by_cases hnew : w.shared.lastId < g ∧ g ≤ w'.shared.lastId
    · rw [if_pos hnew] at hle
      have hzero := h.total_draw_eq_zero hnew.1
      omega
    · rw [if_neg hnew] at hle
      omega

theorem named_of_runs (h : Runs step NamesGroups (World.initial k) w) : Named w := by
  refine h.invariant (I := Named) ⟨⟨fun _ => .inl rfl, nofun⟩, fun q hq f hf => ?_, fun g => ?_⟩
    fun hv hstep hok => hv.step hstep hok
  · obtain rfl := List.eq_of_mem_replicate hq
    obtain rfl := List.mem_singleton.1 hf
    trivial
  · refine (Pool.total_eq_zero fun q hq => ?_).le.trans (Nat.zero_le 1)
    obtain rfl := List.eq_of_mem_replicate hq
    simp [Thread.sum, Frame.draw, Frame.draws]

/-- **Every lookup finds its group**, whatever the interleaving: `find` in
`MoveSession` and `SessionDisconnected`, `operator[]` in `OnRecv`, which then
puts nothing into the map. And `emplace` always has a new id. -/
theorem found_of_names (h : Runs step NamesGroups (World.initial k) w) : Found w := by
  have hnamed := named_of_runs h
  have htop {q : Thread} {f : Frame} {rest : List Frame} (hq : q ∈ w.threads)
      (hstack : q.stack = f :: rest) : f.Relies w.shared :=
    hnamed.relies q hq f (hstack ▸ List.mem_cons_self)
  refine ⟨?_, ?_, ?_, ?_, ?_⟩
  · intro q hq id src dst update rest hstack hne
    exact (htop hq hstack).1.isSome hne
  · intro q hq id dst update rest hstack hne
    exact Known.isSome (htop hq hstack) hne
  · intro q hq id src rest hstack hne
    exact Known.isSome (htop hq hstack) hne
  · intro q hq id g rest hstack
    exact htop hq hstack
  · intro q hq g rest hstack
    exact ⟨(htop hq hstack).1, (htop hq hstack).2.2⟩

/-- A weight that one call of a thread takes up is zero at all others. -/
theorem eq_zero_of_one {φ : Frame → ℕ} {q : Thread} {rest : List Frame}
    (htotal : w.total (Thread.sum φ) ≤ φ f) (hq : w.threads[i.1]? = some q)
    (hstack : q.stack = f :: rest) : (∀ f' ∈ rest, φ f' = 0) ∧
      ∀ j r, j ≠ i.1 → w.threads[j]? = some r → ∀ f' ∈ r.stack, φ f' = 0 := by
  have hsum : Thread.sum φ q = φ f + (rest.map φ).sum := by
    rw [Thread.sum, hstack, List.map_cons, List.sum_cons]
  have hle := Pool.le_total (Thread.sum φ) (List.mem_of_getElem? hq)
  refine ⟨fun f' hf' => ?_, fun j r hj hr f' hf' => ?_⟩
  · have hmem : φ f' ≤ (rest.map φ).sum := List.single_le_sum (by simp) _ (List.mem_map_of_mem hf')
    omega
  · have hmem : φ f' ≤ Thread.sum φ r := List.single_le_sum (by simp) _ (List.mem_map_of_mem hf')
    have hzero := Pool.eq_zero_of_other (htotal.trans (by omega)) hj.symm hq hr
    omega

/-- `CreateGroup`, a move of a session into the new group, and a receive of the
session up to the second read of its group. -/
def receiving : List Event :=
  .createGroup :: .go :: .go :: .go :: .go :: .moveSession ⟨1, 0⟩ 1 false :: .found ::
    List.replicate 10 .go ++ [.last false, .recv ⟨1, 0⟩, .handled false]

/-- The group that `OnRecv` has asked `_groups` for. -/
def Thread.asks (q : Thread) : Option GroupID :=
  match q.stack with
  | .onRecvUnlock _ g :: _ => some g
  | _ => none

/-- A receive comes to `OnRecv`. -/
theorem found_of_names_recv : ∃ w : World, Runs step NamesGroups (World.initial 1) w ∧
    w.threads.map Thread.asks = [some 1] ∧ Found w := by
  let es : List Event := receiving ++ [.go, .go]
  obtain ⟨w, hw, heq⟩ := Option.map_eq_some_iff.1
    (show (exec step (World.initial 1) (es.map (0, ·))).map
      (fun w => w.threads.map Thread.asks) = some [some 1] by rfl)
  have hruns : Runs step NamesGroups (World.initial 1) w := runs_of_exec hw (by decide +kernel)
  exact ⟨w, hruns, heq, found_of_names hruns⟩

/-- **A session that leaves its group between the two reads** makes `OnRecv` ask
for the base group, which is not in the map. -/
theorem onRecv_misses : ∃ es, ∃ w : World,
    exec step (World.initial 2) es = some w ∧ ¬ Found w := by
  let leaving : List Event := .moveSession ⟨1, 0⟩ 0 false :: .found :: List.replicate 8 .go
  let es : List (ℕ × Event) :=
    receiving.map (0, ·) ++ leaving.map (1, ·) ++ [(0, .go), (0, .go)]
  obtain ⟨w, hw, heq⟩ := Option.map_eq_some_iff.1
    (show (exec step (World.initial 2) es).map
      (fun w => (w.threads.map Thread.asks, w.shared.groups 0 |>.isSome)) =
        some ([some 0, none], false) by rfl)
  refine ⟨es, w, hw, fun hfound => ?_⟩
  obtain ⟨hasks, hnone⟩ := Prod.mk.inj heq
  obtain ⟨q, hq, hasks⟩ := List.mem_map.1 (hasks ▸ List.mem_cons_self : some 0 ∈ w.threads.map _)
  unfold Thread.asks at hasks
  split at hasks
  · rename_i id g rest hstack
    obtain rfl := Option.some.inj hasks
    rw [hfound.recv q hq id 0 rest hstack] at hnone
    cases hnone
  · cases hasks

/-- The group that `MoveSession` is about to look for as its destination. -/
def Thread.enters (q : Thread) : Option GroupID :=
  match q.stack with
  | .moveEnter _ dst _ :: _ => some dst
  | _ => none

/-- **A move into a group out of its own `OnCreate`** looks for a group that
`CreateGroup` has yet to put into the map. -/
theorem onCreate_misses : ∃ es, ∃ w : World,
    exec step (World.initial 1) es = some w ∧ ¬ Found w := by
  let es : List Event :=
    .createGroup :: .moveSession ⟨1, 0⟩ 1 false :: .found :: List.replicate 4 .go
  obtain ⟨w, hw, heq⟩ := Option.map_eq_some_iff.1
    (show (exec step (World.initial 1) (es.map (0, ·))).map
      (fun w => (w.threads.map Thread.enters, w.shared.groups 1 |>.isSome)) =
        some ([some 1], false) by rfl)
  refine ⟨_, w, hw, fun hfound => ?_⟩
  obtain ⟨henters, hnone⟩ := Prod.mk.inj heq
  obtain ⟨q, hq, henters⟩ :=
    List.mem_map.1 (henters ▸ List.mem_cons_self : some 1 ∈ w.threads.map _)
  unfold Thread.enters at henters
  split at henters
  · rename_i id dst update rest hstack
    obtain rfl := Option.some.inj henters
    rw [hfound.enter q hq id 1 update rest hstack (by decide)] at hnone
    cases hnone
  · cases henters

/-- **`_groups` changes only under the exclusive lock.** A step after which the
map has other groups adds the one of a `CreateGroup`; no call of any thread
then holds the lock shared, and none but this one holds it exclusively. -/
theorem groups_change (h : Runs step NamesGroups (World.initial k) w) (hstep : step w i = some w')
    (hok : NamesGroups w i w') {g : GroupID}
    (hchange : (w'.shared.groups g).isSome ≠ (w.shared.groups g).isSome) :
    w.shared.groups g = none ∧ (w'.shared.groups g).isSome = true ∧
      ∃ q rest, w.threads[i.1]? = some q ∧ q.stack = .createEmplace g :: rest ∧
        (∀ f ∈ rest, f.locks = 0 ∧ f.writes = 0) ∧
        ∀ j r, j ≠ i.1 → w.threads[j]? = some r → ∀ f ∈ r.stack, f.locks = 0 ∧ f.writes = 0 := by
  have hnamed := named_of_runs h
  have hlocked := locked_of_runs h
  obtain ⟨q, q', f, rest, fs, n, hq, hstack, haccess, -, -⟩ := step_frames hstep
  have hmem := List.mem_of_getElem? hq
  have hf : f ∈ q.stack := hstack ▸ List.mem_cons_self
  have hgrows := (registers_of_access hnamed.registered (hnamed.relies q hmem f hf) hok.1
    haccess).grows
  have hnone : w.shared.groups g = none := by
    by_contra hsome
    have hsome := Option.isSome_iff_ne_none.2 hsome
    exact hchange ((hgrows.kept g hsome).trans hsome.symm)
  have hsome : (w'.shared.groups g).isSome = true := by
    rw [hnone] at hchange
    exact Option.isSome_iff_ne_none.2 (by simpa using hchange)
  obtain rfl : f = .createEmplace g := by
    by_contra hne
    rw [hgrows.put g hnone hne] at hsome
    cases hsome
  -- the call has the lock, so nobody else has
  have hwrites := le_total_sum Frame.writes hmem hf
  have hone : (Frame.createEmplace g).writes = 1 := rfl
  have hzero : (Frame.createEmplace g).locks = 0 := rfl
  have hwriter : w.shared.groupLock.writer = true := by
    by_contra hno
    rw [hlocked.writer, Bool.eq_false_of_not_eq_true hno, hone] at hwrites
    exact absurd hwrites (by decide)
  have htotal := hlocked.writer
  rw [hwriter] at htotal
  have hreaders := hlocked.readers
  rw [hlocked.exclusive hwriter] at hreaders
  obtain ⟨hrest, hothers⟩ := eq_zero_of_one (φ := Frame.writes) htotal.le hq hstack
  obtain ⟨hrest', hothers'⟩ := eq_zero_of_one (φ := Frame.locks) hreaders.le hq hstack
  exact ⟨hnone, hsome, q, rest, hq, hstack, fun f hf => ⟨hrest' f hf, hrest f hf⟩,
    fun j r hj hr f hf => ⟨hothers' j r hj hr f hf, hothers j r hj hr f hf⟩⟩

/-- The `emplace` of a first group. -/
theorem groups_change_first : ∃ w w' : World, Runs step NamesGroups (World.initial 1) w ∧
    step w (0, .go) = some w' ∧
      w.shared.groups 1 = none ∧ (w'.shared.groups 1).isSome = true ∧
      ∃ q rest, w.threads[0]? = some q ∧ q.stack = .createEmplace 1 :: rest ∧
        (∀ f ∈ rest, f.locks = 0 ∧ f.writes = 0) ∧
        ∀ j r, j ≠ 0 → w.threads[j]? = some r → ∀ f ∈ r.stack, f.locks = 0 ∧ f.writes = 0 := by
  let es : List Event := [.createGroup, .go, .go]
  obtain ⟨w, hw, heq⟩ := Option.map_eq_some_iff.1
    (show (exec step (World.initial 1) (es.map (0, ·))).map
      (fun w => ((w.shared.groups 1).isSome, (step w (0, .go)).map fun w' =>
        (w'.shared.groups 1).isSome, w.threads.map Thread.frees)) =
          some (false, some true, [none]) by rfl)
  have hruns : Runs step NamesGroups (World.initial 1) w := runs_of_exec hw (by decide +kernel)
  simp only [Prod.mk.injEq] at heq
  obtain ⟨hnone, hsome, hfrees⟩ := heq
  obtain ⟨w', hstep, hsome⟩ := Option.map_eq_some_iff.1 hsome
  have hok : NamesGroups w (0, .go) w' := by
    refine ⟨trivial, fun q hq id hid => ?_⟩
    have hmem := List.mem_map_of_mem (f := Thread.frees) (List.mem_of_getElem? hq)
    rw [hfrees, List.mem_singleton] at hmem
    rw [hmem] at hid
    cases hid
  exact ⟨w, w', hruns, hstep, groups_change hruns hstep hok (by rw [hsome, hnone]; decide)⟩

end Run

end GroupManager

end NetLib
