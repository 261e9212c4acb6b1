import NetLib.Group.Model
/-!
# The accesses of a slot in groups, seen from the slot

What every action is to the slot below. The `PostRelease` owed for a session
in a group travels: from the thread that released it to a `Leave` job, and
on to the thread that handles the job. To the slot it is a thread that comes
to `PostRelease` all the while.
-/

namespace NetLib

namespace Grouped

variable {Buf : Type} {index : ℕ} {s s' : Grouped Buf} {w w' : World Buf} {pc pc' : Pc Buf}

/-! ## What a step can do -/

/-- Every action of a thread, with what it saw. -/
inductive Action (index : ℕ) (s : Grouped Buf) : Pc Buf → Event Buf → Grouped Buf → Pc Buf → Prop
  | slot {home : Option GroupID} {q q' : Slot.Pc Buf} {e : Slot.Event Buf} {r : Slot Buf}
    (hnext : Slot.next index s.slot q e = some (r, q')) (hbusy : home = none ∨ q ≠ .idle) :
    Action index s (.slot home q) (.slot e) { s.observe q with slot := r } (enter home q q')
  | running {g : GroupID} (hrun : s.isRun g = true) :
    Action index s (.slot none .idle) (.update g) s (.slot none .idle)
  | update {g : GroupID} (hg : g ≠ BaseGroupID) (hrun : s.isRun g = false) :
    Action index s (.slot none .idle) (.update g)
      { s with isRun := Function.update s.isRun g true } (.slot (some g) .idle)
  | noJob {g : GroupID} (e : Event Buf) (hnone : s.jobs.find? (·.1 = g) = none) :
    Action index s (.slot (some g) .idle) e s (.endUpdate g)
  | dequeue {g : GroupID} {job : GroupJob} (e : Event Buf)
    (hfind : s.jobs.find? (·.1 = g) = some (g, job)) :
    Action index s (.slot (some g) .idle) e { s with jobs := s.jobs.eraseP (·.1 = g) }
      (handle g job)
  | moveSession (id : SessionID) (dst : GroupID) :
    Action index s (.slot none (.holding id)) (.moveSession dst) s (.moveSrc id dst)
  | releaseBase (home : Option GroupID) (k : Slot.After) (e : Event Buf)
    (hg : s.groupId = BaseGroupID) :
    Action index s (.releaseGroup home k) e s (.slot home (.postRelease k))
  | releaseOther (home : Option GroupID) (k : Slot.After) (e : Event Buf)
    (hg : s.groupId ≠ BaseGroupID) :
    Action index s (.releaseGroup home k) e s (.disconnectSrc home k)
  | disconnectNone (home : Option GroupID) (k : Slot.After) (e : Event Buf)
    (hg : s.groupId = BaseGroupID) : Action index s (.disconnectSrc home k) e s (.slot home k.pc)
  | disconnectSrc (home : Option GroupID) (k : Slot.After) (e : Event Buf)
    (hg : s.groupId ≠ BaseGroupID) :
    Action index s (.disconnectSrc home k) e s (.disconnectLeave home s.groupId k)
  | disconnectLeave (home : Option GroupID) (src : GroupID) (k : Slot.After) (e : Event Buf) :
    Action index s (.disconnectLeave home src k) e (s.enqueue src (.Leave s.slot.sessionId true))
      (.slot home k.pc)
  | moveFromBase (id : SessionID) (dst : GroupID) (e : Event Buf) (hg : s.groupId = BaseGroupID) :
    Action index s (.moveSrc id dst) e s (.moveSetGroup id dst)
  | moveFrom (id : SessionID) (dst : GroupID) (e : Event Buf) (hg : s.groupId ≠ BaseGroupID) :
    Action index s (.moveSrc id dst) e s (.moveLeave id s.groupId dst)
  | moveLeave (id : SessionID) (src dst : GroupID) (e : Event Buf) :
    Action index s (.moveLeave id src dst) e (s.enqueue src (.Leave s.slot.sessionId false))
      (.moveSetGroup id dst)
  | moveToBase (id : SessionID) (e : Event Buf) :
    Action index s (.moveSetGroup id BaseGroupID) e { s with groupId := BaseGroupID }
      (.slot none (.release (some id) .done))
  | moveTo (id : SessionID) {dst : GroupID} (e : Event Buf) (hg : dst ≠ BaseGroupID) :
    Action index s (.moveSetGroup id dst) e { s with groupId := dst } (.moveEnter id dst)
  | moveEnter (id : SessionID) (dst : GroupID) (e : Event Buf) :
    Action index s (.moveEnter id dst) e (s.enqueue dst (.Enter s.slot.sessionId))
      (.slot none (.release (some id) .done))
  | inBase (e : Event Buf) (hg : s.groupId = BaseGroupID) :
    Action index s .execGroup e s (.slot none .recvExecute)
  | inGroup (e : Event Buf) (hg : s.groupId ≠ BaseGroupID) :
    Action index s .execGroup e s .execHandled
  | handled (e : Event Buf) (hh : s.isHandled = true) :
    Action index s .execHandled e s (.slot none .recvExecute)
  | unhandled (e : Event Buf) (hh : s.isHandled = false) :
    Action index s .execHandled e s .setHandled
  | setHandled (e : Event Buf) : Action index s .setHandled e { s with isHandled := true } .onRecv
  | onRecv (e : Event Buf) (hg : s.groupId ≠ BaseGroupID) :
    Action index s .onRecv e s (.enqueueRecv s.slot.sessionId s.groupId)
  | enqueueRecv (id : SessionID) (g : GroupID) (e : Event Buf) :
    Action index s (.enqueueRecv id g) e (s.enqueue g (.Recv id)) (.slot none .recvRef)
  | resetAccept (id : SessionID) (e : Event Buf) :
    Action index s (.resetGroup (.accept id)) e { s with groupId := BaseGroupID }
      (.slot none (.resetSending (.accept id)))
  | resetRelease (e : Event Buf) : Action index s (.resetGroup .release) e
      { s with groupId := BaseGroupID, resets := s.resets ++ [s.slot.sessionId] }
      (.slot none (.resetSending .release))
  | endUpdate (g : GroupID) (e : Event Buf) : Action index s (.endUpdate g) e
      { s with isRun := Function.update s.isRun g false } (.slot none .idle)
  | insert (g : GroupID) (id : SessionID) (e : Event Buf) : Action index s (.insert g id) e
      { s with sessions := Function.update s.sessions g (Insert.insert id (s.sessions g)) }
      (.onEnter g id)
  | onEnter (g : GroupID) (id : SessionID) (e : Event Buf) : Action index s (.onEnter g id) e
      { s with callbacks := s.callbacks ++ [.OnEnter g id] } (.slot (some g) .idle)
  | erase {g : GroupID} {id : SessionID} (last : Bool) (e : Event Buf) (hin : id ∈ s.sessions g) :
    Action index s (.erase g id last) e
      { s with sessions := Function.update s.sessions g ((s.sessions g).erase id) }
      (.onLeave g id last)
  | onLeave (g : GroupID) (id : SessionID) (last : Bool) (e : Event Buf) :
    Action index s (.onLeave g id last) e { s with callbacks := s.callbacks ++ [.OnLeave g id] }
      (.checkGroup g id last)
  | ownGroup {g : GroupID} (id : SessionID) (last : Bool) (e : Event Buf) (hg : s.groupId = g) :
    Action index s (.checkGroup g id last) e s (.checkId g id last)
  | otherGroup {g : GroupID} (id : SessionID) (last : Bool) (e : Event Buf) (hg : s.groupId ≠ g) :
    Action index s (.checkGroup g id last) e s (.slot (some g) .idle)
  | ownId (g : GroupID) {id : SessionID} (last : Bool) (e : Event Buf)
    (hid : s.slot.sessionId = id) : Action index s (.checkId g id last) e s (.checkRef g id last)
  | otherId (g : GroupID) {id : SessionID} (last : Bool) (e : Event Buf)
    (hid : s.slot.sessionId ≠ id) : Action index s (.checkId g id last) e s (.slot (some g) .idle)
  | checkRef (g : GroupID) (id : SessionID) (last : Bool) (e : Event Buf) :
    Action index s (.checkRef g id last) e s (.checkAssert g id last s.slot.refCount)
  | isReleased (g : GroupID) {id : SessionID} (last : Bool) {value : ℤ} (e : Event Buf)
    (hid : s.slot.sessionId = id) (hflag : RELEASE_FLAG ≤ value) :
    Action index s (.checkAssert g id last value) e s (.checkPost g id last)
  | notReleased (g : GroupID) {id : SessionID} (last : Bool) {value : ℤ} (e : Event Buf)
    (hid : s.slot.sessionId = id) (hopen : value < RELEASE_FLAG) :
    Action index s (.checkAssert g id last value) e s (.slot (some g) .idle)
  | checkPost (g : GroupID) (id : SessionID) (last : Bool) (e : Event Buf) :
    Action index s (.checkPost g id last) e
      { s with slot := { s.slot with
        releasePosted := s.slot.releasePosted + 1
        posted := s.slot.posted ++ [s.slot.sessionId] } } (.slot (some g) .idle)
  | clearHandled (g : GroupID) (id : SessionID) (e : Event Buf) :
    Action index s (.clearHandled g id) e { s with isHandled := false } (.recvLoop g id)
  | loop {g : GroupID} (id : SessionID) (e : Event Buf) (hg : s.groupId = g) :
    Action index s (.recvLoop g id) e s (.packet g id)
  | left {g : GroupID} (id : SessionID) (e : Event Buf) (hg : s.groupId ≠ g) :
    Action index s (.recvLoop g id) e s (.slot (some g) (.release (some id) .done))
  | packet (g : GroupID) (id : SessionID) : Action index s (.packet g id) (.found .packet)
      { s with callbacks := s.callbacks ++ [.OnRecv g id] } (.recvLoop g id)
  | short (g : GroupID) (id : SessionID) : Action index s (.packet g id) (.found .short) s
      (.slot (some g) (.release (some id) .done))
  | violation (g : GroupID) (id : SessionID) : Action index s (.packet g id) (.found .violation) s
      (.slot (some g) (.close id .done))

theorem nextSlot_action {home : Option GroupID} {q : Slot.Pc Buf} {e : Slot.Event Buf}
    (hbusy : home = none ∨ q ≠ .idle) (h : nextSlot index s home q e = some (s', pc')) :
    Action index s (.slot home q) (.slot e) s' pc' := by
  obtain ⟨⟨r, q'⟩, hnext, heq⟩ := Option.map_eq_some_iff.1 h
  obtain ⟨rfl, rfl⟩ := Prod.mk.inj heq
  exact .slot hnext hbusy

theorem start_action {e : Event Buf} (h : start index s e = some (s', pc')) :
    Action index s (.slot none .idle) e s' pc' := by
  cases e with
  | slot e => exact nextSlot_action (.inl rfl) h
  | moveSession dst | found f => cases h
  | update g =>
    simp only [start] at h
    split at h
    · cases h
    · split at h <;> obtain ⟨rfl, rfl⟩ := Prod.mk.inj (Option.some.inj h)
      · exact .running (by assumption)
      · exact .update (by assumption) (Bool.eq_false_iff.2 (by assumption))

theorem handleJob_action {g : GroupID} {e : Event Buf} (h : s.handleJob g = (s', pc')) :
    Action index s (.slot (some g) .idle) e s' pc' := by
  unfold handleJob Grouped.dequeue at h
  cases hfind : s.jobs.find? (·.1 = g) with
  | none =>
    rw [hfind] at h
    obtain ⟨rfl, rfl⟩ := Prod.mk.inj h
    exact .noJob e hfind
  | some x =>
    obtain ⟨g', job⟩ := x
    obtain rfl : g' = g := by simpa using List.find?_some hfind
    rw [hfind] at h
    obtain ⟨rfl, rfl⟩ := Prod.mk.inj h
    exact .dequeue e hfind

theorem nextMove_action {e : Event Buf} (h : nextMove s pc = some (s', pc')) :
    Action index s pc e s' pc' := by
  cases pc <;> simp only [nextMove, Option.some.injEq, Prod.mk.injEq, reduceCtorEq] at h
  case onRecv =>
    split at h
    · cases h
    · obtain ⟨rfl, rfl⟩ := Prod.mk.inj (Option.some.inj h)
      exact .onRecv e (by assumption)
  case resetGroup r =>
    cases r <;> obtain ⟨rfl, rfl⟩ := Prod.mk.inj (Option.some.inj h)
    · exact .resetAccept _ e
    · exact .resetRelease e
  all_goals obtain ⟨rfl, rfl⟩ := h
  case releaseGroup home k =>
    split
    · exact .releaseBase home k e (by assumption)
    · exact .releaseOther home k e (by assumption)
  case disconnectSrc home k =>
    split
    · exact .disconnectNone home k e (by assumption)
    · exact .disconnectSrc home k e (by assumption)
  case disconnectLeave home src k => exact .disconnectLeave home src k e
  case moveSrc id dst =>
    split
    · exact .moveFromBase id dst e (by assumption)
    · exact .moveFrom id dst e (by assumption)
  case moveLeave id src dst => exact .moveLeave id src dst e
  case moveSetGroup id dst =>
    split
    · rename_i hbase
      subst hbase
      exact .moveToBase id e
    · exact .moveTo id e (by assumption)
  case moveEnter id dst => exact .moveEnter id dst e
  case execGroup =>
    split
    · exact .inBase e (by assumption)
    · exact .inGroup e (by assumption)
  case execHandled =>
    split
    · exact .handled e (by assumption)
    · exact .unhandled e (Bool.eq_false_iff.2 (by assumption))
  case setHandled => exact .setHandled e
  case enqueueRecv id g => exact .enqueueRecv id g e

theorem nextJob_action {e : Event Buf} (h : nextJob s pc e = some (s', pc')) :
    Action index s pc e s' pc' := by
  cases pc <;> simp only [nextJob, Option.some.injEq, Prod.mk.injEq, reduceCtorEq] at h
  case erase g id last =>
    split at h
    · obtain ⟨rfl, rfl⟩ := Prod.mk.inj (Option.some.inj h)
      exact .erase last e (by assumption)
    · cases h
  case checkAssert g id last value =>
    split at h
    · obtain ⟨rfl, rfl⟩ := Prod.mk.inj (Option.some.inj h)
      split
      · exact .isReleased g last e (by assumption) (by assumption)
      · exact .notReleased g last e (by assumption) (not_le.1 (by assumption))
    · cases h
  case packet g id =>
    cases e with
    | found f =>
      cases f <;> obtain ⟨rfl, rfl⟩ := Prod.mk.inj (Option.some.inj h)
      · exact .packet g id
      · exact .short g id
      · exact .violation g id
    | _ => cases h
  all_goals obtain ⟨rfl, rfl⟩ := h
  case endUpdate g => exact .endUpdate g e
  case insert g id => exact .insert g id e
  case onEnter g id => exact .onEnter g id e
  case onLeave g id last => exact .onLeave g id last e
  case checkGroup g id last =>
    split
    · exact .ownGroup id last e (by assumption)
    · exact .otherGroup id last e (by assumption)
  case checkId g id last =>
    split
    · exact .ownId g last e (by assumption)
    · exact .otherId g last e (by assumption)
  case checkRef g id last => exact .checkRef g id last e
  case checkPost g id last => exact .checkPost g id last e
  case clearHandled g id => exact .clearHandled g id e
  case recvLoop g id =>
    split
    · exact .loop id e (by assumption)
    · exact .left id e (by assumption)

theorem next_action {e : Event Buf} (h : next index s pc e = some (s', pc')) :
    Action index s pc e s' pc' := by
  unfold next at h
  split at h
  · exact start_action h
  · exact handleJob_action (Option.some.inj h)
  · obtain ⟨rfl, rfl⟩ := Prod.mk.inj (Option.some.inj h)
    exact .moveSession _ _
  · rename_i home q e hidle hjob
    refine nextSlot_action ?_ h
    cases home with
    | none => exact .inl rfl
    | some g => exact .inr fun hq => hjob g rfl hq
  · cases h
  all_goals first
    | exact nextMove_action h | exact nextJob_action h

/-! ## The slot below -/

/-- Where a thread is on the slot. With the last `Leave` of a session in hand
it is about to call `PostRelease`. -/
def Pc.onSlot : Pc Buf → Slot.Pc Buf
  | .slot _ q => q
  | .releaseGroup _ k | .disconnectSrc _ k | .disconnectLeave _ _ k => .postRelease k
  | .moveSrc id _ | .moveLeave id _ _ | .moveSetGroup id _ | .moveEnter id _
  | .clearHandled _ id | .recvLoop _ id | .packet _ id => .holding id
  | .execGroup | .execHandled | .setHandled | .onRecv | .enqueueRecv _ _ => .recvExecute
  | .resetGroup r => .resetSending r
  | .erase _ _ true | .onLeave _ _ true | .checkGroup _ _ true | .checkId _ _ true
  | .checkRef _ _ true | .checkAssert _ _ true _ | .checkPost _ _ true => .postRelease .done
  | _ => .idle

/-- And a job: the last `Leave` is a thread of its own. -/
def jobOnSlot : GroupID × GroupJob → Slot.Pc Buf
  | (_, .Leave _ true) => .postRelease .done
  | _ => .idle

def World.onSlot (w : World Buf) : Slot.World Buf :=
  ⟨w.shared.slot, w.threads.map Pc.onSlot ++ w.shared.jobs.map jobOnSlot⟩

theorem enter_onSlot (home : Option GroupID) (q q' : Slot.Pc Buf) :
    (enter home q q').onSlot = q' := by
  unfold enter
  split <;> rfl

/-- The sum of a weight over the jobs. -/
def jobTotal (f : Slot.Pc Buf → ℕ) (jobs : List (GroupID × GroupJob)) : ℕ :=
  (jobs.map fun x => f (jobOnSlot x)).sum

theorem total_onSlot (f : Slot.Pc Buf → ℕ) :
    w.onSlot.total f = (w.total fun pc => f pc.onSlot) + jobTotal f w.shared.jobs := by
  simp only [Pool.total, World.onSlot, jobTotal, List.map_append, List.map_map, List.sum_append]
  rfl

theorem jobTotal_append (f : Slot.Pc Buf → ℕ) (jobs : List (GroupID × GroupJob))
    (x : GroupID × GroupJob) : jobTotal f (jobs ++ [x]) = jobTotal f jobs + f (jobOnSlot x) := by
  simp [jobTotal]

/-- A queue is what comes before the first job of a group, that job, and the
rest. -/
theorem jobs_split {jobs : List (GroupID × GroupJob)} {g : GroupID} {x : GroupID × GroupJob}
    (h : jobs.find? (·.1 = g) = some x) : ∃ before after, jobs = before ++ x :: after ∧
      jobs.eraseP (·.1 = g) = before ++ after ∧ ∀ y ∈ before, y.1 ≠ g := by
  obtain ⟨hx, before, after, rfl, hbefore⟩ := List.find?_eq_some_iff_append.1 h
  have hne : ∀ y ∈ before, y.1 ≠ g := fun y hy => by simpa using hbefore y hy
  refine ⟨before, after, rfl, ?_, hne⟩
  rw [List.eraseP_append_right _ fun y hy => by simpa using hne y hy,
    List.eraseP_cons_of_pos (p := fun x : GroupID × GroupJob => decide (x.1 = g)) hx]

/-- Taking a job out takes its weight out. -/
theorem jobTotal_eraseP (f : Slot.Pc Buf → ℕ) {jobs : List (GroupID × GroupJob)} {g : GroupID}
    {x : GroupID × GroupJob} (h : jobs.find? (·.1 = g) = some x) :
    jobTotal f (jobs.eraseP (·.1 = g)) + f (jobOnSlot x) = jobTotal f jobs := by
  obtain ⟨before, after, hjobs, herase, -⟩ := jobs_split h
  rw [herase, hjobs]
  simp only [jobTotal, List.map_append, List.map_cons, List.sum_append, List.sum_cons]
  omega

/-- What an action does to the jobs, as far as the slot can tell. -/
def JobsIdle (s s' : Grouped Buf) : Prop :=
  (∀ f : Slot.Pc Buf → ℕ, f .idle = 0 → jobTotal f s'.jobs = jobTotal f s.jobs) ∧
    ∀ x ∈ s'.jobs, (jobOnSlot x : Slot.Pc Buf) = .idle ∨ x ∈ s.jobs

theorem JobsIdle.of_eq (h : s'.jobs = s.jobs) : JobsIdle s s' := by
  rw [JobsIdle, h]
  exact ⟨fun _ _ => rfl, fun _ hx => .inr hx⟩

theorem JobsIdle.enqueue {x : GroupID × GroupJob} (h : s'.jobs = s.jobs ++ [x])
    (hx : (jobOnSlot x : Slot.Pc Buf) = .idle) : JobsIdle s s' := by
  rw [JobsIdle, h]
  refine ⟨fun f hf => ?_, fun y hy => ?_⟩
  · rw [jobTotal_append, hx, hf]
    rfl
  · rcases List.mem_append.1 hy with hy | hy
    · exact .inr hy
    · rw [List.mem_singleton.1 hy]
      exact .inl hx

theorem JobsIdle.dequeue {g : GroupID} {x : GroupID × GroupJob}
    (hfind : s.jobs.find? (·.1 = g) = some x) (h : s'.jobs = s.jobs.eraseP (·.1 = g))
    (hx : (jobOnSlot x : Slot.Pc Buf) = .idle) : JobsIdle s s' := by
  rw [JobsIdle, h]
  refine ⟨fun f hf => ?_, fun y hy => .inr (List.mem_of_mem_eraseP hy)⟩
  have := jobTotal_eraseP f hfind
  rw [hx, hf] at this
  exact this

/-- What an action is to the slot: nothing, an action of its own, or the
`PostRelease` owed passing on to a job or from it. -/
inductive Refines (index : ℕ) (s : Grouped Buf) (pc : Pc Buf) (s' : Grouped Buf) (pc' : Pc Buf) :
    Prop
  | stay (hslot : s'.slot = s.slot) (hpc : pc'.onSlot = pc.onSlot) (hjobs : JobsIdle s s')
  | step (e : Slot.Event Buf)
    (hnext : Slot.next index s.slot pc.onSlot e = some (s'.slot, pc'.onSlot))
    (hjobs : JobsIdle s s')
  /-- `RecvHandler` closes the session it holds. -/
  | close (id : SessionID) (hslot : s'.slot = s.slot) (hpc : pc.onSlot = .holding id)
    (hpc' : pc'.onSlot = .close id .done) (hjobs : JobsIdle s s')
  | handOn (k : Slot.After) (x : GroupID × GroupJob) (hslot : s'.slot = s.slot)
    (hpc : pc.onSlot = .postRelease k) (hpc' : pc'.onSlot = k.pc)
    (hjobs : s'.jobs = s.jobs ++ [x]) (hx : (jobOnSlot x : Slot.Pc Buf) = .postRelease .done)
  | takeUp (g : GroupID) (x : GroupID × GroupJob) (hslot : s'.slot = s.slot)
    (hpc : pc.onSlot = .idle) (hpc' : pc'.onSlot = .postRelease .done)
    (hfind : s.jobs.find? (·.1 = g) = some x) (hjobs : s'.jobs = s.jobs.eraseP (·.1 = g))
    (hx : (jobOnSlot x : Slot.Pc Buf) = .postRelease .done)

/-- What the thread that owes the `PostRelease` finds on its way to it, and
that no other thread gets there. -/
def Pc.Due (s : Grouped Buf) : Pc Buf → Prop
  | .disconnectSrc _ _ => s.groupId ≠ BaseGroupID
  | .checkGroup g _ true => s.groupId = g
  | .checkId _ id true => s.slot.sessionId = id
  | .checkAssert _ _ true value => RELEASE_FLAG ≤ value
  | .checkPost _ _ last => last = true
  | _ => True

theorem observe_slot (s : Grouped Buf) (q : Slot.Pc Buf) (r : Slot Buf) :
    ({ s.observe q with slot := r } : Grouped Buf).jobs = s.jobs := by
  unfold observe
  split <;> rfl

theorem Action.refines {e : Event Buf} (h : Action index s pc e s' pc') (hdue : pc.Due s) :
    Refines index s pc s' pc' := by
  cases h
  case slot home q q' e r hnext _ =>
    refine .step e ?_ (.of_eq (observe_slot s q r))
    rw [enter_onSlot]
    exact hnext
  case dequeue g job hfind =>
    cases job with
    | Recv id => exact .step (.hold id) rfl (.dequeue hfind rfl rfl)
    | Enter id => exact .stay rfl rfl (.dequeue hfind rfl rfl)
    | Leave id last =>
      cases last with
      | false => exact .stay rfl rfl (.dequeue hfind rfl rfl)
      | true => exact .takeUp g _ rfl rfl rfl hfind rfl rfl
  case disconnectNone hg => exact absurd hg hdue
  case disconnectLeave home src k => exact .handOn k _ rfl rfl rfl rfl rfl
  case moveLeave => exact .stay rfl rfl (.enqueue rfl rfl)
  case moveToBase | left | short => exact .step .go rfl (.of_eq rfl)
  case moveEnter => exact .step .go rfl (.enqueue rfl rfl)
  case enqueueRecv => exact .step .go rfl (.enqueue rfl rfl)
  case violation g id => exact .close id rfl rfl rfl (.of_eq rfl)
  case erase last _ => cases last <;> exact .stay rfl rfl (.of_eq rfl)
  case onLeave last => cases last <;> exact .stay rfl rfl (.of_eq rfl)
  case ownGroup last _ => cases last <;> exact .stay rfl rfl (.of_eq rfl)
  case otherGroup last hg =>
    cases last with
    | false => exact .stay rfl rfl (.of_eq rfl)
    | true => exact absurd hdue hg
  case ownId last _ => cases last <;> exact .stay rfl rfl (.of_eq rfl)
  case otherId last hid =>
    cases last with
    | false => exact .stay rfl rfl (.of_eq rfl)
    | true => exact absurd hdue hid
  case checkRef last => cases last <;> exact .stay rfl rfl (.of_eq rfl)
  case isReleased last _ _ _ => cases last <;> exact .stay rfl rfl (.of_eq rfl)
  case notReleased last value hid hopen =>
    cases last with
    | false => exact .stay rfl rfl (.of_eq rfl)
    | true => exact absurd hdue (not_le.2 hopen)
  case checkPost last =>
    obtain rfl : last = true := hdue
    exact .step .go rfl (.of_eq rfl)
  all_goals exact .stay rfl rfl (.of_eq rfl)

/-! ## The slot below stays sound -/

/-- A weight that the slot's life is counted by: it takes no notice of idle
threads, of a `PostRelease` that is passed on, and of a session closed. -/
structure Counts (f : Slot.Pc Buf → ℕ) : Prop where
  idle : f .idle = 0
  passOn : ∀ k : Slot.After, f (.postRelease k) = f k.pc + f (.postRelease .done)
  close : ∀ id, f (.close id .done) = f (.holding id)

theorem Counts.refs : Counts (@Slot.Pc.refs Buf) :=
  ⟨rfl, fun k => by cases k <;> rfl, fun _ => rfl⟩

theorem Counts.pinned : Counts (@Slot.Pc.pinned Buf) :=
  ⟨rfl, fun k => by cases k <;> rfl, fun _ => rfl⟩

theorem Counts.zeroed : Counts (@Slot.Pc.zeroed Buf) :=
  ⟨rfl, fun k => by cases k <;> rfl, fun _ => rfl⟩

theorem Counts.owed : Counts (@Slot.Pc.owed Buf) :=
  ⟨rfl, fun k => by cases k <;> rfl, fun _ => rfl⟩

theorem Counts.closed : Counts (@Slot.Pc.closed Buf) :=
  ⟨rfl, fun k => by cases k <;> rfl, fun _ => rfl⟩

/-- **Soundness is a matter of the counts**, and of what each thread stands
for. -/
theorem sound_congr {v v' : Slot.World Buf} (h : Slot.Sound index v)
    (hslot : v'.shared = v.shared)
    (htotal : ∀ f : Slot.Pc Buf → ℕ, Counts f → v'.total f = v.total f)
    (hstands : ∀ q' ∈ v'.threads, q' = .idle ∨ q' = .postRelease .done ∨
      ∃ q ∈ v.threads, q'.stage = q.stage ∧ q'.held = q.held) : Slot.Sound index v' := by
  have hlife : Slot.life v' = Slot.life v := by
    simp only [Slot.life, hslot, htotal _ Counts.refs, htotal _ Counts.pinned,
      htotal _ Counts.zeroed, htotal _ Counts.owed, htotal _ Counts.closed]
  refine ⟨?_, hlife ▸ h.counted, hlife ▸ h.logged, ?_, ?_, ?_, ?_, ?_, ?_⟩
  · rw [Slot.FewRefs, hlife]
    exact h.few
  · rw [hslot]
    exact h.sorted
  · rw [hslot]
    exact h.drawn
  · intro q' hq' id hid
    rw [hslot] at hid ⊢
    rcases hstands q' hq' with rfl | rfl | ⟨q, hq, hstage, -⟩
    · cases hid
    · cases hid
    · exact h.fresh q hq id (hstage ▸ hid)
  · rw [hslot]
    exact h.posted
  · intro q' hq' hst
    rw [hslot]
    rcases hstands q' hq' with rfl | rfl | ⟨q, hq, hstage, -⟩
    · cases hst
    · cases hst
    · exact h.releasing q hq (hstage ▸ hst)
  · intro q' hq' id hid
    rw [hslot]
    rcases hstands q' hq' with rfl | rfl | ⟨q, hq, -, hheld⟩
    · cases hid
    · cases hid
    · exact h.held q hq id (hheld ▸ hid)

theorem mem_onSlot (hpc : pc ∈ w.threads) : pc.onSlot ∈ w.onSlot.threads :=
  List.mem_append_left _ (List.mem_map_of_mem hpc)

theorem job_mem_onSlot {x : GroupID × GroupJob} (hx : x ∈ w.shared.jobs) :
    jobOnSlot x ∈ w.onSlot.threads :=
  List.mem_append_right _ (List.mem_map_of_mem hx)

/-- A weight below moves with the thread that steps and with the jobs. -/
theorem onSlot_total_step {i : ℕ} (f : Slot.Pc Buf → ℕ) (hpc : w.threads[i]? = some pc)
    (ht : w'.threads = w.threads.set i pc') :
    w'.onSlot.total f + f pc.onSlot + jobTotal f w.shared.jobs =
      w.onSlot.total f + f pc'.onSlot + jobTotal f w'.shared.jobs := by
  have := Pool.total_step (e := (i, ())) (fun pc => f pc.onSlot) hpc ht
  rw [total_onSlot, total_onSlot]
  omega

/-- What the threads below stand for after a step, jobs apart. -/
theorem stands_below {i : ℕ} (hpc : w.threads[i]? = some pc) (ht : w'.threads = w.threads.set i pc')
    (hnew : pc'.onSlot = .idle ∨ pc'.onSlot = .postRelease .done ∨
      pc'.onSlot.stage = pc.onSlot.stage ∧ pc'.onSlot.held = pc.onSlot.held)
    (hjobs : ∀ x ∈ w'.shared.jobs, (jobOnSlot x : Slot.Pc Buf) = .idle ∨
      (jobOnSlot x : Slot.Pc Buf) = .postRelease .done ∨ x ∈ w.shared.jobs) :
    ∀ q' ∈ w'.onSlot.threads, q' = .idle ∨ q' = .postRelease .done ∨
      ∃ q ∈ w.onSlot.threads, q'.stage = q.stage ∧ q'.held = q.held := by
  intro q' hq'
  rcases List.mem_append.1 hq' with hq' | hq'
  · obtain ⟨p, hp, rfl⟩ := List.mem_map.1 hq'
    rw [ht] at hp
    rcases List.mem_or_eq_of_mem_set hp with hp | rfl
    · exact .inr (.inr ⟨_, mem_onSlot hp, rfl, rfl⟩)
    · exact hnew.imp_right (Or.imp_right fun hsame =>
        ⟨_, mem_onSlot (List.mem_of_getElem? hpc), hsame⟩)
  · obtain ⟨x, hx, rfl⟩ := List.mem_map.1 hq'
    exact (hjobs x hx).imp_right (Or.imp_right fun hold => ⟨_, job_mem_onSlot hold, rfl, rfl⟩)

theorem JobsIdle.stands (h : JobsIdle s s') (x : GroupID × GroupJob) (hx : x ∈ s'.jobs) :
    (jobOnSlot x : Slot.Pc Buf) = .idle ∨ (jobOnSlot x : Slot.Pc Buf) = .postRelease .done ∨
      x ∈ s.jobs :=
  (h.2 x hx).imp_right .inr

/-- A step of the slot's own, by a thread of the groups. -/
theorem sound_of_next {e : ℕ × Event Buf} {ev : Slot.Event Buf} (h : Slot.Sound index w.onSlot)
    (hpc : w.threads[e.1]? = some pc) (ht : w'.threads = w.threads.set e.1 pc')
    (hnext : Slot.next index w.shared.slot pc.onSlot ev = some (w'.shared.slot, pc'.onSlot))
    (hjobs : JobsIdle w.shared w'.shared) (hfew : Slot.FewRefs w'.onSlot) :
    Slot.Sound index w'.onSlot := by
  -- the slot after it, with the jobs as they were
  let v : Slot.World Buf :=
    ⟨w'.shared.slot, w'.threads.map Pc.onSlot ++ w.shared.jobs.map jobOnSlot⟩
  have hv (f : Slot.Pc Buf → ℕ) : v.total f + jobTotal f w'.shared.jobs =
      w'.onSlot.total f + jobTotal f w.shared.jobs := by
    simp only [Pool.total, v, World.onSlot, jobTotal, List.map_append, List.map_map,
      List.sum_append]
    change _ + (w.shared.jobs.map fun x => f (jobOnSlot x)).sum +
      (w'.shared.jobs.map fun x => f (jobOnSlot x)).sum =
      _ + (w'.shared.jobs.map fun x => f (jobOnSlot x)).sum + _
    omega
  have htotal (f : Slot.Pc Buf → ℕ) (hf : f .idle = 0) : w'.onSlot.total f = v.total f := by
    have := hv f
    rw [hjobs.1 f hf] at this
    omega
  have hlt : e.1 < w.threads.length := (List.getElem?_eq_some_iff.1 hpc).1
  have hsound : Slot.Sound index v := by
    refine h.step (e := (e.1, ev)) ?_ ?_
    · have hget : w.onSlot.threads[e.1]? = some pc.onSlot := by
        rw [World.onSlot, List.getElem?_append_left (by simpa using hlt), List.getElem?_map, hpc]
        rfl
      have hset : v.threads = w.onSlot.threads.set e.1 pc'.onSlot := by
        simp only [v, World.onSlot, ht]
        rw [List.set_append_left _ _ (by simpa using hlt), List.map_set]
      simp only [Slot.step, Pool.step, hget, Option.map_eq_some_iff]
      exact ⟨_, hnext, by rw [← hset]⟩
    · have hrefs := htotal _ (@Counts.refs Buf).idle
      have := hfew
      simp only [Slot.FewRefs, Slot.life, hrefs] at this ⊢
      exact this
  refine sound_congr hsound rfl (fun f hf => htotal f hf.idle) fun q hq => ?_
  rcases List.mem_append.1 hq with hq | hq
  · exact .inr (.inr ⟨q, List.mem_append_left _ hq, rfl, rfl⟩)
  · obtain ⟨x, hx, rfl⟩ := List.mem_map.1 hq
    rcases hjobs.2 x hx with hx | hx
    · exact .inl hx
    · exact .inr (.inr ⟨_, List.mem_append_right _ (List.mem_map_of_mem hx), rfl, rfl⟩)

/-- **Every step keeps the slot below sound**, as long as whoever owes the
`PostRelease` gets to it and nobody else does. -/
theorem sound_step {e : ℕ × Event Buf} (h : Slot.Sound index w.onSlot)
    (hpc : w.threads[e.1]? = some pc) (ha : Action index w.shared pc e.2 w'.shared pc')
    (ht : w'.threads = w.threads.set e.1 pc') (hdue : pc.Due w.shared)
    (hfew : Slot.FewRefs w'.onSlot) : Slot.Sound index w'.onSlot := by
  have hmove (f : Slot.Pc Buf → ℕ) := onSlot_total_step f hpc ht
  cases ha.refines hdue with
  | stay hslot hsame hjobs =>
    refine sound_congr h hslot (fun f hf => ?_)
      (stands_below hpc ht (.inr (.inr (by rw [hsame]; exact ⟨rfl, rfl⟩))) hjobs.stands)
    have := hmove f
    rw [hsame, hjobs.1 f hf.idle] at this
    omega
  | close id hslot hq₁ hq₂ hjobs =>
    refine sound_congr h hslot (fun f hf => ?_)
      (stands_below hpc ht (.inr (.inr (by rw [hq₁, hq₂]; exact ⟨rfl, rfl⟩))) hjobs.stands)
    have := hmove f
    rw [hq₁, hq₂, hf.close, hjobs.1 f hf.idle] at this
    omega
  | handOn k x hslot hq₁ hq₂ hjobs hx =>
    refine sound_congr h hslot (fun f hf => ?_)
      (stands_below hpc ht (.inr (.inr ?_)) fun y hy => ?_)
    · have := hmove f
      rw [hq₁, hq₂, hf.passOn, hjobs, jobTotal_append, hx] at this
      omega
    · rw [hq₁, hq₂, Slot.After.pc_stage, Slot.After.pc_held]
      exact ⟨rfl, rfl⟩
    · rw [hjobs] at hy
      rcases List.mem_append.1 hy with hy | hy
      · exact .inr (.inr hy)
      · rw [List.mem_singleton.1 hy]
        exact .inr (.inl hx)
  | takeUp g x hslot hq₁ hq₂ hfind hjobs hx =>
    refine sound_congr h hslot (fun f hf => ?_)
      (stands_below hpc ht (.inr (.inl hq₂)) fun y hy => ?_)
    · have := hmove f
      have herase := jobTotal_eraseP f hfind
      rw [hx] at herase
      rw [hq₁, hq₂, hf.idle, hjobs] at this
      omega
    · rw [hjobs] at hy
      exact .inr (.inr (List.mem_of_mem_eraseP hy))
  | step ev hnext hjobs => exact sound_of_next h hpc ht hnext hjobs hfew

end Grouped

end NetLib
