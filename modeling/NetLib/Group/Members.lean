import NetLib.Group.Exclusive
import NetLib.Group.Once
/-!
# Who is in a group

`MoveSession` reads the session's group, queues a `Leave` there, changes the
group, and queues an `Enter`, with nothing to keep another `MoveSession` of the
session out. Where no two calls take the session out of its group at once,
the `Enter`s and `Leave`s of a session in a group alternate, from what
`_sessions` says now to what the session's own group says.
-/

namespace NetLib

namespace Grouped

variable {Buf : Type} {index : ℕ} {s s' : Grouped Buf} {w w' : World Buf} {pc pc' : Pc Buf}

/-! ## Alternating jobs -/

/-- The jobs in the list each change who is a member, and take `m` to `n`. -/
def Alternates : Prop → List Bool → Prop → Prop
  | m, [], n => m ↔ n
  | m, b :: l, n => ¬(m ↔ b = true) ∧ Alternates (b = true) l n

theorem Alternates.append {m n k : Prop} {l l' : List Bool} (h : Alternates m l n)
    (h' : Alternates n l' k) : Alternates m (l ++ l') k := by
  induction l generalizing m with
  | nil => rwa [List.nil_append, propext h]
  | cons b l ih => exact ⟨h.1, ih h.2⟩

/-- A single job. -/
theorem Alternates.single {m n : Prop} {b : Bool} (hm : ¬(m ↔ b = true)) (hn : n ↔ b = true) :
    Alternates m [b] n :=
  ⟨hm, hn.symm⟩

/-! ## The session's own group -/

/-- Is the thread in `MoveSession`, with the session out of its old group and
not yet queued for the new one? -/
def Pc.between : Pc Buf → ℕ
  | .moveSetGroup _ _ | .moveEnter _ _ => 1
  | _ => 0

/-- Is the thread on its way to the last `Leave` of the session? -/
def Pc.disconnects : Pc Buf → ℕ
  | .releaseGroup _ _ | .disconnectSrc _ _ | .disconnectLeave _ _ _ => 1
  | _ => 0

/-- The session in the slot is accepted, and its last `Leave` is still to be
queued. -/
def Alive (w : World Buf) : Prop :=
  w.shared.slot.refCount < RELEASE_FLAG ∨ 0 < w.total Pc.disconnects

/-- The session `id` is in the group `g`, as far as the slot is concerned. -/
structure Belongs (w : World Buf) (g : GroupID) (id : SessionID) : Prop where
  own : id = w.shared.slot.sessionId
  group : g = w.shared.groupId
  notBase : g ≠ BaseGroupID
  settled : w.total Pc.between = 0
  alive : Alive w

/-- A `MoveSession` takes the session out of its group only while the group it
has read is still the session's, and no other call is between `Leave` and
`Enter`. -/
def Pc.MayMove (w : World Buf) : Pc Buf → Prop
  | .moveSrc _ _ => w.shared.groupId = BaseGroupID → w.total Pc.between = 0
  | .moveLeave _ src _ => src = w.shared.groupId ∧ w.total Pc.between = 0
  | _ => True

instance decidableMayMove (w : World Buf) : (pc : Pc Buf) → Decidable (pc.MayMove w)
  | .moveSrc _ _ => inferInstanceAs (Decidable (_ → _))
  | .moveLeave _ _ _ => inferInstanceAs (Decidable (_ ∧ _))
  | .slot _ _ | .releaseGroup _ _ | .disconnectSrc _ _ | .disconnectLeave _ _ _
  | .moveSetGroup _ _ | .moveEnter _ _ | .execGroup | .execHandled | .setHandled | .onRecv
  | .enqueueRecv _ _ | .resetGroup _ | .endUpdate _ | .insert _ _ | .onEnter _ _ | .erase _ _ _
  | .onLeave _ _ _ | .checkGroup _ _ _ | .checkId _ _ _ | .checkRef _ _ _ | .checkAssert _ _ _ _
  | .checkPost _ _ _ | .clearHandled _ _ | .recvLoop _ _ | .packet _ _ =>
    inferInstanceAs (Decidable True)

/-- No two moves of the session at once, and its earlier ones settled when it
is released. -/
def Apart (w : World Buf) (e : ℕ × Event Buf) (w' : World Buf) : Prop :=
  Settled w e w' ∧ ∀ pc ∈ w.threads[e.1]?, pc.MayMove w

instance decidableApart (w : World Buf) (e : ℕ × Event Buf) (w' : World Buf) :
    Decidable (Apart w e w') :=
  inferInstanceAs (Decidable (_ ∧ _))

/-! ## The base group of a slot without a session -/

/-- Is the slot past `Reset`, or in the hands of `AcceptThread`? -/
def Pc.IsReset (pc : Pc Buf) : Prop :=
  pc.parting = .returning ∨ (∃ id, pc.onSlot.stage = .accepting id) ∨ pc.onSlot.stage = .opening

theorem Pc.IsReset.closed (h : pc.IsReset) : pc.onSlot.closed = 1 := by
  rcases h with hpart | ⟨id, hstage⟩ | hstage
  · cases pc with
    | slot home q =>
      have hoff : q.parting ≠ .off := by
        rw [show q.parting = .returning from hpart]
        decide
      exact Slot.Pc.closed_of_parting hoff
    | resetGroup r => rfl
    | _ => cases hpart
  · rw [Slot.Pc.closed_eq, hstage]
    rfl
  · rw [Slot.Pc.closed_eq, hstage]
    rfl

theorem Pc.not_isReset (hpart : pc.parting = .off) (hstage : pc.onSlot.stage = .outside) :
    ¬pc.IsReset := by
  intro h
  unfold Pc.IsReset at h
  rw [hpart, hstage] at h
  rcases h with h | ⟨id, h⟩ | h <;> cases h

/-- The slot is reset by `Reset`, and comes to `AcceptThread` from
`_freeIndex`. -/
theorem Action.isReset {e : Event Buf} (h : Action index s pc e s' pc') (hnew : pc'.IsReset) :
    pc.IsReset ∨ 0 < s.slot.free ∨ s'.groupId = BaseGroupID := by
  cases h
  case slot home q q' ev r hnext _ =>
    rcases hnew with hpart | hstage
    · have hpassing : Passing s (.slot home q) _ (enter home q q') := slot_passing hnext
      cases hpassing with
      | same hphase => exact .inl (.inl (hphase.symm.trans hpart))
      | reset _ _ _ _ _ hresets =>
        obtain ⟨c, p, hobs⟩ := observe_eq s q
        rw [hobs] at hresets
        exact absurd (congrArg List.length hresets) (by simp)
      | post _ _ hoff | take _ hoff | call _ hoff | giveBack _ hoff =>
        rw [hpart] at hoff
        cases hoff
    · rw [enter_onSlot] at hstage
      cases Slot.next_naming hnext with
      | same _ _ _ _ _ hsame =>
        rcases hsame with hsame | hsame
        · rw [hsame] at hstage
          exact .inl (.inr hstage)
        · rw [hsame] at hstage
          rcases hstage with ⟨id, hstage⟩ | hstage <;> cases hstage
      | draw others _ _ hpos => exact .inr (.inl hpos)
      | name id hold =>
        subst hold
        exact .inl (.inr (.inl ⟨id, rfl⟩))
      | openUp _ _ _ _ _ _ hout | post _ _ _ _ _ hout | take _ _ _ _ _ _ hout
      | giveBack _ _ _ _ _ _ hout =>
        rw [hout] at hstage
        rcases hstage with ⟨id, hstage⟩ | hstage <;> cases hstage
  case resetAccept | resetRelease => exact .inr (.inr rfl)
  case disconnectNone home k _ | disconnectLeave home src k =>
    exact absurd hnew (Pc.not_isReset k.pc_parting k.pc_stage)
  case dequeue g job _ =>
    cases job with
    | Recv | Enter => exact absurd hnew (Pc.not_isReset rfl rfl)
    | Leave id last => cases last <;> exact absurd hnew (Pc.not_isReset rfl rfl)
  case erase last _ | onLeave last | ownGroup last _ | ownId last _ | checkRef last
      | isReleased last _ _ _ =>
    cases last <;> exact absurd hnew (Pc.not_isReset rfl rfl)
  all_goals exact absurd hnew (Pc.not_isReset rfl rfl)

theorem Action.free {e : Event Buf} (h : Action index s pc e s' pc') (hfree : 0 < s'.slot.free) :
    0 < s.slot.free ∨ pc.IsReset := by
  cases h
  case slot home q q' ev r hnext _ =>
    cases Slot.next_naming hnext with
    | draw _ _ _ hpos => exact .inl hpos
    | giveBack hold =>
      subst hold
      exact .inr (.inl rfl)
    | same _ _ _ _ hsame | name _ _ _ _ _ _ hsame | openUp _ _ _ _ _ hsame | post _ _ _ _ hsame
    | take _ _ _ _ _ hsame => exact .inl (hsame ▸ hfree)
  all_goals exact .inl hfree

/-! ## What the counts say -/

theorem Pc.between_le (pc : Pc Buf) : pc.between ≤ pc.onSlot.pinned := by
  cases pc <;> first | exact le_rfl | exact Nat.zero_le _

theorem Pc.disconnects_le (pc : Pc Buf) : pc.disconnects ≤ pc.onSlot.owed := by
  cases pc <;> first | exact le_rfl | exact Nat.zero_le _

theorem total_disconnects_le : w.total Pc.disconnects ≤ (Slot.life w.onSlot).owed := by
  refine le_trans (List.sum_le_sum fun pc _ => pc.disconnects_le) ?_
  change _ ≤ w.onSlot.total Slot.Pc.owed
  rw [total_onSlot]
  exact Nat.le_add_right _ _

/-- A session that is being moved is not released. -/
theorem open_of_between (h : Slot.Sound index w.onSlot) (hb : 0 < w.total Pc.between) :
    w.shared.slot.refCount < RELEASE_FLAG := by
  obtain ⟨pc, hpc, hpos⟩ := Pool.exists_of_total_pos hb
  exact h.open_of_pinned (mem_onSlot hpc) (lt_of_lt_of_le hpos pc.between_le)

/-- A slot in the hands of `ReleaseExecutable` or `AcceptThread` has no
session. -/
theorem not_alive (h : Slot.Sound index w.onSlot) (hcl : 0 < (Slot.life w.onSlot).closed) :
    ¬Alive w := by
  have hone := h.counted.one
  have hle := total_disconnects_le (w := w)
  rintro (hopen | hpos)
  · have := h.open_iff.1 hopen
    omega
  · omega

theorem closed_pos (hpc : pc ∈ w.threads) (hcl : 0 < pc.onSlot.closed) :
    0 < (Slot.life w.onSlot).closed := by
  have hle := owed_le Slot.Pc.closed hpc
  change 0 < w.shared.slot.releasePosted + w.shared.slot.free + w.onSlot.total Slot.Pc.closed
  omega

theorem closed_of_free (hfree : 0 < w.shared.slot.free) : 0 < (Slot.life w.onSlot).closed := by
  change 0 < w.shared.slot.releasePosted + w.shared.slot.free + w.onSlot.total Slot.Pc.closed
  omega

/-- A slot is not reset while a thread holds a reference to its session. -/
theorem closed_eq_zero (h : Slot.Sound index w.onSlot) (hpc : pc ∈ w.threads)
    (hpin : 0 < pc.onSlot.pinned) : (Slot.life w.onSlot).closed = 0 := by
  have hopen := h.open_iff.1 (h.open_of_pinned (mem_onSlot hpc) hpin)
  omega

/-! ## The invariant -/

/-- One `MoveSession` at most has the session out of its group, and knows the
group it has set; a slot without a session is in the base group; and the jobs
of each group take its `_sessions` to the session's own group. -/
structure Members (index : ℕ) (w : World Buf) : Prop where
  releasing : Releasing index w
  exclusive : Exclusive w
  one : w.total Pc.between ≤ 1
  entering : ∀ id dst, .moveEnter id dst ∈ w.threads → dst = w.shared.groupId ∧ dst ≠ BaseGroupID
  free : 0 < w.shared.slot.free → w.shared.groupId = BaseGroupID
  reset : ∀ pc ∈ w.threads, pc.IsReset → w.shared.groupId = BaseGroupID
  jobs : ∀ g id, Alternates (id ∈ w.shared.sessions g) (w.todo g id) (Belongs w g id)

theorem Members.initial [Inhabited Buf] (n : ℕ) : Members index (World.initial n : World Buf) := by
  have hidle := World.initial_idle Buf n
  refine ⟨.initial n, .initial n, ?_, fun id dst hmem => ?_, fun _ => rfl, fun _ _ _ => rfl,
    fun g id => ?_⟩
  · rw [Pool.total_of_forall_eq hidle rfl]
    exact Nat.zero_le 1
  · cases hidle _ hmem
  · have htodo : (World.initial n : World Buf).todo g id = [] := by
      refine List.append_eq_nil_iff.2 ⟨List.flatMap_eq_nil_iff.2 fun q hq => ?_, rfl⟩
      rw [hidle q hq]
      rfl
    rw [htodo]
    exact iff_of_false (Finset.notMem_empty id) fun hb => hb.notBase hb.group

/-- A session is taken out of its group by its `Leave`, or from the base
group, and comes to its new one in `MoveSession` as well. -/
theorem Action.between {e : Event Buf} (h : Action index s pc e s' pc') :
    pc'.between = pc.between ∨ (∃ id dst, pc = .moveSrc id dst ∧ s.groupId = BaseGroupID) ∨
      pc.queues ≠ none ∨ ∃ id dst, pc = .moveSetGroup id dst := by
  cases h
  case slot home q q' ev r _ _ =>
    left
    unfold enter
    split <;> rfl
  case dequeue g job _ => cases job <;> exact .inl rfl
  case moveFromBase id dst hg => exact .inr (.inl ⟨id, dst, rfl, hg⟩)
  case moveToBase id => exact .inr (.inr (.inr ⟨id, _, rfl⟩))
  case moveTo id dst _ => exact .inr (.inr (.inr ⟨id, dst, rfl⟩))
  case moveLeave | moveEnter => exact .inr (.inr (.inl (Option.some_ne_none _)))
  all_goals exact .inl rfl

/-- `PostRelease` is called by the thread that has set the flag. -/
theorem next_postRelease {r r' : Slot Buf} {q : Slot.Pc Buf} {ev : Slot.Event Buf} {k : Slot.After}
    (h : Slot.next index r q ev = some (r', .postRelease k)) : r.refCount = 0 := by
  by_cases hfree : q = .releaseFreeIndex
  · subst hfree
    cases (Prod.mk.inj (Option.some.inj h)).2
  by_cases howed : q.owed = 0
  · cases Slot.next_share h fun heq => absurd heq hfree with
    | win hz => exact hz
    | stay _ _ _ _ ho | take _ _ _ _ ho | give _ _ _ _ _ ho | lose _ _ _ _ _ ho
    | rename _ _ _ _ _ ho | reopen _ _ _ _ ho =>
      change 1 = q.owed at ho
      omega
    | post _ _ _ _ ho =>
      change 1 + 1 = q.owed at ho
      omega
  · cases q with
    | postRelease k' =>
      have := (Prod.mk.inj (Option.some.inj h)).2
      cases k' <;> cases this
    | _ => exact absurd rfl howed

/-- What a step does to the thread on its way to the last `Leave`. -/
theorem Action.disconnects {e : Event Buf} (h : Action index s pc e s' pc')
    (hqueues : pc.queues = none) (hbase : s.groupId ≠ BaseGroupID) (hrel : s.slot.refCount ≠ 0) :
    pc'.disconnects = pc.disconnects := by
  cases h
  case slot home q q' ev r hnext _ =>
    unfold enter
    split
    case h_1 => exact absurd (next_postRelease hnext) hrel
    all_goals rfl
  case dequeue g job _ => cases job <;> rfl
  case releaseBase hg | disconnectNone hg => exact absurd hg hbase
  case disconnectLeave => cases hqueues
  all_goals rfl

/-- **A slot is opened at `OffReleaseFlag`**, and by nothing else. -/
theorem Members.opened_back {e : ℕ × Event Buf} (h : Members index w)
    (h' : Slot.Sound index w'.onSlot) (hpc : w.threads[e.1]? = some pc)
    (ha : Action index w.shared pc e.2 w'.shared pc') (ht : w'.threads = w.threads.set e.1 pc')
    (hrel : RELEASE_FLAG ≤ w.shared.slot.refCount)
    (hopen : w'.shared.slot.refCount < RELEASE_FLAG) : pc.IsReset := by
  rcases ha.slot_or_count with ⟨home, q, q', ev, rfl, rfl, hnext, hjobs⟩ | hsame
  · have hst := slot_step hpc hnext ht hjobs
    rcases (Slot.life_step hst h.releasing.sound.indexed).reopened (h'.open_iff.1 hopen) with
      hzero | ⟨-, hopened⟩
    · exact absurd (h.releasing.sound.open_iff.2 hzero) (not_lt.2 hrel)
    · have hlong : w'.shared.slot.accepted ≠ w.shared.slot.accepted := fun heq => by
        have happend : w.shared.slot.accepted ++ [w.shared.slot.sessionId] =
          w.shared.slot.accepted := hopened.symm.trans heq
        simp at happend
      cases Slot.next_naming hnext with
      | openUp hold =>
        subst hold
        exact .inr (.inr rfl)
      | same _ hacc | draw _ _ _ _ _ hacc | name _ _ _ hacc | post _ _ hacc | take _ _ hacc
      | giveBack _ _ hacc => exact absurd hacc hlong
  · rw [hsame] at hopen
    exact absurd hopen (not_lt.2 hrel)

/-- A session comes and goes with its slot, and with its last `Leave`. -/
theorem Members.alive_iff {e : ℕ × Event Buf} (h : Members index w)
    (h' : Slot.Sound index w'.onSlot) (hpc : w.threads[e.1]? = some pc)
    (ha : Action index w.shared pc e.2 w'.shared pc') (ht : w'.threads = w.threads.set e.1 pc')
    (hqueues : pc.queues = none) (hbase : w.shared.groupId ≠ BaseGroupID) :
    Alive w' ↔ Alive w := by
  rcases lt_or_ge w.shared.slot.refCount RELEASE_FLAG with hopen | hrel
  · refine iff_of_true ?_ (.inl hopen)
    rcases lt_or_ge w'.shared.slot.refCount RELEASE_FLAG with hopen' | hrel'
    · exact .inl hopen'
    -- the thread that sets the flag goes on to the last `Leave`
    · obtain ⟨hex, hzero⟩ := h.releasing.released_back h' hpc ha ht hopen hrel'
      have hnew := Pool.mem_threads hpc ht
      rcases ha.slot_or_count with ⟨home, q, q', ev, rfl, rfl, hnext, -⟩ | hsame
      · cases q with
        | releaseCas k =>
          simp only [Slot.next, Slot.nextRef, if_pos hzero, Option.some.injEq,
            Prod.mk.injEq] at hnext
          obtain ⟨-, rfl⟩ := hnext
          exact .inr (Pool.le_total Pc.disconnects hnew)
        | _ => cases hex
      · omega
  · have hrel' : ¬w'.shared.slot.refCount < RELEASE_FLAG := fun hopen =>
      hbase (h.reset pc (List.mem_of_getElem? hpc) (h.opened_back h' hpc ha ht hrel hopen))
    have hmove := Pool.total_step Pc.disconnects hpc ht
    have hflag : (0 : ℤ) < RELEASE_FLAG := by decide
    rw [ha.disconnects hqueues hbase (by omega)] at hmove
    rw [Alive, Alive, or_iff_right hrel', or_iff_right (not_lt.2 hrel),
      Nat.add_right_cancel hmove]

theorem Action.setGroup {e : Event Buf} {id : SessionID} {dst : GroupID}
    (h : Action index s (.moveSetGroup id dst) e s' pc') :
    s'.groupId = dst ∧ (dst = BaseGroupID ∨ pc' = .moveEnter id dst) := by
  cases h with
  | moveToBase => exact ⟨rfl, .inl rfl⟩
  | moveTo => exact ⟨rfl, .inr rfl⟩

/-- Where no `Enter` and no `Leave` is queued, the session stays where it
is. -/
theorem Members.belongs_iff {e : ℕ × Event Buf} (h : Members index w)
    (h' : Slot.Sound index w'.onSlot) (hpc : w.threads[e.1]? = some pc)
    (ha : Action index w.shared pc e.2 w'.shared pc') (ht : w'.threads = w.threads.set e.1 pc')
    (hqueues : pc.queues = none) (g : GroupID) (id : SessionID) :
    Belongs w' g id ↔ Belongs w g id := by
  have hmem := List.mem_of_getElem? hpc
  have hmove := Pool.total_step Pc.between hpc ht
  -- a session in the base group is in none
  have hnot {v : World Buf} (hbase : v.shared.groupId = BaseGroupID) : ¬Belongs v g id :=
    fun hb => hb.notBase (hb.group.trans hbase)
  by_cases hset : ∃ i dst, pc = .moveSetGroup i dst
  · obtain ⟨i, dst, rfl⟩ := hset
    obtain ⟨hg, hdst⟩ := ha.setGroup
    have hpos : 0 < w.total Pc.between := Pool.le_total Pc.between hmem
    refine iff_of_false ?_ fun hb => absurd hb.settled hpos.ne'
    rcases hdst with hbase | rfl
    · exact hnot (hg.trans hbase)
    · have hpos' : 0 < w'.total Pc.between := Pool.le_total Pc.between (Pool.mem_threads hpc ht)
      exact fun hb => absurd hb.settled hpos'.ne'
  cases ha.names with
  | same hg hid =>
    by_cases hbase : w.shared.groupId = BaseGroupID
    · exact iff_of_false (hnot (hg.trans hbase)) (hnot hbase)
    · have halive := h.alive_iff h' hpc ha ht hqueues hbase
      have hbetween : w'.total Pc.between = w.total Pc.between := by
        rcases ha.between with heq | ⟨i, dst, -, hg'⟩ | hne | hset'
        · rw [heq] at hmove
          exact Nat.add_right_cancel hmove
        · exact absurd hg' hbase
        · exact absurd hqueues hne
        · exact absurd hset' hset
      constructor
      · rintro ⟨hown, hgroup, hne, hzero, hlive⟩
        exact ⟨hown.trans hid, hgroup.trans hg, hne, hbetween.symm.trans hzero, halive.1 hlive⟩
      · rintro ⟨hown, hgroup, hne, hzero, hlive⟩
        exact ⟨hown.trans hid.symm, hgroup.trans hg.symm, hne, hbetween.trans hzero,
          halive.2 hlive⟩
  | move hold => exact absurd ⟨_, _, hold⟩ hset
  | reset hold hg =>
    subst hold
    exact iff_of_false (hnot hg) fun hb =>
      not_alive h.releasing.sound (closed_pos hmem Nat.one_pos) hb.alive
  | name hold hg =>
    subst hold
    have hbase := h.reset _ hmem (.inr (.inl ⟨_, rfl⟩))
    exact iff_of_false (hnot (hg.trans hbase)) (hnot hbase)

/-- The threads that queue an `Enter` or a `Leave`, and where they come to. -/
theorem Action.queue {e : Event Buf} (h : Action index s pc e s' pc') (hqueues : pc.queues ≠ none) :
    (s'.groupId = s.groupId ∧ s'.slot = s.slot) ∧
      ((∃ i src dst, pc = .moveLeave i src dst ∧ pc' = .moveSetGroup i dst) ∨
        (∃ i dst, pc = .moveEnter i dst ∧ pc' = .slot none (.release (some i) .done)) ∨
        ∃ home src k, pc = .disconnectLeave home src k ∧ pc' = .slot home k.pc) := by
  cases h
  case moveLeave i src dst => exact ⟨⟨rfl, rfl⟩, .inl ⟨i, src, dst, rfl, rfl⟩⟩
  case moveEnter i dst => exact ⟨⟨rfl, rfl⟩, .inr (.inl ⟨i, dst, rfl, rfl⟩)⟩
  case disconnectLeave home src k => exact ⟨⟨rfl, rfl⟩, .inr (.inr ⟨home, src, k, rfl, rfl⟩)⟩
  all_goals exact absurd rfl hqueues

/-- A job queued for one session in one group. -/
theorem alternates_ite {m n hit : Prop} [Decidable hit] {b : Bool}
    (hm : hit → ¬(m ↔ b = true)) (hn : hit → (n ↔ b = true)) (hmiss : ¬hit → (m ↔ n)) :
    Alternates m (if hit then [b] else []) n := by
  by_cases h : hit
  · rw [if_pos h]
    exact .single (hm h) (hn h)
  · rw [if_neg h]
    exact hmiss h

/-- **An `Enter` or a `Leave` is queued where it changes something**: the
session is on its way into the group, or in it. -/
theorem Members.belongs_step {e : ℕ × Event Buf} (h : Members index w)
    (h' : Slot.Sound index w'.onSlot) (hpc : w.threads[e.1]? = some pc)
    (ha : Action index w.shared pc e.2 w'.shared pc') (ht : w'.threads = w.threads.set e.1 pc')
    (hmay : pc.MayMove w) (g : GroupID) (id : SessionID) :
    Alternates (Belongs w g id) (pc.queued w.shared g id) (Belongs w' g id) := by
  have hmem := List.mem_of_getElem? hpc
  have hmem' := Pool.mem_threads hpc ht
  have hsound := h.releasing.sound
  have hfits := h.releasing.fits pc hmem
  by_cases hqueues : pc.queues = none
  · have hnil : pc.queued w.shared g id = [] := by rw [Pc.queued, hqueues]
    rw [hnil]
    exact (h.belongs_iff h' hpc ha ht hqueues g id).symm
  obtain ⟨⟨hg, hslot⟩, ⟨i, src, dst, rfl, rfl⟩ | ⟨i, dst, rfl, rfl⟩ | ⟨home, src, k, rfl, rfl⟩⟩ :=
    ha.queue hqueues
  · -- out of its group, until the `Enter`
    obtain ⟨rfl, hzero⟩ := hmay
    have hpos : 0 < w'.total Pc.between := Pool.le_total Pc.between hmem'
    have hafter : ¬Belongs w' g id := fun hb => absurd hb.settled hpos.ne'
    have hopen := hsound.open_of_pinned (mem_onSlot hmem) Nat.one_pos
    refine alternates_ite (fun hhit hiff => ?_) (fun _ => iff_of_false hafter Bool.false_ne_true)
      fun hmiss => iff_of_false (fun hb => hmiss ⟨hb.group.symm, hb.own.symm⟩) hafter
    cases hiff.1 ⟨hhit.2.symm, hhit.1.symm, hhit.1 ▸ hfits, hzero, .inl hopen⟩
  · -- in its new group, from the `Enter` on
    obtain ⟨rfl, hne⟩ := h.entering i dst hmem
    have hone : 0 < w.total Pc.between := Pool.le_total Pc.between hmem
    have hmove : w'.total Pc.between + 1 = w.total Pc.between + 0 :=
      Pool.total_step Pc.between hpc ht
    have hle := h.one
    have hbefore : ¬Belongs w g id := fun hb => absurd hb.settled hone.ne'
    have hopen := hsound.open_of_pinned (mem_onSlot hmem) Nat.one_pos
    refine alternates_ite (fun _ hiff => hbefore (hiff.2 rfl)) (fun hhit => ?_) fun hmiss => ?_
    · refine iff_of_true ⟨?_, ?_, hhit.1 ▸ hne, by omega, .inl ?_⟩ rfl
      · rw [hslot]
        exact hhit.2.symm
      · rw [hg]
        exact hhit.1.symm
      · rw [hslot]
        exact hopen
    · refine iff_of_false hbefore fun hb => hmiss ⟨?_, ?_⟩
      · exact (hb.group.trans hg).symm
      · have hown := hb.own
        rw [hslot] at hown
        exact hown.symm
  · -- the last `Leave`
    obtain ⟨rfl, hne⟩ := hfits
    have howed : 0 < (Slot.life w.onSlot).owed :=
      lt_of_lt_of_le Nat.one_pos (owed_le Slot.Pc.owed hmem)
    have hrel := released_of_owed hsound howed
    have hzero : w.total Pc.between = 0 := by
      by_contra hpos
      exact absurd (open_of_between hsound (Nat.pos_of_ne_zero hpos)) (not_lt.2 hrel)
    have hpos : 0 < w.total Pc.disconnects := Pool.le_total Pc.disconnects hmem
    have hmove : w'.total Pc.disconnects + 1 = w.total Pc.disconnects + 0 :=
      Pool.total_step Pc.disconnects hpc ht
    have hle := total_disconnects_le (w := w)
    have hone := hsound.counted.one
    have hafter : ¬Belongs w' g id := by
      intro hb
      rcases hb.alive with hopen | hleft
      · rw [hslot] at hopen
        omega
      · omega
    refine alternates_ite (fun hhit hiff => ?_) (fun _ => iff_of_false hafter Bool.false_ne_true)
      fun hmiss => iff_of_false (fun hb => hmiss ⟨hb.group.symm, hb.own.symm⟩) hafter
    cases hiff.1 ⟨hhit.2.symm, hhit.1.symm, hhit.1 ▸ hne, hzero, .inr hpos⟩

/-- A thread comes between `Leave` and `Enter` where it may move the
session. -/
theorem Members.one_step {e : ℕ × Event Buf} (h : Members index w)
    (hpc : w.threads[e.1]? = some pc) (ha : Action index w.shared pc e.2 w'.shared pc')
    (ht : w'.threads = w.threads.set e.1 pc') (hmay : pc.MayMove w) : w'.total Pc.between ≤ 1 := by
  have hmove := Pool.total_step Pc.between hpc ht
  have hone := h.one
  have hlone : pc'.between ≤ 1 := by cases pc' <;> first | exact le_rfl | exact Nat.zero_le _
  rcases ha.between with heq | ⟨id, dst, rfl, hg⟩ | hne | ⟨id, dst, rfl⟩
  · omega
  · have hzero := hmay hg
    omega
  · obtain ⟨-, ⟨i, src, dst, rfl, rfl⟩ | ⟨i, dst, rfl, rfl⟩ | ⟨home, src, k, rfl, rfl⟩⟩ :=
      ha.queue hne
    · obtain ⟨-, hzero⟩ := hmay
      omega
    · exact le_trans (Nat.le_of_succ_le hmove.le) hone
    · exact hmove.le.trans hone
  · change w'.total Pc.between + 1 = w.total Pc.between + pc'.between at hmove
    omega

theorem Action.entering {e : Event Buf} (h : Action index s pc e s' pc') {id : SessionID}
    {dst : GroupID} (hnew : pc' = .moveEnter id dst) : dst = s'.groupId ∧ dst ≠ BaseGroupID := by
  cases h
  case slot home q q' ev r _ _ =>
    unfold enter at hnew
    split at hnew <;> cases hnew
  case dequeue g job _ => cases job <;> cases hnew
  case moveTo hg =>
    cases hnew
    exact ⟨rfl, hg⟩
  all_goals cases hnew

/-- A slot without a session stays in the base group. -/
theorem Members.base_kept {e : ℕ × Event Buf} (h : Members index w)
    (hpc : w.threads[e.1]? = some pc) (ha : Action index w.shared pc e.2 w'.shared pc')
    (hcl : 0 < (Slot.life w.onSlot).closed) (hbase : w.shared.groupId = BaseGroupID) :
    w'.shared.groupId = BaseGroupID := by
  cases ha.names with
  | same hg | name _ hg => exact hg.trans hbase
  | reset _ hg => exact hg
  | move hold =>
    subst hold
    have := closed_eq_zero h.releasing.sound (List.mem_of_getElem? hpc) Nat.one_pos
    omega

/-- The group a thread is about to enter the session in is the one it has
set. -/
theorem Members.entering_step {e : ℕ × Event Buf} (h : Members index w)
    (hpc : w.threads[e.1]? = some pc) (ha : Action index w.shared pc e.2 w'.shared pc')
    (ht : w'.threads = w.threads.set e.1 pc') {id : SessionID} {dst : GroupID}
    (hmem : .moveEnter id dst ∈ w'.threads) : dst = w'.shared.groupId ∧ dst ≠ BaseGroupID := by
  refine Pool.forall_threads_of_others (P := fun q => q = .moveEnter id dst →
    dst = w'.shared.groupId ∧ dst ≠ BaseGroupID) ht (fun j q hij hq heq => ?_) ha.entering _ hmem
    rfl
  subst heq
  obtain ⟨hdst, hne⟩ := h.entering id dst (List.mem_of_getElem? hq)
  refine ⟨?_, hne⟩
  cases ha.names with
  | same hg | name _ hg => exact hdst.trans hg.symm
  | move hold =>
    -- two threads between `Leave` and `Enter`
    subst hold
    cases Pool.eq_zero_of_other h.one hij hpc hq
  | reset hold =>
    subst hold
    have hzero := closed_eq_zero h.releasing.sound (List.mem_of_getElem? hq) Nat.one_pos
    have hpos := closed_pos (List.mem_of_getElem? hpc) Nat.one_pos
    omega

/-- **Every step keeps the invariant**, where the moves of the session are
apart. -/
theorem Members.step {e : ℕ × Event Buf} (h : Members index w)
    (hst : Grouped.step index w e = some w') (hok : Apart w e w') : Members index w' := by
  obtain ⟨pc, pc', hpc, hnext, ht⟩ := Pool.step_eq_some hst
  have hmem := List.mem_of_getElem? hpc
  have ha := next_action hnext
  have hmay := hok.2 pc hpc
  have hr := h.releasing.step hst hok.1
  have hkept (hq : pc.IsReset ∨ 0 < w.shared.slot.free) : w'.shared.groupId = BaseGroupID := by
    rcases hq with hq | hfree
    · exact h.base_kept hpc ha (closed_pos hmem (hq.closed ▸ Nat.one_pos)) (h.reset pc hmem hq)
    · exact h.base_kept hpc ha (closed_of_free hfree) (h.free hfree)
  refine ⟨hr, h.exclusive.step hpc ha ht, h.one_step hpc ha ht hmay,
    fun id dst => h.entering_step hpc ha ht, fun hfree => hkept (ha.free hfree).symm,
    Pool.forall_threads ht (fun q hq hreset => ?_) fun hreset => ?_, fun g id => ?_⟩
  · exact h.base_kept hpc ha (closed_pos hq (hreset.closed ▸ Nat.one_pos)) (h.reset q hq hreset)
  · rcases ha.isReset hreset with hold | hfree | hbase
    · exact hkept (.inl hold)
    · exact hkept (.inr hfree)
    · exact hbase
  · have hjobs := h.jobs g id
    have hbelongs := h.belongs_step hr.sound hpc ha ht hmay g id
    cases h.exclusive.progress hpc ha ht g id with
    | queue htodo hmem' =>
      rw [htodo, hmem']
      exact hjobs.append hbelongs
    | done b hqueued htodo hmem' =>
      rw [hqueued] at hbelongs
      rw [htodo] at hjobs
      rw [hmem', propext hbelongs.symm]
      exact hjobs.2

/-! ## A group's sessions -/

/-- A `Leave` finds its session, and with nothing left to do the session is
in its own group and in no other. -/
structure Consistent (w : World Buf) : Prop where
  leave : ∀ g id last, .erase g id last ∈ w.threads → id ∈ w.shared.sessions g
  members : w.shared.slot.refCount < RELEASE_FLAG → w.shared.jobs = [] →
    (∀ pc ∈ w.threads, pc.between = 0 ∧ ∀ g, pc.todo g w.shared.slot.sessionId = []) →
      ∀ g, w.shared.slot.sessionId ∈ w.shared.sessions g ↔
        g = w.shared.groupId ∧ g ≠ BaseGroupID

/-- **Who is in a group**, in every run in which the moves of a session are
apart. -/
theorem sessions_consistent [Inhabited Buf] {n : ℕ}
    (h : Runs (Grouped.step index) Apart (World.initial n : World Buf) w) : Consistent w := by
  have hmembers : Members index w :=
    h.invariant (.initial n) fun hm hst hok => hm.step hst hok
  constructor
  · intro g id last hmem
    obtain ⟨i, hi⟩ := List.mem_iff_getElem?.1 hmem
    have htodo : w.todo g id = false :: w.shared.jobs.flatMap (jobTodo g id) := by
      rw [World.todo, hmembers.exclusive.todo_threads hi rfl, Pc.todo, if_pos ⟨rfl, rfl⟩]
      rfl
    have hjobs := hmembers.jobs g id
    rw [htodo] at hjobs
    by_contra hout
    exact hjobs.1 (iff_of_false hout Bool.false_ne_true)
  · intro hopen hjobs hidle g
    have htodo : w.todo g w.shared.slot.sessionId = [] := by
      rw [World.todo, hjobs]
      exact List.append_eq_nil_iff.2
        ⟨List.flatMap_eq_nil_iff.2 fun pc hpc => (hidle pc hpc).2 g, rfl⟩
    have hmem := hmembers.jobs g w.shared.slot.sessionId
    rw [htodo] at hmem
    have hbetween : w.total Pc.between = 0 := Pool.total_eq_zero fun pc hpc => (hidle pc hpc).1
    refine hmem.trans (Iff.intro (fun hb => ⟨hb.group, hb.notBase⟩) ?_)
    rintro ⟨hg, hne⟩
    exact ⟨rfl, hg, hne, hbetween, .inl hopen⟩

/-- Thread `t` finds the session and comes to `MoveSession`. -/
def calling (t : ℕ) (dst : GroupID) : List (ℕ × Event ℕ) :=
  (t, .slot (.hold ⟨1, 7⟩)) :: going t 2 ++ [(t, .moveSession dst)]

/-- Thread 0 takes `n` steps in the `Update` of `g`. -/
def updating (g : GroupID) (n : ℕ) : List (ℕ × Event ℕ) := (0, .update g) :: going 0 n

/-- Two threads move a session one after the other, to group 1 and on to
group 2, and the groups handle it. -/
def movesApart : List (ℕ × Event ℕ) :=
  accepting ++ calling 1 1 ++ going 1 4 ++ calling 2 2 ++ going 2 5 ++ updating 1 9 ++ updating 2 5

theorem sessions_consistent_movesApart : ∃ w : World ℕ,
    exec (Grouped.step 7) (World.initial 3) movesApart = some w ∧ Consistent w ∧
      w.shared.groupId = 2 ∧ w.shared.jobs = [] ∧ ⟨1, 7⟩ ∉ w.shared.sessions 1 ∧
      ⟨1, 7⟩ ∈ w.shared.sessions 2 := by
  obtain ⟨w, hw, heq⟩ := Option.map_eq_some_iff.1 (show
    (exec (Grouped.step 7) (World.initial 3) movesApart).map (fun w => (w.shared.groupId,
      w.shared.jobs, decide (⟨1, 7⟩ ∈ w.shared.sessions 1),
      decide (⟨1, 7⟩ ∈ w.shared.sessions 2))) = some (2, [], false, true) by rfl)
  obtain ⟨hg, hjobs, hout, hin⟩ : _ ∧ _ ∧ _ ∧ _ := by simpa using heq
  have hrun : Runs (Grouped.step 7) Apart (World.initial 3) w :=
    runs_of_exec hw (by decide +kernel)
  exact ⟨w, hw, sessions_consistent hrun, hg, hjobs, hout, hin⟩

/-- Two threads read that a session is in group 1, and move it to groups 2 and
3. Group 1 handles the first `Leave` and comes to the second. -/
def twoLeaves : List (ℕ × Event ℕ) :=
  accepting ++ moving 1 4 ++ updating 1 5 ++ calling 1 2 ++ calling 2 3 ++ going 1 1 ++ going 2 1 ++
    going 1 4 ++ going 2 4 ++ updating 1 5

/-- Two threads read that a session is in the base group, and move it to
groups 1 and 2, which handle it. -/
def twoEnters : List (ℕ × Event ℕ) :=
  accepting ++ calling 1 1 ++ calling 2 2 ++ going 1 1 ++ going 2 1 ++ going 1 3 ++ going 2 3 ++
    updating 1 5 ++ updating 2 5

/-- **Two moves at once take a session out of its group twice**, or into two
groups: `erase` finds nothing for the second `Leave` and the thread breaks;
or, with no job left, the session is in a group that is not its own. -/
theorem two_moves_at_once :
    (∃ w : World ℕ, exec (Grouped.step 7) (World.initial 3) twoLeaves = some w ∧
      .erase 1 ⟨1, 7⟩ false ∈ w.threads ∧ ⟨1, 7⟩ ∉ w.shared.sessions 1 ∧ ¬Consistent w) ∧
    ∃ w : World ℕ, exec (Grouped.step 7) (World.initial 3) twoEnters = some w ∧
      w.shared.jobs = [] ∧ w.threads = List.replicate 3 (.slot none .idle) ∧
      w.shared.groupId = 2 ∧ ⟨1, 7⟩ ∈ w.shared.sessions 1 ∧ ¬Consistent w := by
  constructor
  · obtain ⟨w, hw, heq⟩ := Option.map_eq_some_iff.1 (show
      (exec (Grouped.step 7) (World.initial 3) twoLeaves).map (fun w => (w.threads,
        decide (⟨1, 7⟩ ∈ w.shared.sessions 1))) =
      some ([.erase 1 ⟨1, 7⟩ false, .slot none .idle, .slot none .idle], false) by rfl)
    obtain ⟨hthreads, hout⟩ : _ ∧ _ := by simpa using heq
    have hmem : .erase 1 ⟨1, 7⟩ false ∈ w.threads := hthreads ▸ List.mem_cons_self
    exact ⟨w, hw, hmem, hout, fun hc => hout (hc.leave 1 ⟨1, 7⟩ false hmem)⟩
  · obtain ⟨w, hw, heq⟩ := Option.map_eq_some_iff.1 (show
      (exec (Grouped.step 7) (World.initial 3) twoEnters).map (fun w => (w.shared.jobs, w.threads,
        w.shared.groupId, w.shared.slot.sessionId, w.shared.slot.refCount,
        decide (⟨1, 7⟩ ∈ w.shared.sessions 1))) =
      some ([], List.replicate 3 (.slot none .idle), 2, ⟨1, 7⟩, 1, true) by rfl)
    obtain ⟨hjobs, hthreads, hg, hid, hcount, hin⟩ : _ ∧ _ ∧ _ ∧ _ ∧ _ ∧ _ := by simpa using heq
    refine ⟨w, hw, hjobs, hthreads, hg, hin, fun hc => ?_⟩
    have hidle : ∀ pc ∈ w.threads, pc.between = 0 ∧
        ∀ g, pc.todo g w.shared.slot.sessionId = [] := by
      intro pc hpc
      rw [hthreads] at hpc
      obtain rfl : pc = .slot none .idle := by simpa using hpc
      exact ⟨rfl, fun g => rfl⟩
    have hmem := hc.members (by rw [hcount]; decide) hjobs hidle 1
    rw [hid, hg] at hmem
    exact absurd (hmem.1 hin).1 (by decide)

end Grouped

end NetLib
