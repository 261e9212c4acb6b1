import NetLib.Group.Steps
import NetLib.Slot.Parting
/-!
# A session in a group is released once

`CheckPostRelease` runs for every `Leave` job, and tells the last one of a
session by three reads: the group, the id, and the release flag. A `Leave`
of an earlier move passes all three if the session has come back to the
group, and is released, before the job is handled. Where no such job is left
when the session is released, the last `Leave` alone calls `PostRelease`.
-/

namespace NetLib

namespace Grouped

variable {Buf : Type} {index : ℕ} {s s' : Grouped Buf} {w w' : World Buf} {pc pc' : Pc Buf}

/-! ## The `Leave` jobs of moves -/

/-- A `Leave` that a move has queued, in hand and not yet compared with the
session's group. -/
def Pc.leaving : Pc Buf → Option (GroupID × SessionID)
  | .erase g id false | .onLeave g id false | .checkGroup g id false => some (g, id)
  | _ => none

/-- One whose group was found to be the session's, before it reads the
counter. -/
def Pc.checking : Pc Buf → Option SessionID
  | .checkId _ id false | .checkRef _ id false => some id
  | _ => none

/-- No `Leave` of an earlier move of the session is left to its group, nor is
one between the comparison of the group and the read of the counter. -/
structure Clean (w : World Buf) : Prop where
  queued : (w.shared.groupId, .Leave w.shared.slot.sessionId false) ∉ w.shared.jobs
  leaving : ∀ q ∈ w.threads, q.leaving ≠ some (w.shared.groupId, w.shared.slot.sessionId)
  checking : ∀ q ∈ w.threads, q.checking ≠ some w.shared.slot.sessionId

instance decidableClean (w : World Buf) : Decidable (Clean w) :=
  decidable_of_iff
    ((w.shared.groupId, .Leave w.shared.slot.sessionId false) ∉ w.shared.jobs ∧
      (∀ q ∈ w.threads, q.leaving ≠ some (w.shared.groupId, w.shared.slot.sessionId)) ∧
      ∀ q ∈ w.threads, q.checking ≠ some w.shared.slot.sessionId)
    ⟨fun h => ⟨h.1, h.2.1, h.2.2⟩, fun h => ⟨h.queued, h.leaving, h.checking⟩⟩

/-- Is the thread at the exchange in `Release`? -/
def Pc.exchanges : Pc Buf → Bool
  | .slot _ (.releaseCas _) => true
  | _ => false

/-- The session is released only where its earlier moves are settled. -/
def Settled (w : World Buf) (e : ℕ × Event Buf) (w' : World Buf) : Prop :=
  Slot.FewRefs w'.onSlot ∧
    ∀ pc ∈ w.threads[e.1]?, pc.exchanges = true → w.shared.slot.refCount = 0 → Clean w

instance decidableSettled (w : World Buf) (e : ℕ × Event Buf) (w' : World Buf) :
    Decidable (Settled w e w') :=
  inferInstanceAs (Decidable (_ ∧ _))

/-! ## What an action does to names and jobs -/

theorem observe_eq (s : Grouped Buf) (q : Slot.Pc Buf) :
    ∃ c p, s.observe q = { s with callbacks := c, pushed := p } := by
  unfold observe
  split
  · exact ⟨_, _, rfl⟩
  · exact ⟨_, _, rfl⟩
  · exact ⟨_, _, rfl⟩

/-- The group and the id change at `SetGroupID`, in `MoveSession` and in
`Reset`, and at `SetSessionId`. -/
inductive Names (s : Grouped Buf) (pc : Pc Buf) (s' : Grouped Buf) : Prop
  | same (hg : s'.groupId = s.groupId) (hid : s'.slot.sessionId = s.slot.sessionId)
  | move {id : SessionID} {dst : GroupID} (hold : pc = .moveSetGroup id dst)
    (hg : s'.groupId = dst) (hid : s'.slot.sessionId = s.slot.sessionId)
  | reset {r : Slot.Resetter} (hold : pc = .resetGroup r) (hg : s'.groupId = BaseGroupID)
    (hid : s'.slot.sessionId = s.slot.sessionId)
  | name {home : Option GroupID} {id : SessionID} (hold : pc = .slot home (.acceptSetId id))
    (hg : s'.groupId = s.groupId) (hid : s'.slot.sessionId = id)

theorem Action.names {e : Event Buf} (h : Action index s pc e s' pc') : Names s pc s' := by
  cases h
  case slot home q q' e r hnext _ =>
    obtain ⟨c, p, hobs⟩ := observe_eq s q
    rw [hobs]
    rcases (Slot.next_naming hnext).sessionId_cases with hid | ⟨id, rfl, hid⟩
    · exact .same rfl hid
    · exact .name rfl rfl hid
  case moveToBase | moveTo => exact .move rfl rfl rfl
  case resetAccept | resetRelease => exact .reset rfl rfl rfl
  all_goals exact .same rfl rfl

theorem Action.accepted {e : Event Buf} (h : Action index s pc e s' pc') {id : SessionID}
    (hid : id ∈ s.slot.accepted) : id ∈ s'.slot.accepted := by
  cases h
  case slot hnext _ => exact (Slot.next_naming hnext).accepted_mem hid
  all_goals exact hid

/-- Where a `Leave` job comes from. -/
theorem Action.leave_jobs {e : Event Buf} (h : Action index s pc e s' pc') {g : GroupID}
    {id : SessionID} {last : Bool} (hx : (g, .Leave id last) ∈ s'.jobs) :
    (g, .Leave id last) ∈ s.jobs ∨
      (last = false ∧ id = s.slot.sessionId ∧ ∃ i dst, pc = .moveLeave i g dst) ∨
      last = true ∧ id = s.slot.sessionId ∧ ∃ home k, pc = .disconnectLeave home g k := by
  cases h
  case slot home q q' e r hnext _ =>
    obtain ⟨c, p, hobs⟩ := observe_eq s q
    rw [hobs] at hx
    exact .inl hx
  case dequeue => exact .inl (List.mem_of_mem_eraseP hx)
  case moveLeave i src dst =>
    rcases List.mem_append.1 hx with hx | hx
    · exact .inl hx
    · obtain ⟨rfl, hjob⟩ := Prod.mk.inj (List.mem_singleton.1 hx)
      obtain ⟨rfl, rfl⟩ := GroupJob.Leave.inj hjob
      exact .inr (.inl ⟨rfl, rfl, i, dst, rfl⟩)
  case disconnectLeave home src k =>
    rcases List.mem_append.1 hx with hx | hx
    · exact .inl hx
    · obtain ⟨rfl, hjob⟩ := Prod.mk.inj (List.mem_singleton.1 hx)
      obtain ⟨rfl, rfl⟩ := GroupJob.Leave.inj hjob
      exact .inr (.inr ⟨rfl, rfl, home, k, rfl⟩)
  case moveEnter | enqueueRecv =>
    rcases List.mem_append.1 hx with hx | hx
    · exact .inl hx
    · cases (Prod.mk.inj (List.mem_singleton.1 hx)).2
  all_goals exact .inl hx

theorem enter_leaving (home : Option GroupID) (q q' : Slot.Pc Buf) :
    (enter home q q').leaving = none ∧ (enter home q q').checking = none := by
  unfold enter
  split <;> exact ⟨rfl, rfl⟩

/-- How a move's `Leave` gets into a thread's hand. -/
theorem Action.leaving {e : Event Buf} (h : Action index s pc e s' pc') {g : GroupID}
    {id : SessionID} (hl : pc'.leaving = some (g, id)) :
    pc.leaving = some (g, id) ∨ (g, .Leave id false) ∈ s.jobs := by
  cases h
  case slot home q q' e r hnext _ =>
    rw [(enter_leaving home q q').1] at hl
    cases hl
  case dequeue g' job hfind =>
    cases job with
    | Recv | Enter => cases hl
    | Leave i last =>
      cases last with
      | true => cases hl
      | false =>
        obtain ⟨rfl, rfl⟩ := Prod.mk.inj (Option.some.inj hl)
        exact .inr (List.mem_of_find?_eq_some hfind)
  case erase last _ => cases last <;> exact .inl hl
  case onLeave last => cases last <;> exact .inl hl
  case ownGroup last _ => cases last <;> cases hl
  case ownId last _ => cases last <;> cases hl
  case checkRef last => cases last <;> cases hl
  case isReleased last _ _ _ => cases last <;> cases hl
  all_goals cases hl

/-- How it gets past the comparison of the group. -/
theorem Action.checking {e : Event Buf} (h : Action index s pc e s' pc') {id : SessionID}
    (hc : pc'.checking = some id) :
    pc.checking = some id ∨ pc.leaving = some (s.groupId, id) := by
  cases h
  case slot home q q' e r hnext _ =>
    rw [(enter_leaving home q q').2] at hc
    cases hc
  case dequeue g' job hfind =>
    cases job with
    | Recv | Enter => cases hc
    | Leave i last => cases last <;> cases hc
  case erase last _ => cases last <;> cases hc
  case onLeave last => cases last <;> cases hc
  case ownGroup g i last hg =>
    cases last with
    | true => cases hc
    | false =>
      obtain rfl := Option.some.inj hc
      exact .inr (by rw [hg]; rfl)
  case ownId last _ => cases last <;> exact .inl hc
  case checkRef last => cases last <;> cases hc
  case isReleased last _ _ _ => cases last <;> cases hc
  all_goals cases hc

/-! ## What a thread has to go by -/

/-- What a thread has from its own reads and its job: the last `Leave` is one
of the session in the slot, and so is its way there; a move's `Leave` is of a
session accepted once, and past the comparison of the counter only if that
session is no longer in the slot. -/
def Pc.Fits (s : Grouped Buf) : Pc Buf → Prop
  | .disconnectSrc _ _ => s.groupId ≠ BaseGroupID
  | .disconnectLeave _ src _ => src = s.groupId ∧ src ≠ BaseGroupID
  | .moveLeave _ src _ => src ≠ BaseGroupID
  | .erase g id true | .onLeave g id true | .checkGroup g id true | .checkId g id true
  | .checkRef g id true | .checkPost g id true => g = s.groupId ∧ id = s.slot.sessionId
  | .checkAssert g id true value =>
    (g = s.groupId ∧ id = s.slot.sessionId) ∧ RELEASE_FLAG ≤ value
  | .erase g id false | .onLeave g id false | .checkGroup g id false =>
    g ≠ BaseGroupID ∧ id ∈ s.slot.accepted
  | .checkId _ id false | .checkRef _ id false => id ∈ s.slot.accepted
  | .checkAssert _ id false value =>
    id ∈ s.slot.accepted ∧ (value < RELEASE_FLAG ∨ id ≠ s.slot.sessionId)
  | .checkPost _ _ false => False
  | _ => True

theorem Pc.Fits.due (h : pc.Fits s) : pc.Due s := by
  cases pc with
  | disconnectSrc => exact h
  | checkGroup g id last =>
    cases last with
    | false => trivial
    | true => exact h.1.symm
  | checkId g id last =>
    cases last with
    | false => trivial
    | true => exact h.2.symm
  | checkAssert g id last value =>
    cases last with
    | false => trivial
    | true => exact h.2
  | checkPost g id last =>
    cases last with
    | false => exact h.elim
    | true => rfl
  | _ => trivial

/-- **It stays true** where neither the group nor the id changes, or where
the thread is not on the way to `PostRelease` and no old id comes back. -/
theorem Pc.Fits.mono (h : pc.Fits s) (hacc : ∀ id ∈ s.slot.accepted, id ∈ s'.slot.accepted)
    (hnames : s'.groupId = s.groupId ∧ s'.slot.sessionId = s.slot.sessionId ∨
      pc.onSlot.owed = 0 ∧
        ∀ id ∈ s.slot.accepted, s'.slot.sessionId = id → s.slot.sessionId = id) : pc.Fits s' := by
  rcases hnames with ⟨hg, hid⟩ | ⟨howed, hback⟩
  · cases pc with
    | erase g id last | onLeave g id last | checkGroup g id last =>
      cases last with
      | false => exact ⟨h.1, hacc id h.2⟩
      | true => exact ⟨h.1.trans hg.symm, h.2.trans hid.symm⟩
    | checkId g id last | checkRef g id last =>
      cases last with
      | false => exact hacc id h
      | true => exact ⟨h.1.trans hg.symm, h.2.trans hid.symm⟩
    | checkAssert g id last value =>
      cases last with
      | false => exact ⟨hacc id h.1, h.2.imp_right fun hne heq => hne (heq.trans hid)⟩
      | true => exact ⟨⟨h.1.1.trans hg.symm, h.1.2.trans hid.symm⟩, h.2⟩
    | checkPost g id last =>
      cases last with
      | false => exact h.elim
      | true => exact ⟨h.1.trans hg.symm, h.2.trans hid.symm⟩
    | disconnectSrc => exact fun heq => h (hg.symm.trans heq)
    | disconnectLeave => exact ⟨h.1.trans hg.symm, h.2⟩
    | moveLeave => exact h
    | _ => trivial
  · cases pc with
    | erase g id last | onLeave g id last | checkGroup g id last =>
      cases last with
      | false => exact ⟨h.1, hacc id h.2⟩
      | true => cases howed
    | checkId g id last | checkRef g id last =>
      cases last with
      | false => exact hacc id h
      | true => cases howed
    | checkAssert g id last value =>
      cases last with
      | false =>
        exact ⟨hacc id h.1, h.2.imp_right fun hne heq => hne (hback id h.1 heq.symm).symm⟩
      | true => cases howed
    | checkPost g id last =>
      cases last with
      | false => exact h.elim
      | true => cases howed
    | disconnectSrc | disconnectLeave => cases howed
    | moveLeave => exact h
    | _ => trivial

/-! ## The invariant -/

/-- The slot below is sound, a released session has no `Leave` of its earlier
moves left that could pass for the last one, and every thread and every job
is what it passes for. -/
structure Releasing (index : ℕ) (w : World Buf) : Prop where
  sound : Slot.Sound index w.onSlot
  clean : RELEASE_FLAG ≤ w.shared.slot.refCount → Clean w
  fits : ∀ pc ∈ w.threads, pc.Fits w.shared
  lastJob : ∀ g id, (g, .Leave id true) ∈ w.shared.jobs →
    g = w.shared.groupId ∧ id = w.shared.slot.sessionId
  job : ∀ g id last, (g, .Leave id last) ∈ w.shared.jobs →
    g ≠ BaseGroupID ∧ id ∈ w.shared.slot.accepted

theorem Releasing.initial [Inhabited Buf] (n : ℕ) :
    Releasing index (World.initial n : World Buf) := by
  have hslot : (World.initial n : World Buf).onSlot = Slot.World.initial n := by
    simp only [World.onSlot, World.initial, Grouped.initial, List.map_replicate, List.map_nil,
      List.append_nil]
    rfl
  have hidle := World.initial_idle Buf n
  refine ⟨hslot ▸ .initial n, fun _ => ⟨List.not_mem_nil, fun q hq => ?_, fun q hq => ?_⟩,
    fun q hq => ?_, fun g id hx => (List.not_mem_nil hx).elim,
    fun g id last hx => (List.not_mem_nil hx).elim⟩
  · simp [hidle q hq, Pc.leaving]
  · simp [hidle q hq, Pc.checking]
  · rw [hidle q hq]
    trivial

/-- A session whose `PostRelease` is owed is released. -/
theorem released_of_owed (h : Slot.Sound index w.onSlot)
    (howed : 0 < (Slot.life w.onSlot).owed) : RELEASE_FLAG ≤ w.shared.slot.refCount := by
  by_contra hopen
  have := h.open_iff.1 (not_le.1 hopen)
  omega

/-- And it is the session accepted last. -/
theorem accepted_of_owed (h : Slot.Sound index w.onSlot)
    (howed : 0 < (Slot.life w.onSlot).owed) :
    w.shared.slot.sessionId ∈ w.shared.slot.accepted := by
  have hone := h.counted.one
  have hlog := h.logged
  rw [Lifecycle.Logged, if_pos (by omega)] at hlog
  rw [show w.shared.slot.accepted = _ from hlog]
  exact List.mem_append_right _ List.mem_cons_self

theorem owed_le (f : Slot.Pc Buf → ℕ) (hpc : pc ∈ w.threads) : f pc.onSlot ≤ w.onSlot.total f :=
  Pool.le_total f (mem_onSlot hpc)

/-- Where the group or the id changes, nobody owes a `PostRelease`. -/
theorem owed_eq_zero (h : Slot.Sound index w.onSlot) (hpc : pc ∈ w.threads)
    (hchange : 0 < pc.onSlot.pinned ∨ 0 < pc.onSlot.closed) : (Slot.life w.onSlot).owed = 0 := by
  have hone := h.counted.one
  have hpinned := h.counted.pinned
  have hpin := owed_le Slot.Pc.pinned hpc
  have hcl := owed_le Slot.Pc.closed hpc
  simp only [Slot.life] at hone hpinned ⊢
  rcases hchange with hpos | hpos
  · have := hpinned (by omega)
    omega
  · omega

/-- What a step may do to names, for the threads and jobs that go by them. -/
theorem Releasing.names_step {e : ℕ × Event Buf} (h : Releasing index w)
    (hpc : w.threads[e.1]? = some pc) (ha : Action index w.shared pc e.2 w'.shared pc') :
    w'.shared.groupId = w.shared.groupId ∧
        w'.shared.slot.sessionId = w.shared.slot.sessionId ∨
      (Slot.life w.onSlot).owed = 0 ∧ ∀ id ∈ w.shared.slot.accepted,
        w'.shared.slot.sessionId = id → w.shared.slot.sessionId = id := by
  have hmem := List.mem_of_getElem? hpc
  cases ha.names with
  | same hg hid => exact .inl ⟨hg, hid⟩
  | move hold hg hid =>
    refine .inr ⟨owed_eq_zero h.sound hmem (.inl ?_), fun id _ heq => hid ▸ heq⟩
    rw [hold]
    exact Nat.one_pos
  | reset hold hg hid =>
    refine .inr ⟨owed_eq_zero h.sound hmem (.inr ?_), fun id _ heq => hid ▸ heq⟩
    rw [hold]
    exact Nat.one_pos
  | name hold hg hid =>
    refine .inr ⟨owed_eq_zero h.sound hmem (.inr ?_), fun i hi heq => ?_⟩
    · rw [hold]
      exact Nat.one_pos
    · obtain ⟨-, -, hlt⟩ := h.sound.fresh _ (mem_onSlot hmem) _ (by rw [hold]; rfl)
      have := hlt i hi
      rw [← heq, hid] at this
      exact absurd this (lt_irrefl _)

theorem enter_fits (home : Option GroupID) (q q' : Slot.Pc Buf) : (enter home q q').Fits s := by
  unfold enter
  split <;> trivial

/-- What a thread comes to go by, it has from what it went by before, from
the job it takes, and from what it reads. -/
theorem Action.fits {e : Event Buf} (h : Action index s pc e s' pc') (hfits : pc.Fits s)
    (hjob : ∀ g id last, (g, .Leave id last) ∈ s.jobs → (Pc.erase g id last : Pc Buf).Fits s)
    (hrel : 0 < pc.onSlot.owed → RELEASE_FLAG ≤ s.slot.refCount)
    (hchk : ∀ id, pc.checking = some id → RELEASE_FLAG ≤ s.slot.refCount →
      id ≠ s.slot.sessionId) : pc'.Fits s' := by
  cases h
  case slot home q q' e r hnext _ => exact enter_fits home q q'
  case dequeue g job hfind =>
    cases job with
    | Recv | Enter => trivial
    | Leave id last =>
      have := hjob g id last (List.mem_of_find?_eq_some hfind)
      cases last <;> exact this
  case releaseOther hg => exact hg
  case disconnectSrc hg => exact ⟨rfl, hg⟩
  case moveFrom hg => exact hg
  case erase last _ => cases last <;> exact hfits
  case onLeave last => cases last <;> exact hfits
  case ownGroup last _ =>
    cases last with
    | false => exact hfits.2
    | true => exact hfits
  case ownId last _ => cases last <;> exact hfits
  case checkRef g id last =>
    cases last with
    | true => exact ⟨hfits, hrel Nat.one_pos⟩
    | false =>
      refine ⟨hfits, ?_⟩
      rcases lt_or_ge s.slot.refCount RELEASE_FLAG with hopen | hflag
      · exact .inl hopen
      · exact .inr (hchk id rfl hflag)
  case isReleased last _ hid hflag =>
    cases last with
    | true => exact hfits.1
    | false =>
      rcases hfits.2 with hopen | hne
      · exact absurd hflag (not_le.2 hopen)
      · exact absurd hid.symm hne
  all_goals trivial

/-- Is the thread about to queue a `Leave`, or to change the group? -/
def Pc.moves : Pc Buf → Bool
  | .moveLeave _ _ _ | .moveSetGroup _ _ => true
  | _ => false

/-- **What is clean stays clean**, but for a move. -/
theorem Releasing.clean_step {e : ℕ × Event Buf} (h : Releasing index w)
    (hpc : w.threads[e.1]? = some pc) (ha : Action index w.shared pc e.2 w'.shared pc')
    (ht : w'.threads = w.threads.set e.1 pc') (hclean : Clean w) (hmove : pc.moves = false) :
    Clean w' := by
  have hmem := List.mem_of_getElem? hpc
  have hback : ∀ id ∈ w.shared.slot.accepted, w'.shared.slot.sessionId = id →
      w.shared.slot.sessionId = id := by
    rcases h.names_step hpc ha with ⟨-, hid⟩ | ⟨-, hback⟩
    · exact fun id _ heq => hid ▸ heq
    · exact hback
  have hgroup : w'.shared.groupId = w.shared.groupId ∨ w'.shared.groupId = BaseGroupID := by
    cases ha.names with
    | same hg | name _ hg => exact .inl hg
    | reset _ hg => exact .inr hg
    | move hold => rw [hold] at hmove; cases hmove
  have hjobs {g : GroupID} {id : SessionID} (hx : (g, .Leave id false) ∈ w'.shared.jobs) :
      (g, .Leave id false) ∈ w.shared.jobs := by
    rcases ha.leave_jobs hx with hx | ⟨-, -, i, dst, hold⟩ | ⟨hlast, -⟩
    · exact hx
    · rw [hold] at hmove
      cases hmove
    · cases hlast
  -- what cannot be the session's own cannot become it
  have hown {g : GroupID} {id : SessionID} (hg : g ≠ BaseGroupID)
      (hid : id ∈ w.shared.slot.accepted)
      (hne : (g, id) ≠ (w.shared.groupId, w.shared.slot.sessionId)) :
      (g, id) ≠ (w'.shared.groupId, w'.shared.slot.sessionId) := by
    intro heq
    obtain ⟨rfl, rfl⟩ := Prod.mk.inj heq
    rcases hgroup with hsame | hbase
    · exact hne (by rw [hsame, hback _ hid rfl])
    · exact hg hbase
  have hleaving {q : Pc Buf} (hq : q ∈ w.threads) {g : GroupID} {id : SessionID}
      (hl : q.leaving = some (g, id)) : g ≠ BaseGroupID ∧ id ∈ w.shared.slot.accepted := by
    have hfits := h.fits q hq
    unfold Pc.leaving at hl
    split at hl
    case h_4 => cases hl
    all_goals
      obtain ⟨rfl, rfl⟩ := Prod.mk.inj (Option.some.inj hl)
      exact hfits
  have hchecking {q : Pc Buf} (hq : q ∈ w.threads) {id : SessionID}
      (hc : q.checking = some id) : id ∈ w.shared.slot.accepted := by
    have hfits := h.fits q hq
    unfold Pc.checking at hc
    split at hc
    case h_3 => cases hc
    all_goals
      obtain rfl := Option.some.inj hc
      exact hfits
  refine ⟨fun hx => ?_, Pool.forall_threads ht (fun q hq hl => ?_) fun hl => ?_,
    Pool.forall_threads ht (fun q hq hc => ?_) fun hc => ?_⟩
  · have hold := hjobs hx
    obtain ⟨hg, hid⟩ := h.job _ _ _ hold
    exact hown hg hid (fun heq => hclean.queued (by
      obtain ⟨hg', hid'⟩ := Prod.mk.inj heq
      rw [← hg', ← hid']
      exact hold)) rfl
  · obtain ⟨hg, hid⟩ := hleaving hq hl
    exact hown hg hid (fun heq => hclean.leaving q hq (heq ▸ hl)) rfl
  · rcases ha.leaving hl with hold | hold
    · obtain ⟨hg, hid⟩ := hleaving hmem hold
      exact hown hg hid (fun heq => hclean.leaving pc hmem (heq ▸ hold)) rfl
    · obtain ⟨hg, hid⟩ := h.job _ _ _ hold
      exact hown hg hid (fun heq => hclean.queued (by
        obtain ⟨hg', hid'⟩ := Prod.mk.inj heq
        rw [← hg', ← hid']
        exact hold)) rfl
  · have hid := hchecking hq hc
    exact hclean.checking q hq (hc.trans (congrArg some (hback _ hid rfl).symm))
  · rcases ha.checking hc with hold | hold
    · have hid := hchecking hmem hold
      exact hclean.checking pc hmem (hold.trans (congrArg some (hback _ hid rfl).symm))
    · obtain ⟨hg, hid⟩ := hleaving hmem hold
      refine hclean.leaving pc hmem (hold.trans ?_)
      rw [hback _ hid rfl]

/-- The counter is the slot's business. -/
theorem Action.slot_or_count {e : Event Buf} (h : Action index s pc e s' pc') :
    (∃ home q q' ev, pc = .slot home q ∧ pc' = enter home q q' ∧
      Slot.next index s.slot q ev = some (s'.slot, q') ∧ s'.jobs = s.jobs) ∨
      s'.slot.refCount = s.slot.refCount := by
  cases h
  case slot home q q' ev r hnext _ =>
    exact .inl ⟨home, q, q', ev, rfl, rfl, hnext, observe_slot s q r⟩
  all_goals exact .inr rfl

/-- A step of the slot, seen from the slot. -/
theorem slot_step {i : ℕ} {home : Option GroupID} {q q' : Slot.Pc Buf} {ev : Slot.Event Buf}
    (hpc : w.threads[i]? = some (.slot home q))
    (hnext : Slot.next index w.shared.slot q ev = some (w'.shared.slot, q'))
    (ht : w'.threads = w.threads.set i (enter home q q'))
    (hjobs : w'.shared.jobs = w.shared.jobs) :
    Slot.step index w.onSlot (i, ev) = some w'.onSlot := by
  obtain ⟨hlt, -⟩ := List.getElem?_eq_some_iff.1 hpc
  have hget : w.onSlot.threads[i]? = some q := by
    rw [World.onSlot, List.getElem?_append_left (by simpa using hlt), List.getElem?_map, hpc]
    rfl
  have hset : w'.onSlot.threads = w.onSlot.threads.set i q' := by
    simp only [World.onSlot, ht, hjobs]
    rw [List.set_append_left _ _ (by simpa using hlt), List.map_set, enter_onSlot]
  simp only [Slot.step, Pool.step, hget, Option.map_eq_some_iff]
  exact ⟨_, hnext, by rw [← hset]; rfl⟩

/-- **A slot is released by the exchange**, and by nothing else. -/
theorem Releasing.released_back {e : ℕ × Event Buf} (h : Releasing index w)
    (h' : Slot.Sound index w'.onSlot) (hpc : w.threads[e.1]? = some pc)
    (ha : Action index w.shared pc e.2 w'.shared pc') (ht : w'.threads = w.threads.set e.1 pc')
    (hopen : w.shared.slot.refCount < RELEASE_FLAG)
    (hrel : RELEASE_FLAG ≤ w'.shared.slot.refCount) :
    pc.exchanges = true ∧ w.shared.slot.refCount = 0 := by
  have hzero := h.sound.open_iff.1 hopen
  have hpos : (Slot.life w'.onSlot).owed + (Slot.life w'.onSlot).closed ≠ 0 :=
    fun hz => absurd (h'.open_iff.2 hz) (not_lt.2 hrel)
  rcases ha.slot_or_count with ⟨home, q, q', ev, rfl, rfl, hnext, hjobs⟩ | hsame
  · have hst := slot_step hpc hnext ht hjobs
    cases Slot.life_step hst h.sound.indexed with
    | win hz _ _ _ hzeroed =>
      refine ⟨?_, hz⟩
      obtain ⟨q₀, q₁, hq, hq', ht'⟩ := Pool.step_eq_some hst
      have hmove := Pool.total_step Slot.Pc.zeroed hq ht'
      have hq₀ : w.onSlot.threads[e.1]? = some q := by
        rw [World.onSlot, List.getElem?_append_left (by
          simpa using (List.getElem?_eq_some_iff.1 hpc).1), List.getElem?_map, hpc]
        rfl
      obtain rfl : q = q₀ := Option.some.inj (hq₀.symm.trans hq)
      simp only [Slot.life] at hzeroed
      cases q with
      | releaseCas k => rfl
      | _ => simp only [Slot.Pc.zeroed] at hmove; omega
    | post => omega
    | _ => omega
  · rw [hsame] at hrel
    exact absurd hopen (not_lt.2 hrel)

/-- **Every step keeps the invariant**, where the session is released only
with its earlier moves settled. -/
theorem Releasing.step {e : ℕ × Event Buf} (h : Releasing index w)
    (hst : Grouped.step index w e = some w') (hset : Settled w e w') : Releasing index w' := by
  obtain ⟨pc, pc', hpc, hnext, ht⟩ := Pool.step_eq_some hst
  have hmem := List.mem_of_getElem? hpc
  have ha := next_action hnext
  have hfits := h.fits pc hmem
  have hsound := sound_step h.sound hpc ha ht hfits.due hset.1
  have howed {q : Slot.Pc Buf} (hq : q ∈ w.onSlot.threads) (hpos : 0 < q.owed) :
      0 < (Slot.life w.onSlot).owed := by
    have := Pool.le_total Slot.Pc.owed hq
    simp only [Slot.life]
    omega
  have hnames := h.names_step hpc ha
  have hlast : ∀ g id, (g, .Leave id true) ∈ w.shared.jobs →
      0 < (Slot.life w.onSlot).owed := fun g id hx => howed (job_mem_onSlot hx) Nat.one_pos
  refine ⟨hsound, fun hrel => ?_, ?_, fun g id hx => ?_, fun g id last hx => ?_⟩
  · rcases lt_or_ge w.shared.slot.refCount RELEASE_FLAG with hopen | hrel₀
    · obtain ⟨hex, hz⟩ := h.released_back hsound hpc ha ht hopen hrel
      refine h.clean_step hpc ha ht (hset.2 pc hpc hex hz) ?_
      cases pc with
      | moveLeave | moveSetGroup => cases hex
      | _ => rfl
    · refine h.clean_step hpc ha ht (h.clean hrel₀) ?_
      -- a move holds a reference, and the slot is released
      have hpinned (hpin : 0 < pc.onSlot.pinned) : False :=
        absurd (h.sound.open_of_pinned (mem_onSlot hmem) hpin) (not_lt.2 hrel₀)
      cases pc with
      | moveLeave | moveSetGroup => exact (hpinned Nat.one_pos).elim
      | _ => rfl
  · refine Pool.forall_threads ht (fun q hq => ?_) ?_
    · refine (h.fits q hq).mono (fun id => ha.accepted) (hnames.imp_right fun hz => ?_)
      refine ⟨?_, hz.2⟩
      by_contra hne
      have := howed (mem_onSlot hq) (Nat.pos_of_ne_zero hne)
      omega
    · refine ha.fits hfits (fun g id last hx => ?_) (fun hpos => ?_) fun id hc hrel => ?_
      · cases last with
        | false => exact h.job g id false hx
        | true => exact h.lastJob g id hx
      · exact released_of_owed h.sound (howed (mem_onSlot hmem) hpos)
      · exact fun heq => (h.clean hrel).checking pc hmem (heq ▸ hc)
  · rcases ha.leave_jobs hx with hx | ⟨hl, -⟩ | ⟨-, hid, home, k, hold⟩
    · have hpos := hlast g id hx
      obtain ⟨hg, hid⟩ := h.lastJob g id hx
      rcases hnames with ⟨hg', hid'⟩ | ⟨hz, -⟩
      · exact ⟨hg.trans hg'.symm, hid.trans hid'.symm⟩
      · omega
    · cases hl
    · subst hold
      have hpos := howed (mem_onSlot hmem) Nat.one_pos
      rcases hnames with ⟨hg', hid'⟩ | ⟨hz, -⟩
      · exact ⟨hfits.1.trans hg'.symm, hid.trans hid'.symm⟩
      · omega
  · rcases ha.leave_jobs hx with hx | ⟨-, rfl, i, dst, hold⟩ | ⟨-, rfl, home, k, hold⟩
    · obtain ⟨hg, hid⟩ := h.job g id last hx
      exact ⟨hg, ha.accepted hid⟩
    · subst hold
      refine ⟨hfits, ha.accepted ?_⟩
      rw [show w.shared.slot.accepted = _ from
        (h.sound.unreleased (mem_onSlot hmem) Nat.one_pos).1]
      exact List.mem_append_right _ List.mem_cons_self
    · subst hold
      exact ⟨hfits.2, ha.accepted (accepted_of_owed h.sound (howed (mem_onSlot hmem) Nat.one_pos))⟩

end Grouped

end NetLib
