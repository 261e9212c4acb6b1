import Mathlib.Data.List.Nodup
import NetLib.Server.Connect
import NetLib.Slot.Pinning
/-!
# Every index is in one place

`_freeIndex`, the attempts to open a session, the sessions that are open and
those on their way back to `_freeIndex`: these are the places of an index.
The counts of a slot (`Lifecycle`) say that it is in one of them. Only a
`GetClientSession` that finds `_freeIndex` empty spoils that: it works on
whatever its uninitialised local holds.
-/

namespace NetLib

namespace IOCP

open Lifecycle

variable {Buf : Type}

/-! ## One slot -/

section OneSlot

open Slot

variable {w w' : Slot.World Buf} {e : ℕ × Slot.Event Buf} {pc pc' : Slot.Pc Buf} {index : ℕ}

/-- The counts of a slot and the index part of its ids. The slot carries its
own index, unless it is free or about to be named. -/
structure Kept (index : ℕ) (w : Slot.World Buf) : Prop where
  few : FewRefs w
  counted : Counted RELEASE_FLAG (life w)
  fresh : ∀ pc ∈ w.threads, ∀ id, pc.stage.newId w.shared = some id → id.index = index
  indexed : w.shared.sessionId.index = index ∨ 0 < w.shared.free ∨
    ∃ pc ∈ w.threads, ∃ id, pc.stage = .accepting id

theorem Kept.initial [Inhabited Buf] (index n : ℕ) :
    Kept index (Slot.World.initial n : Slot.World Buf) := by
  have hs : Sound index (Slot.World.initial n : Slot.World Buf) := Sound.initial n
  exact ⟨hs.few, hs.counted, fun pc hpc id hid => (hs.fresh pc hpc id hid).1,
    .inr (.inl Nat.one_pos)⟩

/-- A released slot carries its own index. -/
theorem Kept.released (h : Kept index w) (hpc : Slot.Pc.releaseFreeIndex ∈ w.threads) :
    w.shared.sessionId.index = index := by
  obtain ⟨i, hi⟩ := List.mem_iff_getElem?.1 hpc
  rcases h.indexed with hidx | hfree | ⟨q, hq, id, hst⟩
  · exact hidx
  · cases outside_of_waiting h.counted (by omega) hpc
  · obtain ⟨j, hj⟩ := List.mem_iff_getElem?.1 hq
    by_cases hij : i = j
    · subst hij
      obtain rfl := Option.some.inj (hi.symm.trans hj)
      cases hst
    · have := stage_unique h.counted hij hi hj (by simp [Slot.Pc.stage])
      rw [hst] at this
      cases this

/-- A step that opens nothing and moves the slot to nobody leaves whoever
closes it at work. -/
theorem closed_le {s s' : Slot Buf} {e : Slot.Event Buf}
    (hnext : Slot.next index s pc e = some (s', pc'))
    (hindex : pc = .releaseFreeIndex → s.sessionId.index = index)
    (hacc : s'.accepted = s.accepted) (hrel : s'.releasePosted = s.releasePosted)
    (hfree : s'.free = s.free) : pc.closed ≤ pc'.closed := by
  have hclosed : (s'.share pc').closed = s.releasePosted + s.free + pc'.closed := by
    simp only [share, hrel, hfree]
  have hopened : (s'.share pc').opened = (s.share pc).opened := hacc
  have hold : (s.share pc).closed = s.releasePosted + s.free + pc.closed := rfl
  cases next_share hnext hindex with
  | reopen _ _ _ _ _ _ _ ho => exact absurd (ho.symm.trans hopened) (by simp)
  | stay | take | give | lose | win | post | rename => omega

/-- The ids after a step. -/
theorem Kept.fresh_step (h : Kept index w) (hpc : w.threads[e.1]? = some pc)
    (ht : w'.threads = w.threads.set e.1 pc') (hn : Naming index w.shared pc e.2 w'.shared pc') :
    ∀ pc ∈ w'.threads, ∀ id, pc.stage.newId w'.shared = some id → id.index = index := by
  have hmem := List.mem_of_getElem? hpc
  have hothers (hid : w'.shared.sessionId = w.shared.sessionId) :
      ∀ q ∈ w.threads, ∀ id, q.stage.newId w'.shared = some id → id.index = index :=
    fun q hq id hid' => h.fresh q hq id (Stage.newId_congr hid _ ▸ hid')
  have hnone {st : Stage} (hst : st = .outside ∨ st = .releasing) :
      ∀ id, st.newId w'.shared = some id → id.index = index := by
    rintro id hid
    rcases hst with rfl | rfl <;> cases hid
  cases hn with
  | same hid _ _ _ _ hstage =>
    refine Pool.forall_threads ht (hothers hid) ?_
    rcases hstage with hst | hst
    · rw [hst]
      exact hothers hid pc hmem
    · exact hnone (.inl hst)
  | draw others _ _ _ hid _ _ _ _ hstage =>
    refine Pool.forall_threads ht (hothers hid) fun id hid' => ?_
    rw [hstage] at hid'
    obtain rfl := Option.some.inj hid'
    rfl
  | name id hold hid _ _ _ _ hnew =>
    refine Pool.forall_threads_of_others ht (fun j q hj hq => hnone (.inl ?_)) fun id' hid' => ?_
    · exact stage_unique h.counted hj hpc hq (by rw [hold]; simp [Slot.Pc.stage])
    · rw [hnew] at hid'
      obtain rfl := Option.some.inj hid'
      rw [hid]
      exact h.fresh pc hmem id (by rw [hold]; rfl)
  | openUp _ hid _ _ _ _ hstage | giveBack _ hid _ _ _ _ hstage =>
    exact Pool.forall_threads ht (hothers hid) (hnone (.inl hstage))
  | post _ hid _ _ _ hstage => exact Pool.forall_threads ht (hothers hid) (hnone (.inl hstage))
  | take _ hid _ _ _ _ hstage => exact Pool.forall_threads ht (hothers hid) (hnone (.inr hstage))

/-- And the index of the slot. -/
theorem Kept.indexed_step (h : Kept index w) (hpc : w.threads[e.1]? = some pc)
    (hnext : Slot.next index w.shared pc e.2 = some (w'.shared, pc'))
    (ht : w'.threads = w.threads.set e.1 pc') :
    w'.shared.sessionId.index = index ∨ 0 < w'.shared.free ∨
      ∃ pc ∈ w'.threads, ∃ id, pc.stage = .accepting id := by
  have hmem := List.mem_of_getElem? hpc
  have hrel : pc = .releaseFreeIndex → w.shared.sessionId.index = index := fun heq =>
    h.released (heq ▸ hmem)
  -- as before, if the thread that names the slot is not the one that moved
  have hkeep (hid : w'.shared.sessionId = w.shared.sessionId)
      (hfree : w.shared.free ≤ w'.shared.free) (hst : ∀ id, pc.stage ≠ .accepting id) :
      w'.shared.sessionId.index = index ∨ 0 < w'.shared.free ∨
        ∃ pc ∈ w'.threads, ∃ id, pc.stage = .accepting id := by
    rcases h.indexed with hidx | hpos | hex
    · exact .inl (hid ▸ hidx)
    · exact .inr (.inl (by omega))
    · rcases Pool.exists_threads hpc ht hex with ⟨id, hacc⟩ | hex'
      · exact absurd hacc (hst id)
      · exact .inr (.inr hex')
  cases next_naming hnext with
  | same hid hacc _ hrelease hfree hstage =>
    by_cases hst : ∃ id, pc.stage = .accepting id
    · obtain ⟨id, hst⟩ := hst
      have hle := closed_le hnext hrel hacc hrelease hfree
      rcases hstage with heq | heq
      · exact .inr (.inr ⟨pc', Pool.mem_threads hpc ht, id, heq.trans hst⟩)
      · rw [pc.closed_eq, pc'.closed_eq, hst, heq] at hle
        simp at hle
    · exact hkeep hid hfree.ge fun id hacc => hst ⟨id, hacc⟩
  | draw others _ _ _ _ _ _ _ _ hstage =>
    exact .inr (.inr ⟨pc', Pool.mem_threads hpc ht, _, hstage⟩)
  | name id hold hid =>
    exact .inl (hid ▸ h.fresh pc hmem id (by rw [hold]; rfl))
  | openUp hold hid _ _ _ hfree =>
    exact hkeep hid hfree.ge fun id hst => by rw [hold] at hst; cases hst
  | post howed hid _ _ hfree =>
    refine hkeep hid hfree.ge fun id hst => ?_
    have hle := Pool.le_total Slot.Pc.owed hmem
    rw [outside_of_waiting h.counted (by omega) hmem] at hst
    cases hst
  | take hpos hid _ _ _ hfree =>
    refine hkeep hid hfree.ge fun id hst => ?_
    rw [outside_of_waiting h.counted (by omega) hmem] at hst
    cases hst
  | giveBack hold hid _ _ _ hfree =>
    exact hkeep hid (by omega) fun id hst => by rw [hold] at hst; cases hst

theorem pinned_le (w : Slot.World Buf) : (life w).pinned ≤ (life w).refs := by
  simp only [life, Pool.total]
  exact Nat.add_le_add_left (List.sum_le_sum fun pc _ => pc.pinned_le) _

/-- **A step on the slot keeps it.** -/
theorem Kept.step (h : Kept index w) (hst : Slot.step index w e = some w') (hfew : FewRefs w') :
    Kept index w' := by
  obtain ⟨pc, pc', hpc, hnext, ht⟩ := Pool.step_eq_some hst
  exact {
    few := hfew
    counted := h.counted.step (life_step hst h.released) h.few hfew (pinned_le w)
    fresh := h.fresh_step hpc ht (next_naming hnext)
    indexed := h.indexed_step hpc hnext ht }

/-- **And so does passing it from hand to hand**, between `_freeIndex` and
the threads. -/
theorem Kept.pass (h : Kept index w) (hpc : w.threads[e.1]? = some pc)
    (ht : w'.threads = w.threads.set e.1 pc') {free : ℕ}
    (hs : w'.shared = { w.shared with free := free })
    (hrefs : pc'.refs = pc.refs) (hpinned : pc'.pinned = pc.pinned)
    (hzeroed : pc'.zeroed = pc.zeroed) (howed : pc'.owed = pc.owed)
    (hclosed : free + pc'.closed = w.shared.free + pc.closed)
    (hstage : (pc'.stage = .outside ∧ 0 < free) ∨
      ∃ id, pc'.stage = .accepting id ∧ id.index = index) : Kept index w' := by
  have htotal (f : Slot.Pc Buf → ℕ) := Pool.total_step f hpc ht
  have hlife : life w' = life w := by
    have h1 := htotal Slot.Pc.refs
    have h2 := htotal Slot.Pc.pinned
    have h3 := htotal Slot.Pc.zeroed
    have h4 := htotal Slot.Pc.owed
    have h5 := htotal Slot.Pc.closed
    simp only [life, hs, io]
    congr 1 <;> omega
  refine ⟨?_, hlife ▸ h.counted, ?_, ?_⟩
  · rw [FewRefs, hlife]
    exact h.few
  · have hid : w'.shared.sessionId = w.shared.sessionId := by rw [hs]
    refine Pool.forall_threads ht (fun q hq id hid' =>
      h.fresh q hq id (Stage.newId_congr hid _ ▸ hid')) fun id hid' => ?_
    rcases hstage with ⟨hst, -⟩ | ⟨id', hst, hidx⟩
    · rw [hst] at hid'
      cases hid'
    · rw [hst] at hid'
      obtain rfl := Option.some.inj hid'
      exact hidx
  · rcases hstage with ⟨-, hpos⟩ | ⟨id, hst, -⟩
    · exact .inr (.inl (by rw [hs]; exact hpos))
    · exact .inr (.inr ⟨pc', Pool.mem_threads hpc ht, id, hst⟩)

end OneSlot

/-! ## A step of the server -/

/-- What a thread is doing on one slot. An attempt of `GetClientSession` is
to the slot like one of `AcceptThread`. -/
def onSlot (index : ℕ) : Pc Buf → Slot.Pc Buf
  | .session k pc => if k = index then pc else .idle
  | .socket k _ | .connect k _ | .releaseFreeIndex k _ =>
    if k = index then .reset (.accept ⟨0, index⟩) else .idle

/-- The index an attempt of `GetClientSession` works with, and whether it
obtained one. -/
def Pc.attempt : Pc Buf → Option (ℕ × Bool)
  | .session _ _ => none
  | .socket k obtained | .connect k obtained | .releaseFreeIndex k obtained => some (k, obtained)

/-- The slot, and on it the threads that are there. -/
def World.slot (w : World Buf) (index : ℕ) : Slot.World Buf :=
  ⟨w.shared.sessions index, w.threads.map (onSlot index)⟩

/-- What the action of a thread does. -/
inductive Acts (s s' : IOCP Buf) (pc pc' : Pc Buf) : Prop
  /-- Nothing to any slot. -/
  | quiet (hs : s' = s) (hon : ∀ i, onSlot i pc' = onSlot i pc)
      (hattempt : pc'.attempt = none ∨ pc'.attempt = pc.attempt)
  /-- An action on one slot. -/
  | act (k : ℕ) (q q' : Slot.Pc Buf) (e : Slot.Event Buf) (r : Slot Buf)
      (hpc : (pc = .session k q ∧ q ≠ .idle) ∨
        k < MAX_SESSIONS ∧ q = .idle ∧ ∃ j, pc = .session j .idle)
      (hq : q ≠ .releaseFreeIndex) (he : q = .idle → ∀ others, e ≠ .accept others)
      (hnext : Slot.next k (s.sessions k) q e = some (r, q')) (hpc' : pc' = .session k q')
      (hs : s' = s.setSession k r)
  /-- An index is popped. -/
  | pop (k : ℕ) (hpop : s.getFreeIndex = some (k, s')) (hpc : ∃ j, pc = .session j .idle)
      (hpc' : (∃ serial, pc' = .session k (.reset (.accept ⟨serial, k⟩))) ∨ pc' = .socket k true)
  /-- `GetClientSession` comes to its slot. -/
  | enter (k serial : ℕ) (obtained : Bool) (hs : s' = s) (hpc : pc = .connect k obtained)
      (hpc' : pc' = .session k (.acceptIncreaseRef ⟨serial, k⟩))
  /-- An index is pushed. -/
  | push (k : ℕ) (hs : s' = s.releaseFreeIndex k)
      (hpc : (∃ j, pc = .session j .releaseFreeIndex ∧ k = (s.sessions j).sessionId.index) ∨
        ∃ obtained, pc = .releaseFreeIndex k obtained)
      (hpc' : ∃ j, pc' = .session j .idle)

/-- `GetClientSession` is called while an index is free. -/
def Obtains (s : IOCP Buf) (e : Event Buf) : Prop :=
  ∀ garbage, e = .getClientSession garbage → s.freeIndex ≠ []

theorem onSlot_idle (i j : ℕ) : onSlot i (.session j .idle : Pc Buf) = .idle := by
  simp only [onSlot, ite_self]

theorem start_acts {s s' : IOCP Buf} {j : ℕ} {pc' : Pc Buf} {e : Event Buf}
    (h : s.start e = some (s', pc')) (hobtains : Obtains s e) :
    Acts s s' (.session j .idle) pc' := by
  cases e with
  | accept serial =>
    simp only [start] at h
    split at h
    · obtain ⟨rfl, rfl⟩ := Prod.mk.inj (Option.some.inj h)
      exact .quiet rfl (fun i => by rw [onSlot_idle, onSlot_idle]) (.inl rfl)
    · rename_i k r hpop
      obtain ⟨rfl, rfl⟩ := Prod.mk.inj (Option.some.inj h)
      exact .pop k hpop ⟨j, rfl⟩ (.inl ⟨serial, rfl⟩)
  | getClientSession garbage =>
    simp only [start] at h
    split at h
    · rename_i hnone
      refine absurd ?_ (hobtains garbage rfl)
      unfold getFreeIndex at hnone
      split at hnone
      · assumption
      · cases hnone
    · rename_i k r hpop
      obtain ⟨rfl, rfl⟩ := Prod.mk.inj (Option.some.inj h)
      exact .pop k hpop ⟨j, rfl⟩ (.inr rfl)
  | slot index e =>
    by_cases he : ∃ others, e = .accept others
    · obtain ⟨others, rfl⟩ := he
      cases h
    rw [not_exists] at he
    have hact {k : ℕ} (hk : ¬ MAX_SESSIONS ≤ k)
        (h : (Slot.start k (s.sessions k) e).map (fun r =>
          (s.setSession k r.1, Pc.session k r.2)) = some (s', pc')) :
        Acts s s' (.session j .idle) pc' := by
      obtain ⟨⟨r, q⟩, hst, heq⟩ := Option.map_eq_some_iff.1 h
      obtain ⟨rfl, rfl⟩ := Prod.mk.inj heq
      exact .act k .idle q e r (.inr ⟨not_le.1 hk, rfl, j, rfl⟩) nofun (fun _ => he) hst rfl rfl
    simp only [start] at h
    split at h
    · split at h
      · obtain ⟨rfl, rfl⟩ := Prod.mk.inj (Option.some.inj h)
        exact .quiet rfl (fun i => by rw [onSlot_idle, onSlot_idle]) (.inl rfl)
      · exact hact ‹_› h
    · split at h
      · cases h
      · exact hact ‹_› h
  | isValid | connect => cases h

/-- **What a step of a thread is.** -/
theorem next_acts {s s' : IOCP Buf} {pc pc' : Pc Buf} {e : Event Buf}
    (h : next s pc e = some (s', pc')) (hobtains : Obtains s e) : Acts s s' pc pc' := by
  unfold next at h
  split at h
  · exact start_acts h hobtains
  · obtain ⟨rfl, rfl⟩ := Prod.mk.inj (Option.some.inj h)
    exact .push _ rfl (.inl ⟨_, rfl, rfl⟩) ⟨_, rfl⟩
  · rename_i k q _ e hidle hrelease
    obtain ⟨⟨r, q'⟩, hnext, heq⟩ := Option.map_eq_some_iff.1 h
    obtain ⟨rfl, rfl⟩ := Prod.mk.inj heq
    exact .act k q q' e r (.inl ⟨rfl, hidle⟩) hrelease (fun hq => (hidle hq).elim) hnext rfl rfl
  · obtain ⟨rfl, rfl⟩ := Prod.mk.inj (Option.some.inj h)
    split
    · exact .quiet rfl (fun i => rfl) (.inr rfl)
    · exact .quiet rfl (fun i => rfl) (.inr rfl)
  · obtain ⟨rfl, rfl⟩ := Prod.mk.inj (Option.some.inj h)
    exact .enter _ _ _ rfl rfl rfl
  · obtain ⟨rfl, rfl⟩ := Prod.mk.inj (Option.some.inj h)
    exact .quiet rfl (fun i => rfl) (.inr rfl)
  · obtain ⟨rfl, rfl⟩ := Prod.mk.inj (Option.some.inj h)
    exact .push _ rfl (.inr ⟨_, rfl⟩) ⟨_, rfl⟩
  · cases h

/-! ## The invariant -/

/-- Every slot is kept, `_freeIndex` holds the indices of the free slots,
and whoever works with an index has obtained it. -/
structure Owned (w : World Buf) : Prop where
  slots : ∀ i, Kept i (w.slot i)
  counted : ∀ i < MAX_SESSIONS, w.shared.freeIndex.count i = (w.shared.sessions i).free
  inRange : ∀ i ∈ w.shared.freeIndex, i < MAX_SESSIONS
  threads : ∀ th ∈ w.threads, ∀ k pc, th = .session k pc → pc ≠ .idle → k < MAX_SESSIONS
  obtained : ∀ th ∈ w.threads, ∀ k obtained, th.attempt = some (k, obtained) →
    obtained = true ∧ k < MAX_SESSIONS

/-- An index is free when `GetClientSession` takes one, and every slot has
fewer references than the flag's bit. -/
def Admits (w : World Buf) (e : ℕ × Event Buf) (w' : World Buf) : Prop :=
  Obtains w.shared e.2 ∧ ∀ i, Slot.FewRefs (w'.slot i)

section Step

variable {w w' : World Buf} {e : ℕ × Event Buf} {pc pc' : Pc Buf} {i k : ℕ}

/-- A slot sees nothing of what happens elsewhere. -/
theorem slot_other (hpc : w.threads[e.1]? = some pc) (ht : w'.threads = w.threads.set e.1 pc')
    (hs : w'.shared.sessions i = w.shared.sessions i) (hon : onSlot i pc' = onSlot i pc) :
    w'.slot i = w.slot i := by
  obtain ⟨hlt, hget⟩ := List.getElem?_eq_some_iff.1 hpc
  have hmap : w'.threads.map (onSlot i) = w.threads.map (onSlot i) := by
    rw [ht, List.map_set, hon, ← hget, ← List.map_set, List.set_getElem_self]
  simp only [World.slot, hs, hmap]

/-- The thread that moves, as the slot sees it. -/
theorem slot_thread (hpc : w.threads[e.1]? = some pc) (ht : w'.threads = w.threads.set e.1 pc') :
    (w.slot i).threads[e.1]? = some (onSlot i pc) ∧
      (w'.slot i).threads = (w.slot i).threads.set e.1 (onSlot i pc') := by
  constructor
  · simp only [World.slot, List.getElem?_map, hpc, Option.map_some]
  · simp only [World.slot, ht, List.map_set]

theorem onSlot_session_self (q : Slot.Pc Buf) : onSlot k (.session k q) = q := if_pos rfl

theorem onSlot_session_ne (h : i ≠ k) (q : Slot.Pc Buf) : onSlot i (.session k q) = .idle :=
  if_neg (Ne.symm h)

/-- **A slot is passed on** by whoever has it, to `_freeIndex` or from it. -/
theorem Owned.pass (h : Owned w) (k free : ℕ) (hpc : w.threads[e.1]? = some pc)
    (ht : w'.threads = w.threads.set e.1 pc')
    (hs : w'.shared.sessions = Function.update w.shared.sessions k
      { w.shared.sessions k with free := free })
    (hother : ∀ i ≠ k, onSlot i pc' = onSlot i pc)
    (hweights : ∀ f ∈ [Slot.Pc.refs, Slot.Pc.pinned, Slot.Pc.zeroed, Slot.Pc.owed],
      f (onSlot k pc') = f (onSlot k pc))
    (hclosed : free + (onSlot k pc').closed = (w.shared.sessions k).free + (onSlot k pc).closed)
    (hstage : ((onSlot k pc').stage = .outside ∧ 0 < free) ∨
      ∃ id, (onSlot k pc').stage = .accepting id ∧ id.index = k) (i : ℕ) :
    Kept i (w'.slot i) := by
  by_cases hik : i = k
  · subst hik
    obtain ⟨hpc', ht'⟩ := slot_thread (i := i) hpc ht
    have hshared : (w'.slot i).shared = { (w.slot i).shared with free := free } := by
      simp only [World.slot, hs, Function.update_self]
    exact (h.slots i).pass (e := (e.1, .go)) hpc' ht' hshared (hweights _ (by simp))
      (hweights _ (by simp)) (hweights _ (by simp)) (hweights _ (by simp)) hclosed hstage
  · rw [slot_other hpc ht (by rw [hs, Function.update_of_ne hik]) (hother i hik)]
    exact h.slots i

theorem getFreeIndex_eq_some {s s' : IOCP Buf} (h : s.getFreeIndex = some (k, s')) :
    s.freeIndex = k :: s'.freeIndex ∧ s'.sessions = Function.update s.sessions k
      { s.sessions k with free := (s.sessions k).free - 1 } := by
  unfold getFreeIndex at h
  split at h
  · cases h
  · rename_i hfree
    obtain ⟨rfl, rfl⟩ := Prod.mk.inj (Option.some.inj h)
    exact ⟨hfree, rfl⟩

/-- Who pushes an index has the slot. -/
theorem Owned.pushed (h : Owned w) (hpc : w.threads[e.1]? = some pc)
    (hwho : (∃ j, pc = .session j .releaseFreeIndex ∧
        k = (w.shared.sessions j).sessionId.index) ∨
      ∃ obtained, pc = .releaseFreeIndex k obtained) :
    k < MAX_SESSIONS ∧ (∀ i ≠ k, onSlot i pc = .idle) ∧
      (onSlot k pc = .releaseFreeIndex ∨ onSlot k pc = .reset (.accept ⟨0, k⟩)) := by
  have hmem := List.mem_of_getElem? hpc
  rcases hwho with ⟨j, rfl, hk⟩ | ⟨obtained, rfl⟩
  · have hon : onSlot j (.session j .releaseFreeIndex : Pc Buf) = .releaseFreeIndex := if_pos rfl
    have hkj : k = j := hk.trans ((h.slots j).released (List.mem_map.2 ⟨_, hmem, hon⟩))
    subst hkj
    exact ⟨h.threads _ hmem _ _ rfl nofun, fun i hi => onSlot_session_ne hi _, .inl hon⟩
  · exact ⟨(h.obtained _ hmem _ _ rfl).2, fun i hi => if_neg (Ne.symm hi), .inr (if_pos rfl)⟩

theorem Owned.slots_step (h : Owned w) (hpc : w.threads[e.1]? = some pc)
    (ha : Acts w.shared w'.shared pc pc') (ht : w'.threads = w.threads.set e.1 pc')
    (hfew : ∀ i, Slot.FewRefs (w'.slot i)) (i : ℕ) : Kept i (w'.slot i) := by
  cases ha with
  | quiet hs hon _ =>
    rw [slot_other hpc ht (by rw [hs]) (hon i)]
    exact h.slots i
  | act k q q' ev r hfrom _ _ hnext hpc' hs =>
    subst hpc'
    have hon : ∀ i, onSlot i pc = if k = i then q else .idle := by
      rcases hfrom with ⟨rfl, -⟩ | ⟨-, rfl, j, rfl⟩
      · exact fun i => rfl
      · exact fun i => by rw [onSlot_idle, ite_self]
    have hsessions : w'.shared.sessions = Function.update w.shared.sessions k r := by
      rw [hs]
      rfl
    by_cases hik : i = k
    · subst hik
      obtain ⟨hthread, ht'⟩ := slot_thread (i := i) hpc ht
      rw [hon, if_pos rfl] at hthread
      rw [onSlot_session_self] at ht'
      have hr : (w'.slot i).shared = r := by
        change w'.shared.sessions i = r
        rw [hsessions, Function.update_self]
      have hnext' : Slot.next i (w.slot i).shared q ev = some ((w'.slot i).shared, q') := by
        rw [hr]
        exact hnext
      have hstep : Slot.step i (w.slot i) (e.1, ev) = some (w'.slot i) := by
        simp only [Slot.step, Pool.step, hthread, hnext', Option.map_some, ← ht']
      exact (h.slots i).step hstep (hfew i)
    · rw [slot_other hpc ht (by rw [hsessions, Function.update_of_ne hik])
        (by rw [onSlot_session_ne hik, hon, if_neg (Ne.symm hik)])]
      exact h.slots i
  | pop k hpop hidle hpc' =>
    obtain ⟨j, rfl⟩ := hidle
    obtain ⟨hfree, hs⟩ := getFreeIndex_eq_some hpop
    have hcount := h.counted k (h.inRange k (hfree ▸ List.mem_cons_self))
    rw [hfree, List.count_cons_self] at hcount
    have hon : (∀ i ≠ k, onSlot i pc' = .idle) ∧
        ∃ id, onSlot k pc' = .reset (.accept id) ∧ id.index = k := by
      rcases hpc' with ⟨serial, rfl⟩ | rfl
      · exact ⟨fun i hi => if_neg (Ne.symm hi), _, if_pos rfl, rfl⟩
      · exact ⟨fun i hi => if_neg (Ne.symm hi), _, if_pos rfl, rfl⟩
    obtain ⟨hother, id, hself, hid⟩ := hon
    refine h.pass k _ hpc ht hs (fun i hi => by rw [hother i hi, onSlot_idle]) ?_ ?_ ?_ i
    · rw [hself, onSlot_idle]
      simp [Slot.Pc.refs, Slot.Pc.pinned, Slot.Pc.zeroed, Slot.Pc.owed]
    · rw [hself, onSlot_idle]
      change (w.shared.sessions k).free - 1 + 1 = (w.shared.sessions k).free + 0
      omega
    · exact .inr ⟨id, by rw [hself]; rfl, hid⟩
  | enter k serial obtained hs hfrom hpc' =>
    subst hfrom hpc'
    have hold : onSlot k (.connect k obtained : Pc Buf) = .reset (.accept ⟨0, k⟩) := if_pos rfl
    refine h.pass k (w.shared.sessions k).free hpc ht ?_ (fun i hi => ?_) ?_ ?_ ?_ i
    · rw [hs]
      exact (Function.update_eq_self k _).symm
    · rw [onSlot_session_ne hi]
      exact (if_neg (Ne.symm hi)).symm
    · rw [onSlot_session_self, hold]
      simp [Slot.Pc.refs, Slot.Pc.pinned, Slot.Pc.zeroed, Slot.Pc.owed]
    · rw [onSlot_session_self, hold]
      rfl
    · rw [onSlot_session_self]
      exact .inr ⟨_, rfl, rfl⟩
  | push k hs hwho hpc' =>
    obtain ⟨j, rfl⟩ := hpc'
    obtain ⟨-, hother, hself⟩ := h.pushed hpc hwho
    refine h.pass k ((w.shared.sessions k).free + 1) hpc ht (by rw [hs]; rfl)
      (fun i hi => by rw [onSlot_idle, hother i hi]) ?_ ?_ ?_ i
    · rw [onSlot_idle]
      rcases hself with heq | heq <;>
        simp [heq, Slot.Pc.refs, Slot.Pc.pinned, Slot.Pc.zeroed, Slot.Pc.owed]
    · rw [onSlot_idle]
      rcases hself with heq | heq <;> rw [heq] <;> rfl
    · rw [onSlot_idle]
      exact .inl ⟨rfl, Nat.succ_pos _⟩

/-- `_freeIndex` holds the free slots after a step. -/
theorem Owned.counted_step (h : Owned w) (hpc : w.threads[e.1]? = some pc)
    (ha : Acts w.shared w'.shared pc pc') :
    (∀ i < MAX_SESSIONS, w'.shared.freeIndex.count i = (w'.shared.sessions i).free) ∧
      ∀ i ∈ w'.shared.freeIndex, i < MAX_SESSIONS := by
  cases ha with
  | quiet hs | enter k serial obtained hs =>
    rw [hs]
    exact ⟨h.counted, h.inRange⟩
  | act k q q' ev r hfrom hq he hnext _ hs =>
    have hfree : r.free = (w.shared.sessions k).free := by
      cases Slot.next_naming hnext with
      | draw others hold hev => exact absurd hev (he hold others)
      | giveBack hold => exact absurd hold hq
      | same _ _ _ _ hfree | name _ _ _ _ _ _ hfree | openUp _ _ _ _ _ hfree
      | post _ _ _ _ hfree | take _ _ _ _ _ hfree => exact hfree
    rw [hs]
    refine ⟨fun i hi => (h.counted i hi).trans ?_, h.inRange⟩
    change _ = (Function.update w.shared.sessions k r i).free
    by_cases hik : i = k
    · subst hik
      rw [Function.update_self, hfree]
    · rw [Function.update_of_ne hik]
  | pop k hpop =>
    obtain ⟨hfree, hs⟩ := getFreeIndex_eq_some hpop
    refine ⟨fun i hi => ?_, fun i hi => h.inRange i (hfree ▸ List.mem_cons_of_mem _ hi)⟩
    have hcount := h.counted i hi
    rw [hfree] at hcount
    rw [hs]
    by_cases hik : i = k
    · subst hik
      rw [List.count_cons_self] at hcount
      rw [Function.update_self, ← hcount]
      rfl
    · rw [List.count_cons_of_ne (Ne.symm hik)] at hcount
      rw [Function.update_of_ne hik, hcount]
  | push k hs hwho =>
    obtain ⟨hk, -⟩ := h.pushed hpc hwho
    rw [hs]
    refine ⟨fun i hi => ?_, List.forall_mem_cons.2 ⟨hk, h.inRange⟩⟩
    have hcount := h.counted i hi
    by_cases hik : i = k
    · subst hik
      simp [releaseFreeIndex, setSession, hcount]
    · simp [releaseFreeIndex, setSession, hcount, Function.update_of_ne hik,
        List.count_cons_of_ne (Ne.symm hik)]

/-- Whoever is on a slot obtained its index. -/
theorem Owned.obtained_step (h : Owned w) (hpc : w.threads[e.1]? = some pc)
    (ha : Acts w.shared w'.shared pc pc') :
    (∀ k q, pc' = .session k q → q ≠ .idle → k < MAX_SESSIONS) ∧
      ∀ k obtained, pc'.attempt = some (k, obtained) → obtained = true ∧ k < MAX_SESSIONS := by
  have hmem := List.mem_of_getElem? hpc
  cases ha with
  | quiet _ hon hattempt =>
    refine ⟨fun k q heq hq => ?_, fun k obtained heq => ?_⟩
    · have hk := hon k
      rw [heq, onSlot_session_self] at hk
      cases pc with
      | session j q' =>
        simp only [onSlot] at hk
        split at hk
        · rename_i hj
          subst hj hk
          exact h.threads _ hmem _ _ rfl hq
        · exact absurd hk hq
      | socket j | connect j | releaseFreeIndex j =>
        simp only [onSlot] at hk
        split at hk
        · rename_i hj
          subst hj
          exact (h.obtained _ hmem _ _ rfl).2
        · exact absurd hk hq
    · rcases hattempt with hnone | hsame
      · rw [hnone] at heq
        cases heq
      · exact h.obtained _ hmem k obtained (hsame ▸ heq)
  | act k q q' ev r hfrom _ _ _ hpc' =>
    subst hpc'
    refine ⟨fun k' q'' heq _ => ?_, nofun⟩
    cases heq
    rcases hfrom with ⟨rfl, hq⟩ | ⟨hk, -⟩
    · exact h.threads _ hmem _ _ rfl hq
    · exact hk
  | pop k hpop _ hpc' =>
    have hk := h.inRange k ((getFreeIndex_eq_some hpop).1 ▸ List.mem_cons_self)
    rcases hpc' with ⟨serial, rfl⟩ | rfl
    · exact ⟨fun _ _ heq _ => by cases heq; exact hk, nofun⟩
    · exact ⟨nofun, fun _ _ heq => by cases heq; exact ⟨rfl, hk⟩⟩
  | enter k serial obtained _ hfrom hpc' =>
    subst hfrom hpc'
    exact ⟨fun _ _ heq _ => by cases heq; exact (h.obtained _ hmem _ _ rfl).2, nofun⟩
  | push k _ _ hpc' =>
    obtain ⟨j, rfl⟩ := hpc'
    exact ⟨fun _ _ heq hq => by cases heq; exact absurd rfl hq, nofun⟩

theorem Owned.step (h : Owned w) (hst : IOCP.step w e = some w') (hok : Admits w e w') :
    Owned w' := by
  obtain ⟨pc, pc', hpc, hnext, ht⟩ := Pool.step_eq_some hst
  have ha := next_acts hnext hok.1
  obtain ⟨hthread, hattempt⟩ := h.obtained_step hpc ha
  exact {
    slots := h.slots_step hpc ha ht hok.2
    counted := (h.counted_step hpc ha).1
    inRange := (h.counted_step hpc ha).2
    threads := Pool.forall_threads ht h.threads hthread
    obtained := Pool.forall_threads ht h.obtained hattempt }

end Step

theorem slot_initial [Inhabited Buf] (n i : ℕ) :
    (World.initial n : World Buf).slot i = Slot.World.initial n := by
  simp [World.slot, World.initial, Slot.World.initial, onSlot]

theorem Owned.initial [Inhabited Buf] (n : ℕ) : Owned (World.initial n : World Buf) where
  slots i := by
    rw [slot_initial]
    exact .initial i n
  counted i hi := by
    have hmem : i ∈ List.range' 0 MAX_SESSIONS := List.mem_range'_1.2 (by omega)
    simp only [World.initial, List.count_eq_one_of_mem List.nodup_range' hmem, Slot.initial]
  inRange i hi := by
    simp only [World.initial, List.mem_range'_1] at hi
    omega
  threads th hth k pc heq hne := by
    rw [List.eq_of_mem_replicate hth] at heq
    cases heq
    exact absurd rfl hne
  obtained th hth k obtained heq := by
    rw [List.eq_of_mem_replicate hth] at heq
    cases heq

/-! ## The places of an index -/

/-- Does the thread hold the index for a session it is about to open? -/
def Pc.opens (index : ℕ) : Pc Buf → ℕ
  | .session k pc =>
    if k = index then
      match pc.stage with
      | .accepting _ | .opening => 1
      | .releasing | .outside => 0
    else 0
  | .socket k _ | .connect k _ | .releaseFreeIndex k _ => if k = index then 1 else 0

/-- Is the thread on the way from the release of the session to the push? -/
def Pc.releases (index : ℕ) : Pc Buf → ℕ
  | .session k pc => if k = index then pc.owed + if pc.stage = .releasing then 1 else 0 else 0
  | _ => 0

/-- How many places the index is in: on `_freeIndex`, held by an attempt to
open a session, owned by a session that is being released, and by one that
is open. -/
def World.places (w : World Buf) (index : ℕ) : ℕ :=
  w.shared.freeIndex.count index + w.total (Pc.opens index) +
    ((w.shared.sessions index).releasePosted + w.total (Pc.releases index)) +
    if (w.shared.sessions index).refCount < RELEASE_FLAG then 1 else 0

theorem opens_add_releases (index : ℕ) (pc : Pc Buf) :
    pc.opens index + pc.releases index =
      (onSlot index pc).owed + (onSlot index pc).closed := by
  cases pc with
  | session k q =>
    simp only [Pc.opens, Pc.releases, onSlot]
    split
    · rw [q.closed_eq]
      cases q.stage <;> simp <;> omega
    · rfl
  | socket k | connect k | releaseFreeIndex k =>
    simp only [Pc.opens, Pc.releases, onSlot]
    split <;> rfl

/-- **Every index is in one place.** -/
theorem Owned.places_eq_one {w : World Buf} (h : Owned w) {i : ℕ} (hi : i < MAX_SESSIONS) :
    w.places i = 1 := by
  have hcounted := (h.slots i).counted
  have hfew := (h.slots i).few
  have hsum : w.total (Pc.opens i) + w.total (Pc.releases i) =
      (w.slot i).total Slot.Pc.owed + (w.slot i).total Slot.Pc.closed := by
    simp only [Pool.total, World.slot, List.map_map]
    rw [← List.sum_map_add, ← List.sum_map_add]
    exact congrArg List.sum (List.map_congr_left fun pc _ => opens_add_releases i pc)
  have hone := hcounted.one
  have hopen := hcounted.count_open
  have hclosed := hcounted.count_closed
  simp only [Slot.FewRefs, Slot.life] at hfew hone hopen hclosed
  rw [World.places, h.counted i hi]
  change _ + _ + ((w.slot i).shared.releasePosted + _) +
    (if (w.slot i).shared.refCount < RELEASE_FLAG then 1 else 0) = 1
  have hfree : (w.shared.sessions i).free = (w.slot i).shared.free := rfl
  split <;> omega

/-- **Slots are owned.** While `GetClientSession` is only called with an
index free, and with fewer references on each slot than the flag's bit:

* every index is in one place;
* an attempt works with an index it has obtained;
* an accept that finds no index free touches nothing. -/
theorem slots_owned [Inhabited Buf] {n : ℕ} {w : World Buf}
    (h : Runs IOCP.step Admits (World.initial n) w) :
    (∀ i < MAX_SESSIONS, w.places i = 1) ∧
      (∀ pc ∈ w.threads, ∀ k obtained, pc.attempt = some (k, obtained) → obtained = true) ∧
      ∀ t serial w', IOCP.step w (t, .accept serial) = some w' → w.shared.freeIndex = [] →
        w'.shared = w.shared := by
  have howned := h.invariant (Owned.initial n) fun h hst hok => h.step hst hok
  refine ⟨fun i hi => howned.places_eq_one hi,
    fun pc hpc k obtained hk => (howned.obtained pc hpc k obtained hk).1,
    fun t serial w' hst hfree => ?_⟩
  obtain ⟨pc, pc', -, hnext, -⟩ := Pool.step_eq_some hst
  have hnone : w.shared.getFreeIndex = none := by rw [getFreeIndex, hfree]
  have hidle : ∃ j, pc = .session j .idle := by
    cases pc with
    | session j q =>
      cases q with
      | idle => exact ⟨j, rfl⟩
      | _ => cases hnext
    | _ => cases hnext
  obtain ⟨j, rfl⟩ := hidle
  simp only [next, start, hnone, Option.some.injEq, Prod.mk.injEq] at hnext
  exact hnext.1.symm

/-- Nobody holds a reference on any slot. -/
theorem few_of_attempts {w : World Buf} (hio : ∀ i, (w.shared.sessions i).io = 0)
    (hthreads : ∀ pc ∈ w.threads, pc.attempt.isSome ∨ ∃ j, pc = .session j .idle) (i : ℕ) :
    Slot.FewRefs (w.slot i) := by
  have hzero : (w.slot i).total Slot.Pc.refs = 0 := by
    refine Pool.total_eq_zero fun q hq => ?_
    obtain ⟨pc, hpc, rfl⟩ := List.mem_map.1 hq
    rcases hthreads pc hpc with hsome | ⟨j, rfl⟩
    · cases pc with
      | session => cases hsome
      | _ => simp only [onSlot]; split <;> rfl
    · rw [onSlot_idle]
      rfl
  rw [Slot.FewRefs, Slot.life]
  change (((w.shared.sessions i).io + (w.slot i).total Slot.Pc.refs : ℕ) : ℤ) < _
  rw [hio, hzero]
  decide

/-- A connection that is refused: the index is taken and given back. -/
theorem slots_owned_refused : ∃ w : World ℕ,
    exec IOCP.step (World.initial 1) [(0, .getClientSession 7), (0, .isValid true),
      (0, .connect none), (0, .slot 0 .go)] = some w ∧
      w.shared.freeIndex = List.range' 0 MAX_SESSIONS ∧ ∀ i < MAX_SESSIONS, w.places i = 1 := by
  let s : IOCP ℕ := (World.initial 1).shared
  let popped : IOCP ℕ := { s.setSession 0 { s.sessions 0 with free := 0 } with
    freeIndex := List.range' 1 14999 }
  let w₁ : World ℕ := ⟨popped, [.socket 0 true]⟩
  let w₂ : World ℕ := ⟨popped, [.connect 0 true]⟩
  let w₃ : World ℕ := ⟨popped, [.releaseFreeIndex 0 true]⟩
  let w₄ : World ℕ := ⟨popped.releaseFreeIndex 0, [.session 0 .idle]⟩
  have h₁ : IOCP.step (World.initial 1) (0, .getClientSession 7) = some w₁ := rfl
  have h₂ : IOCP.step w₁ (0, .isValid true) = some w₂ := rfl
  have h₃ : IOCP.step w₂ (0, .connect none) = some w₃ := rfl
  have h₄ : IOCP.step w₃ (0, .slot 0 .go) = some w₄ := rfl
  have hio : ∀ (free i : ℕ), ((Function.update s.sessions 0
      { s.sessions 0 with free := free }) i).io = 0 := by
    intro free i
    by_cases hi : i = 0
    · subst hi
      rw [Function.update_self]
      rfl
    · rw [Function.update_of_ne hi]
      rfl
  have hio' (i : ℕ) : ((popped.releaseFreeIndex 0).sessions i).io = 0 := by
    by_cases hi : i = 0
    · subst hi
      rfl
    · exact (congrArg Slot.io (Function.update_of_ne hi _ _)).trans (hio 0 i)
  have hfew {w : World ℕ} (hw : w.shared = popped) {pc : Pc ℕ} (ht : w.threads = [pc])
      (hpc : pc.attempt.isSome) : ∀ i, Slot.FewRefs (w.slot i) :=
    few_of_attempts (fun i => by rw [hw]; exact hio 0 i) fun q hq => by
      rw [ht] at hq
      exact .inl (List.mem_singleton.1 hq ▸ hpc)
  have hfew₄ : ∀ i, Slot.FewRefs (w₄.slot i) :=
    few_of_attempts hio' fun q hq => .inr ⟨0, List.mem_singleton.1 hq⟩
  have hrun : Runs IOCP.step Admits (World.initial 1) w₄ :=
    .tail (.tail (.tail (.tail .refl h₁ ⟨fun _ _ => by decide, hfew rfl rfl rfl⟩)
      h₂ ⟨nofun, hfew rfl rfl rfl⟩) h₃ ⟨nofun, hfew rfl rfl rfl⟩) h₄ ⟨nofun, hfew₄⟩
  exact ⟨w₄, exec_cons_iff.2 ⟨w₁, h₁, exec_cons_iff.2 ⟨w₂, h₂, exec_cons_iff.2 ⟨w₃, h₃,
    exec_cons_iff.2 ⟨w₄, h₄, rfl⟩⟩⟩⟩, rfl, (slots_owned hrun).1⟩

/-! ## No index is free -/

/-- The thread stays on the slot. -/
def busy : Slot.Pc Buf → Bool
  | .idle | .releaseFreeIndex => false
  | _ => true

/-- The next action on the slot of a thread that stays there. -/
def nextOn (k : ℕ) (s : Slot Buf) (pc : Slot.Pc Buf) (e : Slot.Event Buf) :
    Option (Slot Buf × Slot.Pc Buf) :=
  if busy pc then Slot.next k s pc e else none

/-- A thread that stays on its slot leaves the rest alone. -/
theorem solo_slot {s : IOCP Buf} {k : ℕ} {pc pc' : Slot.Pc Buf} {r : Slot Buf}
    {es : List (Slot.Event Buf)}
    (h : Pool.solo (nextOn k) (s.sessions k) pc es = some (r, pc')) :
    Pool.solo next s (.session k pc) (es.map (.slot k ·)) =
      some (s.setSession k r, .session k pc') := by
  induction es generalizing s pc with
  | nil =>
    obtain ⟨rfl, rfl⟩ := Prod.mk.inj (Option.some.inj h)
    simp only [List.map_nil, Pool.solo, setSession, Function.update_eq_self]
  | cons e es ih =>
    obtain ⟨⟨t, q⟩, hnext, hrest⟩ := Option.bind_eq_some_iff.1 h
    have hstep : next s (.session k pc) (.slot k e) = some (s.setSession k t, .session k q) := by
      simp only [nextOn] at hnext
      split at hnext
      · cases pc with
        | idle | releaseFreeIndex => rename_i hbusy; cases hbusy
        | _ => simp only [next, hnext, Option.map_some]
      · cases hnext
    have hself : (s.setSession k t).sessions k = t := Function.update_self _ _ _
    have hrun := ih (s := s.setSession k t) (by rw [hself]; exact hrest)
    have hset : (s.setSession k t).setSession k r = s.setSession k r := by
      simp only [setSession, Function.update_idem]
    rw [hset] at hrun
    simp only [List.map_cons, Pool.solo, hstep, Option.bind_some]
    exact hrun

/-- What the accept of one client is on its slot. -/
def acceptOn : List (Slot.Event ℕ) :=
  List.replicate 10 .go ++ [.result .pending, .go]

/-- `AcceptThread` accepts `n` clients. -/
def accepts (n : ℕ) : List (ℕ × Event ℕ) :=
  (List.range n).flatMap fun k => (0, .accept (k + 1)) :: acceptOn.map fun e => (0, .slot k e)

theorem exec_accepts (n : ℕ) (hn : n ≤ MAX_SESSIONS) : ∃ s j,
    exec IOCP.step (World.initial 1) (accepts n) = some ⟨s, [.session j .idle]⟩ ∧
      s.freeIndex = List.range' n (MAX_SESSIONS - n) ∧
      (∀ i < n, (s.sessions i).refCount = 1) ∧ ∀ i, n ≤ i → s.sessions i = Slot.initial := by
  induction n with
  | zero => exact ⟨_, 0, rfl, rfl, fun i hi => absurd hi (Nat.not_lt_zero i), fun _ _ => rfl⟩
  | succ n ih =>
    obtain ⟨s, j, hrun, hfree, hold, hnew⟩ := ih (by omega)
    have hfree' : s.freeIndex = n :: List.range' (n + 1) (MAX_SESSIONS - (n + 1)) := by
      rw [hfree, show MAX_SESSIONS - n = MAX_SESSIONS - (n + 1) + 1 by omega, List.range'_succ]
    obtain ⟨r, hsolo, hr⟩ : ∃ r, Pool.solo (nextOn n) { (Slot.initial : Slot ℕ) with free := 0 }
        (.reset (.accept ⟨n + 1, n⟩)) acceptOn = some (r, .idle) ∧ r.refCount = 1 :=
      ⟨_, rfl, rfl⟩
    let s₁ : IOCP ℕ := { s.setSession n { s.sessions n with free := (s.sessions n).free - 1 } with
      freeIndex := List.range' (n + 1) (MAX_SESSIONS - (n + 1)) }
    have hs₁ : s₁.sessions n = { (Slot.initial : Slot ℕ) with free := 0 } := by
      change Function.update _ _ _ n = _
      rw [Function.update_self, hnew n le_rfl]
      rfl
    have hpop : IOCP.step ⟨s, [.session j .idle]⟩ (0, .accept (n + 1)) =
        some ⟨s₁, [.session n (.reset (.accept ⟨n + 1, n⟩))]⟩ := by
      simp only [IOCP.step, Pool.step, List.getElem?_cons_zero, next, start, getFreeIndex, hfree']
      rfl
    let w₁ : World ℕ := ⟨s₁, [.session n (.reset (.accept ⟨n + 1, n⟩))]⟩
    have hslot := Pool.exec_of_solo (w := w₁) (i := 0) rfl (solo_slot (s := s₁) (hs₁ ▸ hsolo))
    rw [List.map_map] at hslot
    refine ⟨s₁.setSession n r, n, ?_, rfl, fun i hi => ?_, fun i hi => ?_⟩
    · rw [accepts, List.range_succ, List.flatMap_append, List.flatMap_singleton]
      exact exec_append hrun (exec_cons_iff.2 ⟨_, hpop, hslot⟩)
    · change (Function.update s₁.sessions n r i).refCount = 1
      by_cases hin : i = n
      · rw [hin, Function.update_self, hr]
      · rw [Function.update_of_ne hin]
        exact (congrArg Slot.refCount (Function.update_of_ne hin _ _)).trans (hold i (by omega))
    · change Function.update s₁.sessions n r i = _
      rw [Function.update_of_ne (by omega)]
      exact (Function.update_of_ne (by omega) _ _).trans (hnew i (by omega))

/-- **An index in two places.** The server is full; a `GetClientSession`
finds no index, has 7 in its local, gets no socket and pushes 7, which a
session owns. -/
theorem connect_without_index : ∃ w : World ℕ,
    exec IOCP.step (World.initial 1) (accepts MAX_SESSIONS ++ [(0, .getClientSession 7),
      (0, .isValid false), (0, .slot 0 .go)]) = some w ∧
      w.shared.freeIndex = [7] ∧ (w.shared.sessions 7).refCount = 1 ∧ 2 ≤ w.places 7 := by
  obtain ⟨s, j, hrun, hfree, hold, -⟩ := exec_accepts MAX_SESSIONS le_rfl
  have hempty : s.freeIndex = [] := by rw [hfree, Nat.sub_self]; rfl
  have hget : IOCP.step ⟨s, [.session j .idle]⟩ (0, .getClientSession 7) =
      some ⟨s, [.socket 7 false]⟩ := by
    simp only [IOCP.step, Pool.step, List.getElem?_cons_zero, next, start, getFreeIndex, hempty]
    rfl
  have hcount : (s.sessions 7).refCount = 1 := hold 7 (by decide)
  let w : World ℕ := ⟨s.releaseFreeIndex 7, [.session 0 .idle]⟩
  refine ⟨w, exec_append hrun (exec_cons_iff.2 ⟨_, hget, rfl⟩), ?_, hcount, ?_⟩
  · exact congrArg (7 :: ·) hempty
  · have hone : w.shared.freeIndex.count 7 = 1 := by
      change (7 :: s.freeIndex).count 7 = 1
      rw [hempty]
      rfl
    have hlive : (w.shared.sessions 7).refCount < RELEASE_FLAG := by
      change (s.sessions 7).refCount < RELEASE_FLAG
      rw [hcount]
      decide
    rw [World.places, hone, if_pos hlive]
    omega

end IOCP

end NetLib
