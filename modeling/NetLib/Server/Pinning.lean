import Mathlib.Data.List.Nodup
import NetLib.Server.Model
import NetLib.Slot.Pinning
/-!
# Every slot of the server is sound

A run of the server, seen from one slot, is a run of that slot: the threads
that are elsewhere are idle there, and the accepts elsewhere only make
`g_sessionId` grow. So each slot is sound, and `_freeIndex` holds exactly
the indices of the slots that wait for a session.
-/

namespace NetLib

namespace Server

open Slot

variable {Buf : Type}

/-! ## A step of the server -/

/-- What an action on slot `k` does outside the fields of that slot. -/
inductive Draw (s s' : Server Buf) (k : ℕ) (pc : Pc Buf) (e : Event Buf) : Prop
  | none (hpc : pc ≠ .releaseFreeIndex) (he : pc = .idle → ∀ others, e ≠ .accept others)
      (hfree : s'.freeIndex = s.freeIndex) (hg : s'.gSessionId = s.gSessionId)
  | pop (hpc : pc = .idle) (he : e = .accept (s.gSessionId - (s.sessions k).gSessionId))
      (hfree : s.freeIndex = k :: s'.freeIndex) (hg : s'.gSessionId = s.gSessionId + 1)
  | push (hpc : pc = .releaseFreeIndex)
      (hfree : s'.freeIndex = (s.sessions k).sessionId.index :: s.freeIndex)
      (hg : s'.gSessionId = s.gSessionId)

/-- An action on slot `k` by a thread that was idle or already there. -/
inductive Acts (s s' : Server Buf) (j k : ℕ) (pc pc' : Pc Buf) : Prop
  | act (e : Event Buf) (r : Slot Buf) (hnext : Slot.next k (s.sessions k) pc e = some (r, pc'))
      (hsessions : s'.sessions = Function.update s.sessions k r)
      (hwhere : pc = .idle ∧ (k < MAX_SESSIONS ∨ k ∈ s.freeIndex) ∨ pc ≠ .idle ∧ k = j)
      (hdraw : Draw s s' k pc e)

theorem start_acts {s s' : Server Buf} {j k idx : ℕ} {pc' : Pc Buf} {e : Event Buf}
    (h : s.start idx e = some (s', k, pc')) :
    (s' = s ∧ pc' = .idle) ∨ Acts s s' j k .idle pc' := by
  unfold start at h
  split at h
  · rename_i id hid
    have hne : ∀ others, e ≠ .accept others := by rintro o rfl; cases hid
    split at h
    · cases h
      exact .inl ⟨rfl, rfl⟩
    · obtain ⟨⟨r, q⟩, hst, hr⟩ := Option.map_eq_some_iff.1 h
      cases hr
      exact .inr (.act e r hst rfl (.inl ⟨rfl, .inl (by omega)⟩)
        (.none (by simp) (fun _ => hne) rfl rfl))
  · split at h
    · split at h
      · cases h
      · rename_i top rest hfree
        obtain ⟨⟨r, q⟩, hst, hr⟩ := Option.map_eq_some_iff.1 h
        cases hr
        exact .inr (.act (.accept _) r hst rfl (.inl ⟨rfl, .inr (hfree ▸ List.mem_cons_self)⟩)
          (.pop rfl rfl hfree rfl))
    · rename_i hne
      split at h
      · cases h
      · obtain ⟨⟨r, q⟩, hst, hr⟩ := Option.map_eq_some_iff.1 h
        cases hr
        exact .inr (.act e r hst rfl (.inl ⟨rfl, .inl (by omega)⟩)
          (.none (by simp) (fun _ => hne) rfl rfl))

/-- **What a step of a thread is**: nothing, for an id out of range, or an
action on one slot. -/
theorem next_acts {s s' : Server Buf} {j k idx : ℕ} {pc pc' : Pc Buf} {e : Event Buf}
    (h : next s (j, pc) (idx, e) = some (s', k, pc')) :
    (s' = s ∧ pc = .idle ∧ pc' = .idle) ∨ Acts s s' j k pc pc' := by
  unfold next at h
  split at h
  · rename_i heq he
    cases heq
    cases he
    rcases start_acts h with ⟨hs, hpc⟩ | hacts
    · exact .inl ⟨hs, rfl, hpc⟩
    · exact .inr hacts
  · rename_i heq he
    cases heq
    cases he
    obtain ⟨⟨r, q⟩, hst, hr⟩ := Option.map_eq_some_iff.1 h
    cases hr
    exact .inr (.act _ r hst rfl (.inr ⟨by simp, rfl⟩) (.push rfl rfl rfl))
  · rename_i hidle hfree heq he
    cases heq
    cases he
    obtain ⟨⟨r, q⟩, hst, hr⟩ := Option.map_eq_some_iff.1 h
    cases hr
    exact .inr (.act _ r hst rfl (.inr ⟨hidle, rfl⟩)
      (.none hfree (fun hpc => (hidle hpc).elim) rfl rfl))

/-! ## The server as one slot sees it -/

/-- What a thread of the server is doing on one slot. -/
def onSlot (index : ℕ) (th : ℕ × Pc Buf) : Pc Buf := if th.1 = index then th.2 else .idle

/-- The slot, and on it the threads that are there. -/
def World.slot (w : World Buf) (index : ℕ) : Slot.World Buf :=
  ⟨w.shared.sessions index, w.threads.map (onSlot index)⟩

section Step

variable {w w' : World Buf} {t j k : ℕ} {pc pc' : Pc Buf}

/-- A slot sees nothing of what happens elsewhere. -/
theorem slot_other {i : ℕ} {th th' : ℕ × Pc Buf} (hth : w.threads[t]? = some th)
    (ht : w'.threads = w.threads.set t th')
    (hs : w'.shared.sessions i = w.shared.sessions i) (hon : onSlot i th' = onSlot i th) :
    w'.slot i = w.slot i := by
  have hmap : w'.threads.map (onSlot i) = w.threads.map (onSlot i) := by
    obtain ⟨hlt, hget⟩ := List.getElem?_eq_some_iff.1 hth
    rw [ht, List.map_set, hon, ← hget, ← List.map_set, List.set_getElem_self]
  simp only [World.slot, hs, hmap]

/-- An action on a slot is a step of that slot. -/
theorem slot_self {e : Event Buf} {r : Slot Buf} (hth : w.threads[t]? = some (j, pc))
    (ht : w'.threads = w.threads.set t (k, pc'))
    (hnext : Slot.next k (w.shared.sessions k) pc e = some (r, pc'))
    (hs : w'.shared.sessions = Function.update w.shared.sessions k r)
    (hwhere : pc = .idle ∨ k = j) : Slot.step k (w.slot k) (t, e) = some (w'.slot k) := by
  have hon : onSlot k (j, pc) = pc := by
    rcases hwhere with rfl | rfl <;> simp [onSlot]
  simp only [Slot.step, Pool.step, World.slot, List.getElem?_map, hth, Option.map_some, hon, hnext,
    hs, Function.update_self, ht, List.map_set]
  simp [onSlot]

/-- **A run of the server is a run of each slot**: what a step does to slot
`i` is nothing or a step of that slot. -/
theorem step_slot {e : ℕ × ℕ × Event Buf} (hst : Server.step w e = some w') (i : ℕ) :
    w'.slot i = w.slot i ∨ ∃ ev, Slot.step i (w.slot i) ev = some (w'.slot i) := by
  obtain ⟨t, idx, ev⟩ := e
  obtain ⟨⟨j, pc⟩, ⟨k, pc'⟩, hth, hnext, ht⟩ := Pool.step_eq_some hst
  rcases next_acts hnext with ⟨hs, hpc, hpc'⟩ | ⟨e, r, hslot, hsessions, hwhere, -⟩
  · exact .inl (slot_other hth ht (by rw [hs]) (by rw [hpc, hpc']; simp [onSlot]))
  · by_cases hik : i = k
    · subst hik
      exact .inr ⟨(t, e), slot_self hth ht hslot hsessions (hwhere.imp And.left And.right)⟩
    · have hon : onSlot i (k, pc') = onSlot i (j, pc) := by
        rcases hwhere with ⟨rfl, -⟩ | ⟨-, rfl⟩ <;> simp [onSlot, Ne.symm hik]
      exact .inl (slot_other hth ht (by rw [hsessions, Function.update_of_ne hik]) hon)

end Step

/-! ## The invariant -/

/-- Every slot is sound, and the free indices are those of the slots that
wait for a session. -/
structure AllSound (w : World Buf) : Prop where
  slots : ∀ i, Slot.Sound i (w.slot i)
  counted : ∀ i < MAX_SESSIONS, w.shared.freeIndex.count i = (w.shared.sessions i).free
  inRange : ∀ i ∈ w.shared.freeIndex, i < MAX_SESSIONS
  threads : ∀ th ∈ w.threads, th.2 ≠ .idle → th.1 < MAX_SESSIONS
  drawn : ∀ i, (w.shared.sessions i).gSessionId ≤ w.shared.gSessionId

/-- Fewer references on each slot than the flag's bit. -/
def FewRefs (w : World Buf) : Prop := ∀ i, Slot.FewRefs (w.slot i)

theorem slot_initial [Inhabited Buf] (n i : ℕ) :
    (World.initial n : World Buf).slot i = Slot.World.initial n := by
  simp [World.slot, World.initial, Slot.World.initial, onSlot]

theorem AllSound.initial [Inhabited Buf] (n : ℕ) : AllSound (World.initial n : World Buf) where
  slots i := by
    rw [slot_initial]
    exact Slot.Sound.initial n
  counted i hi := by
    have hmem : i ∈ List.range' 0 MAX_SESSIONS := List.mem_range'_1.2 (by omega)
    simp only [World.initial, List.count_eq_one_of_mem List.nodup_range' hmem, Slot.initial]
  inRange i hi := by
    simp only [World.initial, List.mem_range'_1] at hi
    omega
  threads th hth hne := by
    rw [List.eq_of_mem_replicate hth] at hne
    exact absurd rfl hne
  drawn _ := le_rfl

/-- `_freeIndex` and `g_sessionId` keep in step with the slot acted on. -/
theorem Acts.counted {s s' : Server Buf} {j k : ℕ} {pc pc' : Pc Buf} (h : Acts s s' j k pc pc')
    (hindex : pc = .releaseFreeIndex → (s.sessions k).sessionId.index = k)
    (hdrawn : (s.sessions k).gSessionId ≤ s.gSessionId) (i : ℕ) :
    s'.freeIndex.count i + (s.sessions i).free = s.freeIndex.count i + (s'.sessions i).free ∧
      s.gSessionId ≤ s'.gSessionId ∧ (s'.sessions k).gSessionId ≤ s'.gSessionId := by
  obtain ⟨e, r, hnext, hsessions, -, hdraw⟩ := h
  have hn := next_naming hnext
  have hself : s'.sessions k = r := by rw [hsessions, Function.update_self]
  have hother (hne : i ≠ k) : s'.sessions i = s.sessions i := by
    rw [hsessions, Function.update_of_ne hne]
  rw [hself]
  cases hdraw with
  | none hpc he hfree hg =>
    have hquiet : r.free = (s.sessions k).free ∧ r.gSessionId = (s.sessions k).gSessionId := by
      cases hn with
      | same _ _ hg _ hfree => exact ⟨hfree, hg⟩
      | draw others hold hev => exact absurd hev (he hold others)
      | name _ _ _ _ hg _ hfree => exact ⟨hfree, hg⟩
      | openUp _ _ _ hg _ hfree => exact ⟨hfree, hg⟩
      | post _ _ _ hg hfree => exact ⟨hfree, hg⟩
      | take _ _ _ hg _ hfree => exact ⟨hfree, hg⟩
      | giveBack hold => exact absurd hold hpc
    rw [hfree, hg]
    refine ⟨?_, le_rfl, by omega⟩
    by_cases hik : i = k
    · rw [hik, hself]; omega
    · rw [hother hik]
  | pop hpc he hfree hg =>
    rw [hpc, he] at hnext
    simp only [Slot.next, Slot.start, Option.ite_none_right_eq_some, Option.some.injEq,
      Prod.mk.injEq] at hnext
    obtain ⟨hpos, rfl, -⟩ := hnext
    rw [hfree, hg]
    refine ⟨?_, by omega, by simp only; omega⟩
    by_cases hik : i = k
    · subst hik
      rw [hself, List.count_cons_self]
      simp only
      omega
    · rw [hother hik, List.count_cons_of_ne (Ne.symm hik)]
  | push hpc hfree hg =>
    subst hpc
    simp only [Slot.next, nextLife, Option.some.injEq, Prod.mk.injEq] at hnext
    obtain ⟨rfl, -⟩ := hnext
    rw [hfree, hg, hindex rfl]
    refine ⟨?_, le_rfl, hdrawn⟩
    by_cases hik : i = k
    · subst hik
      rw [hself, List.count_cons_self]
      simp only [hindex rfl, if_true]
      omega
    · rw [hother hik, List.count_cons_of_ne (Ne.symm hik)]

/-- **Every step keeps the server sound.** -/
theorem AllSound.step {w w' : World Buf} {e : ℕ × ℕ × Event Buf} (h : AllSound w)
    (hst : Server.step w e = some w') (hfew : FewRefs w') : AllSound w' := by
  obtain ⟨t, idx, ev⟩ := e
  obtain ⟨⟨j, pc⟩, ⟨k, pc'⟩, hth, hnext, ht⟩ := Pool.step_eq_some hst
  have hmem := List.mem_of_getElem? hth
  have hslots (i : ℕ) : Slot.Sound i (w'.slot i) := by
    rcases step_slot hst i with heq | ⟨ev, hev⟩
    · exact heq ▸ h.slots i
    · exact (h.slots i).step hev (hfew i)
  rcases next_acts hnext with ⟨hs, -, hpc'⟩ | hacts
  · -- the id was out of range
    rw [hpc'] at ht
    exact {
      slots := hslots
      counted := hs.symm ▸ h.counted
      inRange := hs.symm ▸ h.inRange
      threads := Pool.forall_threads ht h.threads fun hne => absurd rfl hne
      drawn := hs.symm ▸ h.drawn }
  · have hindexed : pc = .releaseFreeIndex → (w.shared.sessions k).sessionId.index = k := by
      rintro rfl
      obtain ⟨e, r, -, -, hwhere, -⟩ := hacts
      obtain rfl : k = j := by simpa using hwhere
      exact (h.slots k).indexed (List.mem_map.2 ⟨_, hmem, by simp [onSlot]⟩)
    have hcount := hacts.counted hindexed (h.drawn k)
    obtain ⟨e, r, -, hsessions, hwhere, hdraw⟩ := hacts
    have hother {i : ℕ} (hne : i ≠ k) : w'.shared.sessions i = w.shared.sessions i := by
      rw [hsessions, Function.update_of_ne hne]
    have hk : k < MAX_SESSIONS := by
      rcases hwhere with ⟨-, hk | hk⟩ | ⟨hne, rfl⟩
      · exact hk
      · exact h.inRange k hk
      · exact h.threads _ hmem hne
    exact {
      slots := hslots
      counted := fun i hi => by
        have := h.counted i hi
        have := (hcount i).1
        omega
      inRange := fun i hi => by
        cases hdraw with
        | none _ _ hfree => exact h.inRange i (hfree ▸ hi)
        | pop _ _ hfree => exact h.inRange i (hfree ▸ List.mem_cons_of_mem _ hi)
        | push hpc hfree =>
          rw [hfree, hindexed hpc] at hi
          rcases List.mem_cons.1 hi with rfl | hi
          · exact hk
          · exact h.inRange i hi
      threads := Pool.forall_threads ht h.threads fun _ => hk
      drawn := fun i => by
        by_cases hik : i = k
        · exact hik ▸ (hcount i).2.2
        · rw [hother hik]
          exact (h.drawn i).trans (hcount i).2.1 }

/-- **Every run keeps the server sound.** -/
theorem AllSound.run [Inhabited Buf] {n : ℕ} {w : World Buf}
    (h : Runs Server.step (fun _ _ => FewRefs) (World.initial n) w) : AllSound w :=
  h.invariant (AllSound.initial n) AllSound.step

/-- A run too short for a million references meets the side condition. -/
theorem runs_of_short {es : List (ℕ × ℕ × Event Buf)} {w w' : World Buf} {r : ℕ} (hs : AllSound w)
    (hr : ∀ i, (life (w.slot i)).refs ≤ r) (hlen : ((r + es.length : ℕ) : ℤ) < RELEASE_FLAG)
    (h : exec Server.step w es = some w') : Runs Server.step (fun _ _ => FewRefs) w w' := by
  induction es generalizing w r with
  | nil =>
    obtain rfl : w = w' := Option.some.inj h
    exact .refl
  | cons e es ih =>
    obtain ⟨v, hv, hrest⟩ := Option.bind_eq_some_iff.1 h
    rw [List.length_cons] at hlen
    have hr' (i : ℕ) : (life (v.slot i)).refs ≤ r + 1 := by
      rcases step_slot hv i with heq | ⟨ev, hev⟩
      · exact heq ▸ (hr i).trans (Nat.le_succ r)
      · exact (life_step hev (hs.slots i).indexed).refs_le.trans (Nat.succ_le_succ (hr i))
    have hfew : FewRefs v := fun i => by
      have := hr' i
      unfold Slot.FewRefs
      omega
    exact .head hv hfew (ih (hs.step hv hfew) hr' (by omega) hrest)

/-! ## What a reference from `FindSession` is worth -/

/-- **A session is pinned by its reference count.** In every run with fewer
references on each slot than the flag's bit:

* `FindSession` answers a slot only for the session that is open in it;
* while that reference is held the slot keeps the session: no thread resets
  the slot or names it anew;
* every incarnation is posted at most once, in the order of their opening;
* a post finds no reference and no operation of the incarnation left;
* once no thread and no operation uses the slot, every incarnation was
  posted. -/
theorem find_session_pins [Inhabited Buf] {n : ℕ} {w : World Buf}
    (h : Runs step (fun _ _ => FewRefs) (World.initial n) w) :
    (∀ e w' i id result use, step w e = some w' →
        w.threads[e.1]? = some (i, .findCheck id result use) →
        w'.threads[e.1]? = some (i, use.found id) →
        i = id.index ∧
          (w.shared.sessions i).accepted = (w.shared.sessions i).posted ++ [id]) ∧
      (∀ i pc, (i, pc) ∈ w.threads → ∀ id ∈ pc.held,
        i = id.index ∧ (w.shared.sessions i).sessionId = id ∧
          (w.shared.sessions i).accepted = (w.shared.sessions i).posted ++ [id] ∧
          ∀ q, (i, q) ∈ w.threads → q.stage = .outside) ∧
      (∀ i, (w.shared.sessions i).accepted.Nodup ∧
        ((w.shared.sessions i).accepted = (w.shared.sessions i).posted ∨
          (w.shared.sessions i).accepted =
            (w.shared.sessions i).posted ++ [(w.shared.sessions i).sessionId])) ∧
      (∀ i k, (i, Pc.postRelease k) ∈ w.threads →
        (w.shared.sessions i).io = 0 ∧ ∀ q, (i, q) ∈ w.threads → q.pinned = 0) ∧
      ∀ i, (w.shared.sessions i).io = 0 → (∀ q, (i, q) ∈ w.threads → q = .idle) →
        (w.shared.sessions i).accepted = (w.shared.sessions i).posted := by
  have hs := AllSound.run h
  have hon {i : ℕ} {pc : Pc Buf} (hpc : (i, pc) ∈ w.threads) : pc ∈ (w.slot i).threads :=
    List.mem_map.2 ⟨_, hpc, by simp [onSlot]⟩
  have hindex {i : ℕ} {id : SessionID}
      (hacc : (w.shared.sessions i).accepted = (w.shared.sessions i).posted ++ [id]) :
      i = id.index :=
    ((hs.slots i).drawn id (hacc ▸ List.mem_append_right _ List.mem_cons_self)).1.symm
  refine ⟨?_, ?_, fun i => (hs.slots i).posted_once, ?_, ?_⟩
  · intro e w' i id result use hst hpc hpc'
    obtain ⟨th, th', hth, hnext, ht⟩ := Pool.step_eq_some hst
    obtain rfl : th = (i, .findCheck id result use) := Option.some.inj (hth.symm.trans hpc)
    obtain ⟨hlt, -⟩ := List.getElem?_eq_some_iff.1 hth
    rw [ht, List.getElem?_set_self hlt] at hpc'
    obtain rfl := Option.some.inj hpc'
    have hmem := hon (List.mem_of_getElem? hpc)
    have hok : ¬(RELEASE_FLAG < result ∨ (w.shared.sessions i).sessionId ≠ id) := by
      intro hbad
      simp only [next, Slot.next, nextRef, if_pos hbad] at hnext
      cases use <;> simp [Use.found] at hnext
    have hacc := (hs.slots i).find hmem hok
    exact ⟨hindex hacc, hacc⟩
  · intro i pc hpc id hid
    obtain ⟨hsid, hacc, hout⟩ := (hs.slots i).pinned (hon hpc) hid
    exact ⟨hindex hacc, hsid, hacc, fun q hq => hout q (hon hq)⟩
  · intro i k hpc
    obtain ⟨hio, hpin⟩ := (hs.slots i).last (hon hpc) Nat.one_pos
    exact ⟨hio, fun q hq => hpin q (hon hq)⟩
  · intro i hio hidle
    refine (hs.slots i).posted_all hio fun pc hpc => ?_
    obtain ⟨⟨j, q⟩, hq, rfl⟩ := List.mem_map.1 hpc
    by_cases hji : j = i
    · subst hji
      simp [onSlot, hidle q hq]
    · simp [onSlot, hji]

/-- A session is accepted on slot 0, and a second thread finds it. -/
def acceptAndFind : List (ℕ × ℕ × Event ℕ) :=
  (0, 0, .accept 0) :: List.replicate 9 (0, 0, .go) ++
    (1, 0, .hold ⟨1, 0⟩) :: List.replicate 2 (1, 0, .go)

theorem find_session_pins_found : ∃ w : World ℕ,
    exec Server.step (World.initial 2) acceptAndFind = some w ∧
      (0, Pc.holding ⟨1, 0⟩) ∈ w.threads ∧ (w.shared.sessions 0).sessionId = ⟨1, 0⟩ ∧
      (w.shared.sessions 0).accepted = (w.shared.sessions 0).posted ++ [⟨1, 0⟩] := by
  have hmap : (exec Server.step (World.initial 2) acceptAndFind).map (·.threads) =
      some [(0, .recvConnect), (0, .holding ⟨1, 0⟩)] := rfl
  obtain ⟨w, hw, hthreads⟩ := Option.map_eq_some_iff.1 hmap
  have hmem : (0, Pc.holding ⟨1, 0⟩) ∈ w.threads := by simp [hthreads]
  have hrefs (i : ℕ) : (life ((World.initial 2 : World ℕ).slot i)).refs ≤ 0 := by
    rw [slot_initial, life_initial]
  have hrun := runs_of_short (AllSound.initial 2) hrefs (by decide) hw
  obtain ⟨-, hpin, -⟩ := find_session_pins hrun
  obtain ⟨-, hid, hacc, -⟩ := hpin 0 _ hmem ⟨1, 0⟩ (by simp [Pc.held])
  exact ⟨w, hw, hmem, hid, hacc⟩

end Server

end NetLib
