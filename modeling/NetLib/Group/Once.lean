import NetLib.Group.Release
/-!
# Every session is released once

From the one `PostRelease` of a session follow one `OnDisconnect`, one
`Reset` and one push of its index, in this order; the histories are each as
far as the one before it, up to the session under way.
-/

namespace NetLib

namespace Grouped

variable {Buf : Type} {index : ℕ} {s s' : Grouped Buf} {w w' : World Buf} {pc pc' : Pc Buf}

/-- Where a thread stands in `ReleaseExecutable::Execute`. -/
def Pc.parting : Pc Buf → Slot.Parting
  | .slot _ q => q.parting
  | .resetGroup .release => .resetting
  | _ => .off

def Pc.isParting (p : Slot.Parting) (pc : Pc Buf) : ℕ := if pc.parting = p then 1 else 0

/-- What an action does to a posted session. -/
inductive Passing (s : Grouped Buf) (pc : Pc Buf) (s' : Grouped Buf) (pc' : Pc Buf) : Prop
  | same (hphase : pc'.parting = pc.parting) (hposted : s'.slot.posted = s.slot.posted)
      (hrel : s'.slot.releasePosted = s.slot.releasePosted)
      (hdis : s'.slot.disconnected = s.slot.disconnected) (hresets : s'.resets = s.resets)
      (hpushed : s'.pushed = s.pushed)
  | post (howed : 0 < pc.onSlot.owed) (hold : pc.parting = .off) (hnew : pc'.parting = .off)
      (hposted : s'.slot.posted = s.slot.posted ++ [s.slot.sessionId])
      (hrel : s'.slot.releasePosted = s.slot.releasePosted + 1)
      (hdis : s'.slot.disconnected = s.slot.disconnected) (hresets : s'.resets = s.resets)
      (hpushed : s'.pushed = s.pushed)
  | take (hold : pc.parting = .off) (hnew : pc'.parting = .disconnecting)
      (hposted : s'.slot.posted = s.slot.posted)
      (hrel : s'.slot.releasePosted + 1 = s.slot.releasePosted)
      (hdis : s'.slot.disconnected = s.slot.disconnected) (hresets : s'.resets = s.resets)
      (hpushed : s'.pushed = s.pushed)
  | call (hold : pc.parting = .disconnecting) (hnew : pc'.parting = .resetting)
      (hposted : s'.slot.posted = s.slot.posted)
      (hrel : s'.slot.releasePosted = s.slot.releasePosted)
      (hdis : s'.slot.disconnected = s.slot.disconnected ++ [s.slot.sessionId])
      (hresets : s'.resets = s.resets) (hpushed : s'.pushed = s.pushed)
  | reset (hold : pc.parting = .resetting) (hnew : pc'.parting = .returning)
      (hposted : s'.slot.posted = s.slot.posted)
      (hrel : s'.slot.releasePosted = s.slot.releasePosted)
      (hdis : s'.slot.disconnected = s.slot.disconnected)
      (hresets : s'.resets = s.resets ++ [s.slot.sessionId]) (hpushed : s'.pushed = s.pushed)
  | giveBack (hold : pc.parting = .returning) (hnew : pc'.parting = .off)
      (hposted : s'.slot.posted = s.slot.posted)
      (hrel : s'.slot.releasePosted = s.slot.releasePosted)
      (hdis : s'.slot.disconnected = s.slot.disconnected) (hresets : s'.resets = s.resets)
      (hpushed : s'.pushed = s.pushed ++ [s.slot.sessionId])

theorem enter_parting {home : Option GroupID} {q q' : Slot.Pc Buf}
    (h : q' ≠ .resetSending .release) : (enter home q q').parting = q'.parting := by
  unfold enter
  split
  case h_4 r =>
    cases r with
    | accept id => rfl
    | release => exact absurd rfl h
  all_goals rfl

theorem enter_resetSending {home : Option GroupID} {q : Slot.Pc Buf} :
    (enter home q (.resetSending .release)).parting = .resetting := by
  cases home <;> cases q <;> rfl

/-- The pushes are taken down at `ReleaseFreeIndex`. -/
theorem observe_pushed (s : Grouped Buf) {q : Slot.Pc Buf} (h : q ≠ .releaseFreeIndex)
    (r : Slot Buf) : ({ s.observe q with slot := r } : Grouped Buf).pushed = s.pushed ∧
      ({ s.observe q with slot := r } : Grouped Buf).resets = s.resets := by
  unfold observe
  split
  · exact ⟨rfl, rfl⟩
  · exact absurd rfl h
  · exact ⟨rfl, rfl⟩

theorem slot_passing {home : Option GroupID} {q q' : Slot.Pc Buf} {e : Slot.Event Buf}
    {r : Slot Buf} (hnext : Slot.next index s.slot q e = some (r, q')) :
    Passing s (.slot home q) { s.observe q with slot := r } (enter home q q') := by
  by_cases hfree : q = .releaseFreeIndex
  · subst hfree
    obtain ⟨rfl, rfl⟩ := Prod.mk.inj (Option.some.inj hnext)
    exact .giveBack rfl (enter_parting nofun) rfl rfl rfl rfl rfl
  obtain ⟨hpushed, hresets⟩ := observe_pushed s hfree r
  cases Slot.next_ending hnext with
  | same hphase hposted hdis hrel =>
    refine .same ((enter_parting fun heq => ?_).trans hphase) hposted hrel hdis hresets hpushed
    -- `Reset` is entered from its own loop only
    subst heq
    cases q with
    | releaseFreeIndex => exact hfree rfl
    | resetSending r' =>
      cases r' with
      | accept id => cases hphase
      | release => cases (Prod.mk.inj (Option.some.inj hnext)).2
    | reset r' | deqHead r' | deqLoad r' | deqCas r' | deqData r' | deqClear r' =>
      cases r' <;> first
        | cases hphase
        | (rename_i r'; cases r' <;> cases hphase)
    | _ => cases hphase
  | post howed hnew hposted hdis hrel =>
    refine .post howed ?_ ((enter_parting fun heq => ?_).trans hnew) hposted hrel hdis
      hresets hpushed
    · cases q with
      | postRelease k => rfl
      | _ => cases howed
    · rw [heq] at hnew
      cases hnew
  | take hold hnew hposted hdis hrel =>
    refine .take (hold ▸ rfl) ((enter_parting fun heq => ?_).trans hnew) hposted hrel hdis hresets
      hpushed
    rw [heq] at hnew
    cases hnew
  | call hold hnew hposted hdis hrel =>
    refine .call (hold ▸ rfl) ((enter_parting fun heq => ?_).trans hnew) hposted hrel hdis hresets
      hpushed
    rw [heq] at hnew
    cases hnew
  | clear hold hnew hposted hdis hrel =>
    subst hnew
    exact .same (enter_resetSending.trans hold.symm) hposted hrel hdis hresets hpushed
  | giveBack hold => exact absurd hold hfree

theorem Action.passing {e : Event Buf} (h : Action index s pc e s' pc') (hdue : pc.Due s) :
    Passing s pc s' pc' := by
  cases h
  case slot hnext _ => exact slot_passing hnext
  case checkPost last =>
    obtain rfl : last = true := hdue
    exact .post Nat.one_pos rfl rfl rfl rfl rfl rfl rfl
  case resetRelease => exact .reset rfl rfl rfl rfl rfl rfl rfl
  case dequeue job hfind => cases job <;> exact .same rfl rfl rfl rfl rfl rfl
  case disconnectNone k hg => exact .same k.pc_parting rfl rfl rfl rfl rfl
  case disconnectLeave k => exact .same k.pc_parting rfl rfl rfl rfl rfl
  all_goals exact .same rfl rfl rfl rfl rfl rfl

/-! ## The histories -/

/-- The histories of a session's end: each is as far as the one before, up to
the session that is between the two. -/
structure Trail (w : World Buf) : Prop where
  posted : w.shared.slot.posted = w.shared.slot.disconnected ++ List.replicate
    (w.shared.slot.releasePosted + w.total (Pc.isParting .disconnecting)) w.shared.slot.sessionId
  disconnected : w.shared.slot.disconnected = w.shared.resets ++ List.replicate
    (w.total (Pc.isParting .resetting)) w.shared.slot.sessionId
  resets : w.shared.resets = w.shared.pushed ++ List.replicate
    (w.total (Pc.isParting .returning)) w.shared.slot.sessionId

/-- Is the thread at any of these? -/
def Pc.returns (pc : Pc Buf) : ℕ :=
  pc.isParting .disconnecting + pc.isParting .resetting + pc.isParting .returning

theorem returns_le (pc : Pc Buf) : pc.returns ≤ pc.onSlot.closed := by
  have hclosed : pc.parting ≠ .off → pc.onSlot.closed = 1 := by
    intro hphase
    cases pc with
    | slot home q => exact Slot.Pc.closed_of_parting hphase
    | resetGroup r => rfl
    | _ => exact absurd rfl hphase
  simp only [Pc.returns, Pc.isParting]
  cases hp : pc.parting with
  | off => simp
  | disconnecting | resetting | returning =>
    have := hclosed (by rw [hp]; nofun)
    simp [this]

theorem total_returns : w.total (Pc.isParting .disconnecting) + w.total (Pc.isParting .resetting) +
    w.total (Pc.isParting .returning) = w.total Pc.returns := by
  simp only [Pool.total]
  induction w.threads with
  | nil => rfl
  | cons pc l ih =>
    simp only [List.map_cons, List.sum_cons, Pc.returns] at ih ⊢
    omega

/-- Those threads are among the ones that close the slot; of the others
one may do so, and then there are none. -/
theorem returns_add_le (h : Slot.Sound index w.onSlot) (hpc : pc ∈ w.threads) :
    w.shared.slot.releasePosted + w.shared.slot.free + (Slot.life w.onSlot).owed +
      w.total Pc.returns + pc.onSlot.closed ≤ 1 + pc.returns := by
  have hone := h.counted.one
  have htotal := total_onSlot (w := w) Slot.Pc.closed
  have hle := Pool.total_add_le (w := w) returns_le hpc
  change (Slot.life w.onSlot).owed + (w.shared.slot.releasePosted + w.shared.slot.free +
    w.onSlot.total Slot.Pc.closed) ≤ 1 at hone
  omega

theorem Trail.initial [Inhabited Buf] (n : ℕ) : Trail (World.initial n : World Buf) := by
  have hzero (p : Slot.Parting) (hp : p ≠ .off) :
      (World.initial n : World Buf).total (Pc.isParting p) = 0 := by
    have hidle : Pc.isParting p (.slot none .idle : Pc Buf) = 0 := if_neg (Ne.symm hp)
    simp [Pool.total, World.initial, hidle]
  refine ⟨?_, ?_, ?_⟩
  · rw [hzero .disconnecting (by simp)]
    rfl
  · rw [hzero .resetting (by simp)]
    rfl
  · rw [hzero .returning (by simp)]
    rfl

/-- A history `a` that is `m` sessions ahead of `b`, when `a` grows by `k` and
`b` by `l`. -/
theorem follows {a b a' b' : List SessionID} {m m' : ℕ} {x : SessionID}
    (h : a = b ++ List.replicate m x) (k l : ℕ) (ha : a' = a ++ List.replicate k x)
    (hb : b' = b ++ List.replicate l x) (hm : m' + l = m + k) :
    a' = b' ++ List.replicate m' x := by
  rw [ha, h, hb, List.append_assoc, List.append_assoc, List.replicate_append_replicate,
    List.replicate_append_replicate, ← hm, Nat.add_comm]

theorem follows_same {a b a' b' : List SessionID} {m m' : ℕ} {x : SessionID}
    (h : a = b ++ List.replicate m x) (ha : a' = a) (hb : b' = b) (hm : m' = m) :
    a' = b' ++ List.replicate m' x := by
  rw [ha, hb, hm, h]

/-- **The histories stay in step.** -/
theorem Trail.step {e : ℕ × Event Buf} (h : Trail w) (hr : Releasing index w)
    (hpc : w.threads[e.1]? = some pc) (ha : Action index w.shared pc e.2 w'.shared pc')
    (ht : w'.threads = w.threads.set e.1 pc') : Trail w' := by
  have hmem := List.mem_of_getElem? hpc
  have hle := returns_add_le hr.sound hmem
  have hsum := total_returns (w := w)
  have hd := Pool.total_step (Pc.isParting .disconnecting) hpc ht
  have hs := Pool.total_step (Pc.isParting .resetting) hpc ht
  have hg := Pool.total_step (Pc.isParting .returning) hpc ht
  obtain ⟨hposted, hdis, hresets⟩ := h
  -- the id changes only while no session is on its way back
  have hid : w'.shared.slot.sessionId = w.shared.slot.sessionId ∨
      w.shared.slot.releasePosted + w.total Pc.returns = 0 ∧ pc.returns = 0 ∧ pc.onSlot.owed = 0 ∧
        pc.parting = .off := by
    cases ha.names with
    | same _ hid | move _ _ hid | reset _ _ hid => exact .inl hid
    | name hold _ hid =>
      subst hold
      change _ + 1 ≤ 1 + 0 at hle
      exact .inr ⟨by omega, rfl, rfl, rfl⟩
  have hrep (n : ℕ) (hn : w.shared.slot.releasePosted + w.total Pc.returns = 0 → n = 0) :
      List.replicate n w'.shared.slot.sessionId = List.replicate n w.shared.slot.sessionId := by
    rcases hid with hid | ⟨hz, -⟩
    · rw [hid]
    · rw [hn hz]
      rfl
  have hof {p : Slot.Parting} (hp : pc.parting = p) (q : Slot.Parting) :
      pc.isParting q = if p = q then 1 else 0 := by rw [Pc.isParting, hp]
  have hof' {p : Slot.Parting} (hp : pc'.parting = p) (q : Slot.Parting) :
      pc'.isParting q = if p = q then 1 else 0 := by rw [Pc.isParting, hp]
  cases ha.passing (hr.fits pc hmem).due with
  | same hphase hposted' hrel' hdis' hresets' hpushed' =>
    rw [hof hphase.symm, hof' rfl] at hd hs hg
    refine ⟨?_, ?_, ?_⟩
    · rw [hposted', hdis', hrel', hposted, show w'.total (Pc.isParting .disconnecting) =
        w.total (Pc.isParting .disconnecting) by omega, hrep _ (by omega)]
    · rw [hdis', hresets', hdis, show w'.total (Pc.isParting .resetting) =
        w.total (Pc.isParting .resetting) by omega, hrep _ (by omega)]
    · rw [hresets', hpushed', hresets, show w'.total (Pc.isParting .returning) =
        w.total (Pc.isParting .returning) by omega, hrep _ (by omega)]
  | post howed hold hnew hposted' hrel' hdis' hresets' hpushed' =>
    have hsame := hid.resolve_right fun ⟨_, _, hz, _⟩ => by omega
    rw [hof hold, hof' hnew] at hd hs hg
    simp only [reduceCtorEq, if_false] at hd hs hg
    refine ⟨?_, ?_, ?_⟩ <;> rw [hsame]
    · exact follows hposted 1 0 hposted' (hdis'.trans (List.append_nil _).symm) (by omega)
    · exact follows_same hdis hdis' hresets' (by omega)
    · exact follows_same hresets hresets' hpushed' (by omega)
  | take hold hnew hposted' hrel' hdis' hresets' hpushed' =>
    have hsame := hid.resolve_right fun ⟨hz, _⟩ => by omega
    rw [hof hold, hof' hnew] at hd hs hg
    simp only [reduceCtorEq, if_false, if_true] at hd hs hg
    refine ⟨?_, ?_, ?_⟩ <;> rw [hsame]
    · exact follows_same hposted hposted' hdis' (by omega)
    · exact follows_same hdis hdis' hresets' (by omega)
    · exact follows_same hresets hresets' hpushed' (by omega)
  | call hold hnew hposted' hrel' hdis' hresets' hpushed' =>
    have hsame := hid.resolve_right fun ⟨_, _, _, hoff⟩ => by rw [hold] at hoff; cases hoff
    rw [hof hold, hof' hnew] at hd hs hg
    simp only [reduceCtorEq, if_false, if_true] at hd hs hg
    refine ⟨?_, ?_, ?_⟩ <;> rw [hsame]
    · exact follows hposted 0 1 (hposted'.trans (List.append_nil _).symm) hdis' (by omega)
    · exact follows hdis 1 0 hdis' (hresets'.trans (List.append_nil _).symm) (by omega)
    · exact follows_same hresets hresets' hpushed' (by omega)
  | reset hold hnew hposted' hrel' hdis' hresets' hpushed' =>
    have hsame := hid.resolve_right fun ⟨_, _, _, hoff⟩ => by rw [hold] at hoff; cases hoff
    rw [hof hold, hof' hnew] at hd hs hg
    simp only [reduceCtorEq, if_false, if_true] at hd hs hg
    refine ⟨?_, ?_, ?_⟩ <;> rw [hsame]
    · exact follows_same hposted hposted' hdis' (by omega)
    · exact follows hdis 0 1 (hdis'.trans (List.append_nil _).symm) hresets' (by omega)
    · exact follows hresets 1 0 hresets' (hpushed'.trans (List.append_nil _).symm) (by omega)
  | giveBack hold hnew hposted' hrel' hdis' hresets' hpushed' =>
    have hsame := hid.resolve_right fun ⟨_, _, _, hoff⟩ => by rw [hold] at hoff; cases hoff
    rw [hof hold, hof' hnew] at hd hs hg
    simp only [reduceCtorEq, if_false, if_true] at hd hs hg
    refine ⟨?_, ?_, ?_⟩ <;> rw [hsame]
    · exact follows_same hposted hposted' hdis' (by omega)
    · exact follows_same hdis hdis' hresets' (by omega)
    · exact follows hresets 0 1 (hresets'.trans (List.append_nil _).symm) hpushed' (by omega)

/-! ## Exactly once -/

/-- A session's end: each history is as far as the one before it, or short of
the session in the slot. -/
structure ReleasedOnce (s : Grouped Buf) : Prop where
  accepted : s.slot.accepted.Nodup
  posted : s.slot.accepted = s.slot.posted ∨ s.slot.accepted = s.slot.posted ++ [s.slot.sessionId]
  disconnected : s.slot.posted = s.slot.disconnected ∨
    s.slot.posted = s.slot.disconnected ++ [s.slot.sessionId]
  resets : s.slot.disconnected = s.resets ∨ s.slot.disconnected = s.resets ++ [s.slot.sessionId]
  pushed : s.resets = s.pushed ∨ s.resets = s.pushed ++ [s.slot.sessionId]
  free : s.slot.free ≤ 1
  /-- What is in `_freeIndex` is the index of no live session. -/
  live : 0 < s.slot.free → RELEASE_FLAG ≤ s.slot.refCount ∧ s.slot.accepted = s.pushed

/-- No operation is in flight, no job is queued, no `PostRelease` is under
way, and no thread is at anything. -/
structure Quiet (w : World Buf) : Prop where
  io : w.shared.slot.io = 0
  jobs : w.shared.jobs = []
  releasePosted : w.shared.slot.releasePosted = 0
  threads : ∀ q ∈ w.threads, q = .slot none .idle

theorem follows_cases {a b : List SessionID} {m : ℕ} {x : SessionID}
    (h : a = b ++ List.replicate m x) (hm : m ≤ 1) : a = b ∨ a = b ++ [x] := by
  rcases Nat.le_one_iff_eq_zero_or_eq_one.1 hm with rfl | rfl
  · exact .inl (h.trans (List.append_nil b))
  · exact .inr h

/-- The threads that close the slot, counted above. -/
theorem closed_le (h : Slot.Sound index w.onSlot) : (Slot.life w.onSlot).owed +
    w.shared.slot.releasePosted + w.shared.slot.free + w.total Pc.returns ≤ 1 := by
  have hone := h.counted.one
  have htotal := total_onSlot (w := w) Slot.Pc.closed
  have hle : w.total Pc.returns ≤ w.total fun pc => pc.onSlot.closed :=
    List.sum_le_sum fun pc _ => returns_le pc
  change (Slot.life w.onSlot).owed + (w.shared.slot.releasePosted + w.shared.slot.free +
    w.onSlot.total Slot.Pc.closed) ≤ 1 at hone
  omega

/-- With nobody between two of them, the histories agree. -/
theorem Trail.pushed_eq (h : Trail w) (hz : w.shared.slot.releasePosted + w.total Pc.returns = 0) :
    w.shared.slot.posted = w.shared.pushed := by
  have hsum := total_returns (w := w)
  rw [h.posted, h.disconnected, h.resets, show w.shared.slot.releasePosted +
      w.total (Pc.isParting .disconnecting) = 0 by omega,
    show w.total (Pc.isParting .resetting) = 0 by omega,
    show w.total (Pc.isParting .returning) = 0 by omega]
  simp only [List.replicate_zero, List.append_nil]

theorem Trail.releasedOnce (h : Trail w) (hs : Slot.Sound index w.onSlot) :
    ReleasedOnce w.shared := by
  have hle := closed_le hs
  have hsum := total_returns (w := w)
  obtain ⟨hnodup, hposted⟩ := hs.posted_once
  refine ⟨hnodup, hposted, follows_cases h.posted (by omega), follows_cases h.disconnected
    (by omega), follows_cases h.resets (by omega), by omega, fun hfree => ?_⟩
  have hlife : 0 < (Slot.life w.onSlot).closed := by
    change 0 < w.shared.slot.releasePosted + w.shared.slot.free + w.onSlot.total Slot.Pc.closed
    omega
  have hlog := hs.logged
  rw [Lifecycle.Logged, if_neg (by omega)] at hlog
  refine ⟨not_lt.1 fun hopen => ?_, ?_⟩
  · have := hs.open_iff.1 hopen
    omega
  · exact hlog.trans (h.pushed_eq (by omega))

/-- **Every session is released once**, in every run in which a session comes
to its release with its earlier moves settled; and once all is quiet, every
session accepted has been pushed back and the slot's index is free. -/
theorem released_once [Inhabited Buf] {n : ℕ}
    (h : Runs (Grouped.step index) Settled (World.initial n : World Buf) w) :
    ReleasedOnce w.shared ∧
      (Quiet w → w.shared.slot.accepted = w.shared.pushed ∧ w.shared.slot.free = 1) := by
  obtain ⟨hr, htrail⟩ : Releasing index w ∧ Trail w :=
    h.invariant (I := fun w => Releasing index w ∧ Trail w) ⟨.initial n, .initial n⟩
      fun ⟨hr, htrail⟩ hst hset => by
        obtain ⟨pc, pc', hpc, hnext, ht⟩ := Pool.step_eq_some hst
        exact ⟨hr.step hst hset, htrail.step hr hpc (next_action hnext) ht⟩
  refine ⟨htrail.releasedOnce hr.sound, fun hquiet => ?_⟩
  have hidle : ∀ q ∈ w.onSlot.threads, q = .idle := by
    intro q hq
    rcases List.mem_append.1 hq with hq | hq
    · obtain ⟨p, hp, rfl⟩ := List.mem_map.1 hq
      rw [hquiet.threads p hp]
      rfl
    · rw [hquiet.jobs] at hq
      cases hq
  have hzero (f : Slot.Pc Buf → ℕ) (hf : f .idle = 0) : w.onSlot.total f = 0 :=
    Pool.total_of_forall_eq hidle hf
  have hret : w.total Pc.returns = 0 := Pool.total_of_forall_eq hquiet.threads rfl
  have hcl := hr.sound.counted.closed_of_unused
    (by simp only [Slot.life]; rw [hzero _ rfl]; exact congrArg (· + 0) hquiet.io)
    (hzero _ rfl) (hzero _ rfl)
  have hrel := hquiet.releasePosted
  refine ⟨(hr.sound.posted_all hquiet.io hidle).trans (htrail.pushed_eq (by omega)), ?_⟩
  have hthreads := hzero Slot.Pc.closed rfl
  change w.shared.slot.releasePosted + w.shared.slot.free + w.onSlot.total Slot.Pc.closed = 1 at hcl
  omega

/-- Thread `t` takes `n` steps. -/
def going (t n : ℕ) : List (ℕ × Event ℕ) := List.replicate n (t, .slot .go)

/-- `AcceptThread` accepts a session and posts its first receive. -/
def accepting : List (ℕ × Event ℕ) :=
  (0, .slot (.accept 0)) :: going 0 11 ++ [(0, .slot (.result .pending))] ++ going 0 1

/-- Thread 1 moves the session to `dst`, in `n` steps after `FindSession`. -/
def moving (dst : GroupID) (n : ℕ) : List (ℕ × Event ℕ) :=
  (1, .slot (.hold ⟨1, 7⟩)) :: going 1 2 ++ [(1, .moveSession dst)] ++ going 1 n

/-- A worker runs `ReleaseExecutable`. -/
def releasing : List (ℕ × Event ℕ) := (1, .slot .releaseExecutable) :: going 1 7

/-- A session moves to group 1, which enters it, and ends there. -/
def oneMove : List (ℕ × Event ℕ) :=
  accepting ++ moving 1 4 ++ [(2, .update 1)] ++ going 2 3 ++ [(0, .slot .recvFailed)] ++
    going 0 5 ++ going 2 10 ++ releasing

theorem released_once_oneMove : ∃ w : World ℕ,
    exec (Grouped.step 7) (World.initial 3) oneMove = some w ∧ ReleasedOnce w.shared ∧
      w.shared.slot.accepted = [⟨1, 7⟩] ∧ w.shared.slot.accepted = w.shared.pushed ∧
      w.shared.slot.free = 1 := by
  obtain ⟨w, hw, heq⟩ := Option.map_eq_some_iff.1 (show
    (exec (Grouped.step 7) (World.initial 3) oneMove).map (fun w => (w.shared.slot.accepted,
      w.shared.slot.io, w.shared.jobs, w.shared.slot.releasePosted, w.threads)) =
    some ([⟨1, 7⟩], 0, [], 0, List.replicate 3 (.slot none .idle)) by rfl)
  obtain ⟨hacc, hio, hjobs, hrel, hthreads⟩ : _ ∧ _ ∧ _ ∧ _ ∧ _ := by simpa using heq
  have hrun : Runs (Grouped.step 7) Settled (World.initial 3) w :=
    runs_of_exec hw (by decide +kernel)
  obtain ⟨honce, hquiet⟩ := released_once hrun
  obtain ⟨hpushed, hfree⟩ := hquiet ⟨hio, hjobs, hrel, fun q hq => by
    rw [hthreads] at hq
    simpa using hq⟩
  exact ⟨w, hw, honce, hacc, hpushed, hfree⟩

/-- A session moves to group 1, which enters it, then to group 2 and back,
and is released before group 1 comes to the `Leave` of the move away. -/
def thereAndBack : List (ℕ × Event ℕ) :=
  accepting ++ moving 1 4 ++ [(2, .update 1)] ++ going 2 3 ++ moving 2 5 ++ moving 1 5 ++
    [(0, .slot .recvFailed)] ++ going 0 2 ++ going 2 8 ++ going 0 3 ++ going 2 11

/-- **One session is released twice.** Group 1 takes the `Leave` of the move
away for the last one, and the last one too: `OnDisconnect`, `Reset` and the
push of the index each come twice. -/
theorem thereAndBack_twice : ∃ w : World ℕ,
    exec (Grouped.step 7) (World.initial 3) (thereAndBack ++ releasing ++ releasing) = some w ∧
      w.shared.slot.accepted = [⟨1, 7⟩] ∧ w.shared.slot.posted = [⟨1, 7⟩, ⟨1, 7⟩] ∧
      w.shared.slot.disconnected = [⟨1, 7⟩, ⟨1, 7⟩] ∧ w.shared.resets = [⟨1, 7⟩, ⟨1, 7⟩] ∧
      w.shared.pushed = [⟨1, 7⟩, ⟨1, 7⟩] ∧ w.shared.slot.free = 2 ∧ ¬ReleasedOnce w.shared := by
  obtain ⟨w, hw, heq⟩ := Option.map_eq_some_iff.1 (show
    (exec (Grouped.step 7) (World.initial 3) (thereAndBack ++ releasing ++ releasing)).map
      (fun w => (w.shared.slot.accepted, w.shared.slot.posted, w.shared.slot.disconnected,
        w.shared.resets, w.shared.pushed, w.shared.slot.free)) =
    some ([⟨1, 7⟩], [⟨1, 7⟩, ⟨1, 7⟩], [⟨1, 7⟩, ⟨1, 7⟩], [⟨1, 7⟩, ⟨1, 7⟩],
      [⟨1, 7⟩, ⟨1, 7⟩], 2) by rfl)
  obtain ⟨hacc, hposted, hdis, hresets, hpushed, hfree⟩ : _ ∧ _ ∧ _ ∧ _ ∧ _ ∧ _ := by
    simpa using heq
  refine ⟨w, hw, hacc, hposted, hdis, hresets, hpushed, hfree, fun honce => ?_⟩
  have := honce.free
  omega

end Grouped

end NetLib
