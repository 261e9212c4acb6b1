import NetLib.Recv.Hands
/-!
# One consumer of the receive ring

A handler looks at the group of the session at the head of its loop only.
Once past that test it goes on with the packet, whatever `MoveSession` does;
the group the session moves to is kept off the ring only if it has nothing
to start a handler with.
-/

namespace NetLib

namespace Recv

variable {s s' : Recv} {w w' : World} {pc pc' : Pc} {g : GroupID}

/-- The group a handler past its test of the group runs for. -/
def Pc.checked : Pc → Option GroupID
  | .size g | .peek g | .packet g _ | .callback g _ _ => some g
  | _ => none

/-- Is a handler between its `Peek` and the end of the packet callback? -/
def Pc.consumes : Pc → Bool
  | .packet _ _ | .callback _ _ _ => true
  | _ => false

/-- The group a handler runs for, or is about to. -/
def Pc.handles : Pc → Option GroupID
  | .loop g | .size g | .peek g | .packet g _ | .callback g _ _ | .disconnect g
  | .findSession g | .clearHandled g => some g
  | _ => none

/-- The group has no Recv job of the session, queued or in hand. -/
def Vacant (w : World) (g : GroupID) : Prop :=
  w.shared.jobs g = 0 ∧ ∀ pc ∈ w.threads, pc.handles ≠ some g

theorem Pc.checked_of_consumes (h : pc.consumes = true) : ∃ g, pc.checked = some g := by
  cases pc with
  | packet g | callback g => exact ⟨g, rfl⟩
  | _ => cases h

theorem Pc.handles_of_checked (h : pc.checked = some g) : pc.handles = some g := by
  cases pc with
  | size | peek | packet | callback => exact h
  | _ => cases h

/-- The handler of the base group has the receive in hand. -/
theorem Pc.works_of_checked (h : pc.checked = some g) :
    pc.works = if g = BaseGroupID then 1 else 0 := by
  cases pc with
  | size | peek | packet | callback =>
    obtain rfl := Option.some.inj h
    rfl
  | _ => cases h

/-- A handler gets past the test in the session's own group only. -/
theorem Action.checked {e : Event} (h : Action s pc e s' pc') (hg : pc'.checked = some g) :
    pc.checked = some g ∨ pc = .loop g ∧ s.groupId = g := by
  have hafter (g' : GroupID) : (after g').checked ≠ some g := by
    unfold after
    split <;> exact nofun
  cases h
  case ownGroup hgroup =>
    obtain rfl := Option.some.inj hg
    exact .inr ⟨rfl, hgroup⟩
  case hasHeader | peek | deliver | read => exact .inl hg
  case otherGroup | noHeader | refused | short | invalid => exact absurd hg (hafter _)
  all_goals cases hg

/-- **A group gets a handler from a worker only**, or from a job it has. -/
theorem Action.vacant {e : Event} (h : Action s pc e s' pc') (hjobs : s.jobs g = 0)
    (hpc : pc.handles ≠ some g) (hwork : pc.works = 0 ∨ pc.handles.isSome) :
    s'.jobs g = 0 ∧ pc'.handles ≠ some g := by
  have hafter (g' : GroupID) : (after g').handles ≠ some g := by
    unfold after
    split <;> exact nofun
  cases h
  case job g' hjob =>
    refine ⟨?_, fun heq => ?_⟩
    · change Function.update _ _ _ g = 0
      by_cases hg : g = g'
      · subst hg
        simp [hjobs]
      · rw [Function.update_of_ne hg, hjobs]
    · obtain rfl := Option.some.inj heq
      omega
  case otherGroup | noHeader | refused | short | invalid => exact ⟨hjobs, hafter _⟩
  case inBase | handled | enqueue => simp [Pc.works, Pc.handles] at hwork
  case gone => exact ⟨hjobs, nofun⟩
  all_goals exact ⟨hjobs, hpc⟩

/-! ## Runs -/

/-- A session is moved while a handler is past its test of the group only to
the group of that handler, or to one that has no Recv job of it; and if the
handler is not the worker's own, no receive is left to make one. -/
def Yields (w : World) (e : ℕ × Event) : Prop :=
  ∀ dst, w.threads[e.1]? = some .idle → e.2 = .move dst →
    ∀ pc ∈ w.threads, ∀ g, pc.checked = some g →
      g = dst ∨ Vacant w dst ∧ (g = BaseGroupID ∨ w.total Pc.works + w.shared.inFlight = 0)

/-- One handler is past its test of the group, and no other can get there. -/
structure Single (w : World) : Prop where
  hands : Hands w
  within : ∀ pc ∈ w.threads, ∀ g, pc.checked = some g →
    g = w.shared.groupId ∨ Vacant w w.shared.groupId ∧
      (g = BaseGroupID ∨ w.total Pc.works + w.shared.inFlight = 0)
  alone : ∀ (i j : ℕ) (p q : Pc), i ≠ j → w.threads[i]? = some p → w.threads[j]? = some q →
    p.checked = none ∨ q.checked = none

/-- A group is run by one thread, and so is the base group. -/
theorem Hands.unique (h : Hands w) {i j : ℕ} {p q : Pc} (hij : i ≠ j)
    (hp : w.threads[i]? = some p) (hq : w.threads[j]? = some q) (hpg : p.group = some g) :
    q.group ≠ some g := by
  intro hqg
  by_cases hbase : g = BaseGroupID
  · subst hbase
    have hworks {pc : Pc} (hpc : pc.group = some BaseGroupID) : pc.works = 1 := by
      cases pc with
      | idle => cases hpc
      | loop | size | peek | packet | callback | disconnect | handleJob | findSession
      | clearHandled => exact if_pos (Option.some.inj hpc)
      | _ => rfl
    have hle := h.receive
    have hadd := Pool.add_le_sum_map Pc.works hij hp hq
    rw [hworks hpg, hworks hqg, ← Pool.total] at hadd
    omega
  · have hle := h.update g hbase
    have hadd := Pool.add_le_sum_map (Pc.runs g) hij hp hq
    rw [Pc.runs, if_pos hpg, Pc.runs, if_pos hqg, ← Pool.total] at hadd
    split at hle <;> omega

theorem Pc.group_of_handles (h : pc.handles = some g) : pc.group = some g := by
  cases pc with
  | loop | size | peek | packet | callback | disconnect | findSession | clearHandled => exact h
  | _ => cases h

theorem Vacant.step {e : ℕ × Event} (h : Vacant w g) (hpc : w.threads[e.1]? = some pc)
    (ha : Action w.shared pc e.2 w'.shared pc') (ht : w'.threads = w.threads.set e.1 pc')
    (hwork : pc.works = 0 ∨ pc.handles.isSome) : Vacant w' g := by
  obtain ⟨hjobs, hpc'⟩ := ha.vacant h.1 (h.2 pc (List.mem_of_getElem? hpc)) hwork
  exact ⟨hjobs, Pool.forall_threads ht h.2 hpc'⟩

/-- A handler keeps its right to the ring over the step of any thread. -/
theorem Single.within_step {e : ℕ × Event} (h : Single w) (hst : Recv.step w e = some w')
    (hyields : Yields w e) {j : ℕ} {q : Pc} (hq : w.threads[j]? = some q)
    (hqg : q.checked = some g) :
    g = w'.shared.groupId ∨ Vacant w' w'.shared.groupId ∧
      (g = BaseGroupID ∨ w'.total Pc.works + w'.shared.inFlight = 0) := by
  obtain ⟨pc, pc', hpc, hnext, ht⟩ := Pool.step_eq_some hst
  have ha := next_action hnext
  have hmem := List.mem_of_getElem? hq
  have hworks := ha.works
  have htotal := Pool.total_step Pc.works hpc ht
  have hleft (hz : w.total Pc.works + w.shared.inFlight = 0) :
      w'.total Pc.works + w'.shared.inFlight = 0 := by omega
  rcases ha.groupId with hsame | ⟨rfl, hmove⟩
  · rcases h.within q hmem g hqg with hg | ⟨hvacant, hhand⟩
    · exact .inl (hg.trans hsame.symm)
    · refine .inr ⟨hsame ▸ hvacant.step hpc ha ht ?_, hhand.imp_right hleft⟩
      by_cases hij : e.1 = j
      · subst hij
        obtain rfl := Option.some.inj (hpc.symm.trans hq)
        rw [Pc.handles_of_checked hqg]
        exact .inr rfl
      · -- the receive is in the hand of `q`, or in no hand at all
        rcases hhand with rfl | hz
        · have hle := h.hands.receive
          have hadd := Pool.add_le_sum_map Pc.works hij hpc hq
          rw [Pc.works_of_checked hqg, if_pos rfl, ← Pool.total] at hadd
          exact .inl (by omega)
        · have := Pool.le_total Pc.works (List.mem_of_getElem? hpc)
          exact .inl (by omega)
  · rcases hyields _ hpc hmove q hmem g hqg with hg | ⟨hvacant, hhand⟩
    · exact .inl hg
    · exact .inr ⟨hvacant.step hpc ha ht (.inl rfl), hhand.imp_right hleft⟩

/-- Nobody gets past the test while another is. -/
theorem Single.alone_step {i j : ℕ} {q : Pc} {e : Event} (h : Single w)
    (hpc : w.threads[i]? = some pc) (ha : Action w.shared pc e s' pc') (hij : i ≠ j)
    (hq : w.threads[j]? = some q) : pc'.checked = none ∨ q.checked = none := by
  rcases hpc' : pc'.checked with _ | g
  · exact .inl rfl
  rcases ha.checked hpc' with hold | ⟨rfl, hgroup⟩
  · have := h.alone i j pc q hij hpc hq
    rw [hold] at this
    exact .inr (this.resolve_left nofun)
  refine .inr (Option.eq_none_iff_forall_ne_some.2 fun g' hqg => ?_)
  rcases h.within q (List.mem_of_getElem? hq) g' hqg with rfl | ⟨hvacant, -⟩
  · -- two threads would run for the session's group
    subst hgroup
    exact h.hands.unique hij hpc hq rfl (Pc.group_of_handles (Pc.handles_of_checked hqg))
  · exact hvacant.2 _ (List.mem_of_getElem? hpc) (congrArg some hgroup.symm)

theorem Single.step {e : ℕ × Event} (h : Single w) (hst : Recv.step w e = some w')
    (hyields : Yields w e) : Single w' := by
  obtain ⟨pc, pc', hpc, hnext, ht⟩ := Pool.step_eq_some hst
  have ha := next_action hnext
  refine ⟨h.hands.step hst, ?_, ?_⟩
  · refine Pool.forall_threads_of_others ht
      (fun j q _ hq g hqg => h.within_step hst hyields hq hqg) fun g hg => ?_
    rcases ha.checked hg with hold | ⟨rfl, hgroup⟩
    · exact h.within_step hst hyields hpc hold
    · rcases ha.groupId with hsame | ⟨hidle, -⟩
      · exact .inl (hgroup.symm.trans hsame.symm)
      · cases hidle
  · have hlt := (List.getElem?_eq_some_iff.1 hpc).1
    intro i j p q hij hp hq
    rw [ht] at hp hq
    by_cases hi : e.1 = i
    · subst hi
      rw [List.getElem?_set_self hlt] at hp
      rw [List.getElem?_set_ne hij] at hq
      exact Option.some.inj hp ▸ h.alone_step hpc ha hij hq
    · rw [List.getElem?_set_ne hi] at hp
      by_cases hj : e.1 = j
      · subst hj
        rw [List.getElem?_set_self hlt] at hq
        exact (Option.some.inj hq ▸ h.alone_step hpc ha hi hp).symm
      · rw [List.getElem?_set_ne hj] at hq
        exact h.alone i j p q hij hp hq

theorem Single.initial (staticKey : Byte) (maxPacketLen : ℕ) (isHandled : Bool) (n : ℕ) :
    Single (World.initial staticKey maxPacketLen isHandled n) := by
  have hnone : ∀ pc ∈ (World.initial staticKey maxPacketLen isHandled n).threads,
      pc.checked = none := by
    intro pc hpc
    rcases List.mem_cons.1 hpc with rfl | hpc
    · rfl
    · rw [List.eq_of_mem_replicate hpc]
      rfl
  refine ⟨.initial _ _ _ _, fun pc hpc g hg => ?_, fun i j p q _ hp _ =>
    .inl (hnone p (List.mem_of_getElem? hp))⟩
  rw [hnone pc hpc] at hg
  cases hg

/-- **One consumer**: as long as a session is moved past a handler only to a
group that has nothing to start another one with, at most one thread is
between the `Peek` of a handler and the end of the packet callback. -/
theorem single_consumer {staticKey : Byte} {maxPacketLen : ℕ} {isHandled : Bool} {n : ℕ}
    (h : Runs Recv.step (fun w e _ => Yields w e)
      (World.initial staticKey maxPacketLen isHandled n) w)
    {i j : ℕ} {p q : Pc} (hi : w.threads[i]? = some p) (hj : w.threads[j]? = some q)
    (hp : p.consumes = true) (hq : q.consumes = true) : i = j := by
  have hsingle := h.invariant (Single.initial staticKey maxPacketLen isHandled n)
    fun h hst hyields => h.step hst hyields
  by_contra hij
  obtain ⟨g, hpg⟩ := Pc.checked_of_consumes hp
  obtain ⟨g', hqg⟩ := Pc.checked_of_consumes hq
  rcases hsingle.alone i j p q hij hi hj with hnone | hnone
  · rw [hnone] at hpg
    cases hpg
  · rw [hnone] at hqg
    cases hqg

/-- Is the session moved? -/
def Event.moves : Event → Bool
  | .move _ => true
  | _ => false

theorem Yields.of_moves {e : ℕ × Event} (h : e.2.moves = false) : Yields w e := by
  intro dst _ hmove
  rw [hmove] at h
  cases h

/-- The packet callback of a worker moves the session to group 1, and goes
on with its packet. -/
theorem single_consumer_move : ∃ w,
    exec Recv.step (World.initial 0 2048 false 1) (receive [1, 0, 0x55] ++
        [(1, .callback (.read 1 fun _ => .done))] ++ [(0, .move 1)]) = some w ∧
      w.shared.groupId = 1 ∧ w.threads[1]?.any Pc.consumes ∧
      ∀ (i : ℕ) (p : Pc), w.threads[i]? = some p → p.consumes = true → i = 1 := by
  have hcallback : (exec Recv.step (World.initial 0 2048 false 1) (receive [1, 0, 0x55] ++
      [(1, .callback (.read 1 fun _ => .done))])).map (fun w => (w.shared.jobs 1, w.threads)) =
      some (0, [.idle, .callback 0 (.read 1 fun _ => .done) 1]) := by rfl
  obtain ⟨v, hv, heq⟩ := Option.map_eq_some_iff.1 hcallback
  obtain ⟨hjobs, hthreads⟩ := Prod.mk.inj heq
  have hquiet : Runs Recv.step (fun _ e _ => e.2.moves = false) (World.initial 0 2048 false 1) v :=
    runs_of_exec hv (by rfl)
  let w : World := ⟨{ v.shared with groupId := 1 }, v.threads.set 0 .idle⟩
  have hmove : Recv.step v (0, .move 1) = some w := by
    simp only [Recv.step, Pool.step, hthreads, List.getElem?_cons_zero, next, start, w]
    rfl
  have hyields : Yields v (0, .move 1) := by
    intro dst _ hdst pc hpc g hg
    cases hdst
    rw [hthreads] at hpc
    refine .inr ⟨⟨hjobs, fun q hq => ?_⟩, .inl ?_⟩
    · rw [hthreads] at hq
      rcases List.mem_cons.1 hq with rfl | hq
      · simp [Pc.handles]
      · rw [List.mem_singleton.1 hq]
        simp [Pc.handles]
    · rcases List.mem_cons.1 hpc with rfl | hpc
      · cases hg
      · rw [List.mem_singleton.1 hpc] at hg
        exact (Option.some.inj hg).symm
  have hw : w.threads = [.idle, .callback 0 (.read 1 fun _ => .done) 1] := by
    change v.threads.set 0 .idle = _
    rw [hthreads]
    rfl
  refine ⟨w, exec_append hv (exec_cons_iff.2 ⟨w, hmove, rfl⟩), rfl, by rw [hw]; rfl,
    fun i p hp hc => ?_⟩
  exact single_consumer (.tail (hquiet.mono fun h => .of_moves h) hmove hyields) hp
    (show w.threads[1]? = _ by rw [hw]; rfl) hc rfl

/-- A session in group 1: its first receive completes with a packet of two
bytes, group 1 calls the packet callback, the session is moved to the base
group, and the next receive completes. -/
def moveInCallback : List (ℕ × Event) :=
  List.replicate 4 (0, .go) ++ [(0, .move 1), (1, .complete [2, 0, 1, 0])] ++
    List.replicate 10 (1, .go) ++ (2, .update 1) :: List.replicate 6 (2, .go) ++
    [(2, .callback (.read 2 fun _ => .done)), (0, .move 0), (1, .complete [0x66])] ++
    List.replicate 5 (1, .go) ++ [(1, .callback (.read 1 fun _ => .done))]

/-- **Two consumers.** The packet callback of a group moves the session to
the base group, a receive completes, and the worker's handler takes what the
callback has not read yet for its next packet. -/
theorem two_consumers : ∃ w,
    exec Recv.step (World.initial 0 2048 false 2) moveInCallback = some w ∧
      w.threads[1]?.any Pc.consumes ∧ w.threads[2]?.any Pc.consumes := by
  have hrun : (exec Recv.step (World.initial 0 2048 false 2) moveInCallback).map
      (fun w => w.threads) = some [.idle, .callback 0 (.read 1 fun _ => .done) 1,
        .callback 1 (.read 2 fun _ => .done) 2] := by
    rfl
  obtain ⟨w, hw, hthreads⟩ := Option.map_eq_some_iff.1 hrun
  exact ⟨w, hw, by rw [hthreads]; rfl, by rw [hthreads]; rfl⟩

end Recv

end NetLib
