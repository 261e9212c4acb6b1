import NetLib.Server.Shutdown
/-!
# The end of the server

The empty completion of `Stop` goes from worker to worker and is never lost,
so every worker gets it. `OnEnd` is called, and `Wait` returns, when every
thread of the server but the one that called `Stop` has ended. `Stop` may
wait for ever: for a thread that has not left `WaitStart`, or for one that is
itself in `Stop` or in `Wait`.
-/

namespace NetLib

namespace Shutdown

variable {s s' : Service} {w w' : World} {me : ℕ} {pc pc' : Pc} {t u : Thread}

/-! ## What a step can do -/

/-- Every action of the thread `me`, with what it saw. -/
inductive Action (s : Service) (me : ℕ) : Pc → Event → Service → Pc → Prop
  | resume {c : Caller} {pc : Pc} (hc : c.resume = some pc) : Action s me (.app c) .done s pc
  | start (c : Caller) : Action s me (.app c) .start { s with isRunning := true } (.startWake c)
  | stop (c : Caller) : Action s me (.app c) .stop { s with isRunning := false } (.stopClose c)
  | wait (c : Caller) : Action s me (.app c) .wait s (.waitRead c)
  | post (c : Caller) (o : Origin) :
    Action s me (.app c) (.post o) { s with iocp := s.iocp ++ [o.completion] } (.app c)
  | startWake (c : Caller) : Action s me (.startWake c) .go { s with startWaiters := [] } (.app c)
  | stopClose (c : Caller) :
    Action s me (.stopClose c) .go { s with listening := false } (.stopPost c)
  | stopPost (c : Caller) : Action s me (.stopPost c) .go
      { s with iocp := s.iocp ++ [.stop], stops := s.stops + 1, stoppers := s.stoppers ++ [me] }
      (.stopJoin c s.threadArray)
  | joinNull (c : Caller) (rest : List (Option ℕ)) :
    Action s me (.stopJoin c (none :: rest)) .go s (.stopJoin c rest)
  | joined (c : Caller) (rest : List (Option ℕ)) {other : ℕ} (h : other = me ∨ other ∈ s.ended) :
    Action s me (.stopJoin c (some other :: rest)) .go s (.stopJoin c rest)
  | joinedAll (c : Caller) :
    Action s me (.stopJoin c []) .go { s with gracefulEnd := true } (.stopOnEnd c)
  | onEnd (c : Caller) : Action s me (.stopOnEnd c) .go { s with ends := s.ends + 1 } (.stopWake c)
  | wakeNone (c : Caller) (h : s.endWaiters = []) : Action s me (.stopWake c) .go s (.app c)
  | wakeOne (c : Caller) {other : ℕ} (h : other ∈ s.endWaiters) :
    Action s me (.stopWake c) (.wake other)
      { s with endWaiters := s.endWaiters.erase other } (.app c)
  | waited (c : Caller) (h : s.gracefulEnd = true) :
    Action s me (.waitRead c) .go { s with waited := s.waited + 1 } (.app c)
  | waits (c : Caller) (h : s.gracefulEnd = false) :
    Action s me (.waitRead c) .go s (.waitOnAddress c)
  | waitBack (c : Caller) (h : s.gracefulEnd = true) :
    Action s me (.waitOnAddress c) .go s (.waitRead c)
  | waitSleep (c : Caller) (h : s.gracefulEnd = false) : Action s me (.waitOnAddress c) .go
      { s with endWaiters := me :: s.endWaiters } (.waitAsleep c)
  | waitWoken (c : Caller) (h : me ∉ s.endWaiters) : Action s me (.waitAsleep c) .go s (.waitRead c)
  | waitSpurious (c : Caller) : Action s me (.waitAsleep c) .spurious
      { s with endWaiters := s.endWaiters.filter (· ≠ me) } (.waitRead c)
  | started (r : Loop) (h : s.isRunning = true) : Action s me (.startRead r) .go s (.test r)
  | unstarted (r : Loop) (h : s.isRunning = false) :
    Action s me (.startRead r) .go s (.startOnAddress r)
  | startBack (r : Loop) (h : s.isRunning = true) :
    Action s me (.startOnAddress r) .go s (.startRead r)
  | startSleep (r : Loop) (h : s.isRunning = false) : Action s me (.startOnAddress r) .go
      { s with startWaiters := me :: s.startWaiters } (.startAsleep r)
  | startWoken (r : Loop) (h : me ∉ s.startWaiters) :
    Action s me (.startAsleep r) .go s (.startRead r)
  | startSpurious (r : Loop) : Action s me (.startAsleep r) .spurious
      { s with startWaiters := s.startWaiters.filter (· ≠ me) } (.startRead r)
  | goesAccept (h : s.isRunning = true) : Action s me (.test .accept) .go s .acceptCall
  | goesOn {r : Loop} (hr : r ≠ .accept) (h : s.isRunning = true) :
    Action s me (.test r) .go s (.app (.loop r))
  | stopped (r : Loop) (h : s.isRunning = false) : Action s me (.test r) .go s .leave
  | accepts (h : s.listening = true) : Action s me .acceptCall .go s .accepting
  | broken (h : s.listening = false) : Action s me .acceptCall .go s .broken
  | interrupted (h : s.listening = false) : Action s me .accepting .go s .leave
  | connected (h : s.listening = true) :
    Action s me .accepting .connect s (.app (.loop .accept))
  | takesStop {c : Completion} {rest : List Completion} (h : s.iocp = c :: rest)
    (hc : c.turn = .leave) : Action s me .getStatus .go { s with iocp := rest } .postAgain
  | takes {c : Completion} {rest : List Completion} (h : s.iocp = c :: rest)
    (hc : c.turn ≠ .leave) : Action s me .getStatus .go { s with iocp := rest } (.app .worker)
  | postAgain : Action s me .postAgain .go { s with iocp := s.iocp ++ [.stop] } .leave
  | leave : Action s me .leave .go { s with ended := me :: s.ended } .ended

theorem nextApp_action {c : Caller} {e : Event} (h : nextApp s c e = some (s', pc')) :
    Action s me (.app c) e s' pc' := by
  unfold nextApp at h
  split at h
  · obtain ⟨pc, hc, heq⟩ := Option.map_eq_some_iff.1 h
    obtain ⟨rfl, rfl⟩ := Prod.mk.inj heq
    exact .resume hc
  · obtain ⟨rfl, rfl⟩ := Prod.mk.inj (Option.some.inj h)
    exact .start c
  · obtain ⟨rfl, rfl⟩ := Prod.mk.inj (Option.some.inj h)
    exact .stop c
  · obtain ⟨rfl, rfl⟩ := Prod.mk.inj (Option.some.inj h)
    exact .wait c
  · obtain ⟨rfl, rfl⟩ := Prod.mk.inj (Option.some.inj h)
    exact .post c _
  · cases h

theorem nextCall_action {e : Event} (h : nextCall s me pc e = some (s', pc')) :
    Action s me pc e s' pc' := by
  unfold nextCall at h
  split at h
  · obtain ⟨rfl, rfl⟩ := Prod.mk.inj (Option.some.inj h)
    exact .startWake _
  · obtain ⟨rfl, rfl⟩ := Prod.mk.inj (Option.some.inj h)
    exact .stopClose _
  · obtain ⟨rfl, rfl⟩ := Prod.mk.inj (Option.some.inj h)
    exact .stopPost _
  · obtain ⟨rfl, rfl⟩ := Prod.mk.inj (Option.some.inj h)
    exact .joinNull _ _
  · split at h
    · obtain ⟨rfl, rfl⟩ := Prod.mk.inj (Option.some.inj h)
      exact .joined _ _ ‹_›
    · cases h
  · obtain ⟨rfl, rfl⟩ := Prod.mk.inj (Option.some.inj h)
    exact .joinedAll _
  · obtain ⟨rfl, rfl⟩ := Prod.mk.inj (Option.some.inj h)
    exact .onEnd _
  · split at h
    · obtain ⟨rfl, rfl⟩ := Prod.mk.inj (Option.some.inj h)
      exact .wakeNone _ ‹_›
    · cases h
  · split at h
    · obtain ⟨rfl, rfl⟩ := Prod.mk.inj (Option.some.inj h)
      exact .wakeOne _ ‹_›
    · cases h
  · split at h
    · obtain ⟨rfl, rfl⟩ := Prod.mk.inj (Option.some.inj h)
      exact .waited _ ‹_›
    · obtain ⟨rfl, rfl⟩ := Prod.mk.inj (Option.some.inj h)
      exact .waits _ (Bool.eq_false_of_not_eq_true ‹_›)
  · split at h
    · obtain ⟨rfl, rfl⟩ := Prod.mk.inj (Option.some.inj h)
      exact .waitBack _ ‹_›
    · obtain ⟨rfl, rfl⟩ := Prod.mk.inj (Option.some.inj h)
      exact .waitSleep _ (Bool.eq_false_of_not_eq_true ‹_›)
  · split at h
    · cases h
    · obtain ⟨rfl, rfl⟩ := Prod.mk.inj (Option.some.inj h)
      exact .waitWoken _ ‹_›
  · obtain ⟨rfl, rfl⟩ := Prod.mk.inj (Option.some.inj h)
    exact .waitSpurious _
  · cases h

theorem nextLoop_action {e : Event} (h : nextLoop s me pc e = some (s', pc')) :
    Action s me pc e s' pc' := by
  unfold nextLoop at h
  split at h
  · obtain ⟨rfl, rfl⟩ := Prod.mk.inj (Option.some.inj h)
    split
    · exact .started _ ‹_›
    · exact .unstarted _ (Bool.eq_false_of_not_eq_true ‹_›)
  · split at h
    · obtain ⟨rfl, rfl⟩ := Prod.mk.inj (Option.some.inj h)
      exact .startBack _ ‹_›
    · obtain ⟨rfl, rfl⟩ := Prod.mk.inj (Option.some.inj h)
      exact .startSleep _ (Bool.eq_false_of_not_eq_true ‹_›)
  · split at h
    · cases h
    · obtain ⟨rfl, rfl⟩ := Prod.mk.inj (Option.some.inj h)
      exact .startWoken _ ‹_›
  · obtain ⟨rfl, rfl⟩ := Prod.mk.inj (Option.some.inj h)
    exact .startSpurious _
  · obtain ⟨rfl, rfl⟩ := Prod.mk.inj (Option.some.inj h)
    split
    · split
      · rename_i hr
        subst hr
        exact .goesAccept ‹_›
      · exact .goesOn ‹_› ‹_›
    · exact .stopped _ (Bool.eq_false_of_not_eq_true ‹_›)
  · obtain ⟨rfl, rfl⟩ := Prod.mk.inj (Option.some.inj h)
    split
    · exact .accepts ‹_›
    · exact .broken (Bool.eq_false_of_not_eq_true ‹_›)
  · split at h
    · cases h
    · obtain ⟨rfl, rfl⟩ := Prod.mk.inj (Option.some.inj h)
      exact .interrupted (Bool.eq_false_of_not_eq_true ‹_›)
  · split at h
    · obtain ⟨rfl, rfl⟩ := Prod.mk.inj (Option.some.inj h)
      exact .connected ‹_›
    · cases h
  · split at h
    · cases h
    · obtain ⟨rfl, rfl⟩ := Prod.mk.inj (Option.some.inj h)
      split
      · exact .takesStop ‹_› ‹_›
      · exact .takes ‹_› ‹_›
  · obtain ⟨rfl, rfl⟩ := Prod.mk.inj (Option.some.inj h)
    exact .postAgain
  · obtain ⟨rfl, rfl⟩ := Prod.mk.inj (Option.some.inj h)
    exact .leave
  · cases h

/-- **What a step is.** A thread keeps its id. -/
theorem next_action {e : Event} {t t' : Thread} (h : next s t e = some (s', t')) :
    t'.id = t.id ∧ Action s t.id t.pc e s' t'.pc := by
  obtain ⟨⟨s₁, pc⟩, hnext, heq⟩ := Option.map_eq_some_iff.1 h
  obtain ⟨rfl, rfl⟩ := Prod.mk.inj heq
  refine ⟨rfl, ?_⟩
  unfold nextPc at hnext
  split at hnext
  · rename_i hpc
    rw [hpc]
    exact nextApp_action hnext
  all_goals first | exact nextCall_action hnext | exact nextLoop_action hnext

/-- `step`, with the thread that takes it. -/
theorem step_action {e : ℕ × Event} (h : step w e = some w') :
    ∃ t t', w.threads[e.1]? = some t ∧ w'.threads = w.threads.set e.1 t' ∧ t'.id = t.id ∧
      Action w.shared t.id t.pc e.2 w'.shared t'.pc := by
  obtain ⟨t, t', hpc, hnext, ht⟩ := Pool.step_eq_some h
  obtain ⟨hid, ha⟩ := next_action hnext
  exact ⟨t, t', hpc, ht, hid, ha⟩

/-! ## The empty completion -/

/-- No other completion is taken for the one of `Stop`. -/
theorem turn_completion (o : Origin) : o.completion.turn ≠ .leave := by
  unfold Completion.turn
  cases o with
  | io key transferred ret hkey =>
    rw [if_neg fun h => hkey h.2]
    split
    · exact nofun
    · split <;> exact nofun
  | session key =>
    have hne : BitVec.ofInt 32 (-1) ≠ 0 := by decide
    rw [if_neg fun h => hne h.1]
    split
    · exact nofun
    · split <;> exact nofun
  | executable arg =>
    have hne : (2 : BitVec 32) ≠ 0 := by decide
    rw [if_neg fun h => hne h.1]
    split
    · exact nofun
    · split <;> exact nofun

theorem turn_stop : Completion.stop.turn = .leave := if_pos ⟨rfl, rfl⟩

/-- How many empty completions are at the port. -/
def empties (s : Service) : ℕ := s.iocp.countP fun c => c.turn = .leave

/-- Has the thread an empty completion in hand? -/
def Thread.holds (t : Thread) : ℕ := if t.pc = .postAgain then 1 else 0

theorem holds_of_pc {t : Thread} (h : t.pc ≠ .postAgain) : t.holds = 0 := if_neg h

/-- **An empty completion goes from hand to hand**, and only `Stop` makes new
ones. -/
theorem Action.empty_kept {e : Event} {t t' : Thread} (h : Action s t.id t.pc e s' t'.pc) :
    empties s' + t'.holds + s.stops = empties s + t.holds + s'.stops := by
  unfold Thread.holds empties
  generalize t.id = me at h
  generalize t.pc = pc at h ⊢
  generalize t'.pc = pc' at h ⊢
  cases h
  case resume hc =>
    have hpc : pc' ≠ .postAgain := by
      rintro rfl
      rename_i c
      cases c <;> cases hc
    simp [hpc]
  case post o =>
    have := turn_completion o
    simp [List.countP_append, this]
  case stopPost =>
    simp [List.countP_append, turn_stop]
    omega
  case takesStop hiocp hc => simp [hiocp, hc]
  case takes hiocp hc => simp [hiocp, hc]
  case postAgain => simp [List.countP_append, turn_stop]
  all_goals rfl

/-! ## What the threads know -/

/-- Is the thread before its start? -/
def Pc.unstarted : Pc → Bool
  | .startRead _ | .startOnAddress _ | .startAsleep _ => true
  | _ => false

/-- What the thread `me` knows of the end. -/
def Pc.Knows (s : Service) (me : ℕ) : Pc → Prop
  | .stopPost _ => s.listening = false
  | .stopJoin _ rest => 0 < s.stops ∧ me ∈ s.stoppers ∧ (∀ x ∈ rest, x ∈ s.threadArray) ∧
      ∀ other, some other ∈ s.threadArray → some other ∈ rest ∨ other = me ∨ other ∈ s.ended
  | .stopOnEnd _ => s.gracefulEnd = true
  | .ended => me ∈ s.ended
  | _ => True

/-- Does the thread run the application's code for the server? -/
def Pc.caller : Pc → Option Caller
  | .app c | .startWake c | .stopClose c | .stopPost c | .stopJoin c _ | .stopOnEnd c
  | .stopWake c | .waitRead c | .waitOnAddress c | .waitAsleep c => some c
  | _ => none

/-- What every step keeps. -/
structure Kept (s s' : Service) : Prop where
  threadArray : s'.threadArray = s.threadArray
  ended : ∀ other ∈ s.ended, other ∈ s'.ended
  listening : s.listening = false → s'.listening = false
  stops : s.stops ≤ s'.stops
  stoppers : ∀ m ∈ s.stoppers, m ∈ s'.stoppers
  gracefulEnd : s.gracefulEnd = true → s'.gracefulEnd = true

theorem Action.kept {e : Event} (h : Action s me pc e s' pc') : Kept s s' := by
  cases h
  case stopClose => exact ⟨rfl, fun _ => id, fun _ => rfl, le_rfl, fun _ => id, id⟩
  case stopPost =>
    exact ⟨rfl, fun _ => id, id, Nat.le_succ _, fun _ h => List.mem_append_left _ h, id⟩
  case joinedAll => exact ⟨rfl, fun _ => id, id, le_rfl, fun _ => id, fun _ => rfl⟩
  case leave => exact ⟨rfl, fun _ h => List.mem_cons_of_mem _ h, id, le_rfl, fun _ => id, id⟩
  all_goals exact ⟨rfl, fun _ => id, id, le_rfl, fun _ => id, id⟩

theorem Pc.Knows.mono (h : pc.Knows s me) (hk : Kept s s') : pc.Knows s' me := by
  unfold Pc.Knows at h ⊢
  split
  · exact hk.listening h
  · obtain ⟨hstops, hself, hrest, hall⟩ := h
    rw [hk.threadArray]
    refine ⟨hstops.trans_le hk.stops, hk.stoppers _ hself, hrest, fun other hother => ?_⟩
    rcases hall other hother with hin | hself | hended
    · exact .inl hin
    · exact .inr (.inl hself)
    · exact .inr (.inr (hk.ended other hended))
  · exact hk.gracefulEnd h
  · exact hk.ended _ h
  · trivial

/-- What the thread that steps knows after it. -/
theorem Action.knows {e : Event} (h : Action s me pc e s' pc') (hpc : pc.Knows s me) :
    pc'.Knows s' me := by
  cases h
  case resume hc =>
    rename_i c
    cases c <;> cases hc <;> trivial
  case stopClose => exact rfl
  case stopPost =>
    exact ⟨Nat.succ_pos _, List.mem_append_right _ List.mem_cons_self, fun _ => id, fun _ => .inl⟩
  case joinNull =>
    obtain ⟨hstops, hself, hrest, hall⟩ := hpc
    refine ⟨hstops, hself, fun x hx => hrest x (List.mem_cons_of_mem _ hx), fun other hother => ?_⟩
    rcases hall other hother with hin | hout
    · exact .inl ((List.mem_cons.1 hin).resolve_left nofun)
    · exact .inr hout
  case joined other hdone =>
    obtain ⟨hstops, hself, hrest, hall⟩ := hpc
    refine ⟨hstops, hself, fun x hx => hrest x (List.mem_cons_of_mem _ hx), fun other' hother => ?_⟩
    rcases hall other' hother with hin | hout
    · rcases List.mem_cons.1 hin with heq | hin
      · obtain rfl := Option.some.inj heq
        exact .inr hdone
      · exact .inl hin
    · exact .inr hout
  case joinedAll => exact rfl
  case leave => exact List.mem_cons_self
  all_goals trivial

/-- A thread of the server does not get outside of it. -/
theorem Action.caller {e : Event} (h : Action s me pc e s' pc') (hpc : pc.caller ≠ some .outside) :
    pc'.caller ≠ some .outside := by
  cases h
  case resume hc =>
    rename_i c
    cases c <;> cases hc <;> exact nofun
  case goesOn | connected | takes => exact fun heq => by cases heq
  case started | unstarted | startBack | startSleep | startWoken | startSpurious | goesAccept
      | stopped | accepts | broken | interrupted | takesStop | postAgain | leave => exact nofun
  all_goals exact hpc

/-- Nobody gets back before the start. -/
theorem Action.before_start {e : Event} (h : Action s me pc e s' pc') (hpc' : pc'.unstarted = true) :
    pc.unstarted = true := by
  cases h
  case resume hc =>
    rename_i c
    cases c <;> cases hc <;> cases hpc'
  case unstarted | startBack | startSleep | startWoken | startSpurious => rfl
  all_goals cases hpc'

/-! ## Runs -/

/-- What holds in every run of a server with `workers` workers. -/
structure Orderly (workers : ℕ) (w : World) : Prop where
  ids : ∀ (i : ℕ) (t : Thread), w.threads[i]? = some t → t.id = i
  enough : workers + 4 ≤ w.threads.length
  threadArray : ∀ other, some other ∈ w.shared.threadArray ↔ other < workers + 4
  knows : ∀ t ∈ w.threads, t.pc.Knows w.shared t.id
  ended : ∀ t ∈ w.threads, t.id ∈ w.shared.ended → t.pc = .ended
  callers : ∀ t ∈ w.threads, t.id < workers + 4 → t.pc.caller ≠ some .outside
  closed : 0 < w.shared.stops → w.shared.listening = false
  /-- All threads have ended but one that has called `Stop`. -/
  all : w.shared.gracefulEnd = true → ∃ m ∈ w.shared.stoppers,
    (∀ t ∈ w.threads, t.id = m → t.pc.unstarted = false) ∧
      ∀ other < workers + 4, other = m ∨ other ∈ w.shared.ended
  history : 0 < w.shared.ends ∨ 0 < w.shared.waited → w.shared.gracefulEnd = true

/-- The signaled handles are those of the threads at their end. -/
theorem Action.ended {e : Event} (h : Action s me pc e s' pc') :
    pc ≠ .ended ∧ (s'.ended = s.ended ∨ s'.ended = me :: s.ended ∧ pc' = .ended) := by
  cases h
  case leave => exact ⟨nofun, .inr ⟨rfl, rfl⟩⟩
  all_goals exact ⟨nofun, .inl rfl⟩

/-- `gracefulEnd` is set where the join has come to its end, and the
listening socket is closed before anything is posted. -/
theorem Action.marks {e : Event} (h : Action s me pc e s' pc') :
    (s'.gracefulEnd = s.gracefulEnd ∨ ∃ c, pc = .stopJoin c []) ∧
      (s'.stops = s.stops ∨ ∃ c, pc = .stopPost c) ∧
      ((s'.ends = s.ends ∧ s'.waited = s.waited) ∨ (∃ c, pc = .stopOnEnd c) ∨
        s.gracefulEnd = true) := by
  cases h
  case stopPost c => exact ⟨.inl rfl, .inr ⟨c, rfl⟩, .inl ⟨rfl, rfl⟩⟩
  case joinedAll c => exact ⟨.inr ⟨c, rfl⟩, .inl rfl, .inl ⟨rfl, rfl⟩⟩
  case onEnd c => exact ⟨.inl rfl, .inl rfl, .inr (.inl ⟨c, rfl⟩)⟩
  case waited hgraceful => exact ⟨.inl rfl, .inl rfl, .inr (.inr hgraceful)⟩
  all_goals exact ⟨.inl rfl, .inl rfl, .inl ⟨rfl, rfl⟩⟩

theorem Orderly.step {workers : ℕ} {e : ℕ × Event} (h : Orderly workers w)
    (hst : step w e = some w') : Orderly workers w' := by
  obtain ⟨t, t', hpc, ht, hid, ha⟩ := step_action hst
  have hmem := List.mem_of_getElem? hpc
  have hkept := ha.kept
  obtain ⟨hnot, hended⟩ := ha.ended
  obtain ⟨hgraceful, hstops, hhistory⟩ := ha.marks
  have hme := h.ids _ _ hpc
  obtain ⟨hlt, -⟩ := List.getElem?_eq_some_iff.1 hpc
  refine ⟨fun i q hq => ?_, ?_, ?_, ?_, ?_, ?_, fun hpos => ?_, fun hg => ?_, fun hpos => ?_⟩
  · by_cases heq : e.1 = i
    · subst heq
      rw [ht, List.getElem?_set_self hlt] at hq
      rw [← Option.some.inj hq, hid, hme]
    · rw [ht, List.getElem?_set_ne heq] at hq
      exact h.ids i q hq
  · rw [ht, List.length_set]
    exact h.enough
  · rw [hkept.threadArray]
    exact h.threadArray
  · exact Pool.forall_threads ht (fun q hq => (h.knows q hq).mono hkept)
      (hid ▸ ha.knows (h.knows t hmem))
  · refine Pool.forall_threads_of_others ht (fun j q hj hq hin => ?_) fun hin => ?_
    · refine h.ended q (List.mem_of_getElem? hq) ?_
      rcases hended with heq | ⟨heq, -⟩
      · rwa [heq] at hin
      · rw [heq] at hin
        refine (List.mem_cons.1 hin).resolve_left fun hsame => hj ?_
        rw [← hme, ← hsame, h.ids _ _ hq]
    · rcases hended with heq | ⟨-, heq⟩
      · rw [heq, hid] at hin
        exact absurd (h.ended t hmem hin) hnot
      · exact heq
  · exact Pool.forall_threads ht h.callers fun hi =>
      ha.caller (h.callers t hmem (hid ▸ hi))
  · refine hkept.listening ?_
    rcases hstops with heq | ⟨c, heq⟩
    · exact h.closed (heq ▸ hpos)
    · have := h.knows t hmem
      rw [heq] at this
      exact this
  · rcases hgraceful with heq | ⟨c, heq⟩
    · obtain ⟨m, hstopper, hm, hall⟩ := h.all (heq ▸ hg)
      refine ⟨m, hkept.stoppers m hstopper, Pool.forall_threads ht hm fun hsame => ?_, fun other hother =>
        (hall other hother).imp_right (hkept.ended other)⟩
      rw [← Bool.not_eq_true]
      intro hun
      have := hm t hmem (hid ▸ hsame)
      rw [ha.before_start hun] at this
      cases this
    · obtain ⟨-, hself, -, hall⟩ := heq ▸ h.knows t hmem
      refine ⟨t.id, hkept.stoppers _ hself, Pool.forall_threads_of_others ht (fun j q hj hq hsame => ?_) fun _ => ?_,
        fun other hother => ?_⟩
      · exact absurd (hme.symm.trans (hsame.symm.trans (h.ids _ _ hq))) hj
      · rw [← Bool.not_eq_true]
        intro hun
        have := ha.before_start hun
        rw [heq] at this
        cases this
      · rcases hall other ((h.threadArray other).2 hother) with hin | hout
        · cases hin
        · exact hout.imp_right (hkept.ended other)
  · refine hkept.gracefulEnd ?_
    rcases hhistory with ⟨hends, hwaited⟩ | ⟨c, heq⟩ | hg
    · rw [hends, hwaited] at hpos
      exact h.history hpos
    · have := h.knows t hmem
      rw [heq] at this
      exact this
    · exact hg

section Runs

variable {workers n : ℕ} {ok : World → ℕ × Event → World → Prop}

/-- Where the threads begin. -/
theorem initial_pc (ht : t ∈ (World.initial workers n).threads) :
    (t.pc.unstarted = true ∨ t.pc = .getStatus ∨ t.pc = .app .outside) ∧
      (t.id < workers + 4 → t.pc.unstarted = true ∨ t.pc = .getStatus) := by
  obtain ⟨i, hi, rfl⟩ := List.mem_mapIdx.1 ht
  have hserver : ∀ pc ∈ serverThreads workers, pc.unstarted = true ∨ pc = .getStatus := by
    intro pc hpc
    simp only [serverThreads, List.cons_append, List.mem_cons, List.mem_append,
      List.mem_replicate, List.not_mem_nil, or_false] at hpc
    rcases hpc with rfl | ⟨-, rfl⟩ | rfl | rfl | rfl
    · exact .inl rfl
    · exact .inr rfl
    · exact .inl rfl
    · exact .inl rfl
    · exact .inl rfl
  have hlen : (serverThreads workers).length = workers + 4 := by
    simp [serverThreads]
  refine ⟨?_, fun hlt => ?_⟩
  · rcases List.mem_append.1 (List.getElem_mem hi) with hmem | hmem
    · exact (hserver _ hmem).imp_right .inl
    · exact .inr (.inr (List.eq_of_mem_replicate hmem))
  · dsimp only at hlt ⊢
    rw [List.getElem_append_left (by omega)]
    exact hserver _ (List.getElem_mem _)

theorem Orderly.initial (workers n : ℕ) : Orderly workers (World.initial workers n) := by
  refine ⟨fun i t ht => ?_, ?_, fun other => ?_, fun t ht => ?_, nofun, fun t ht hid => ?_, nofun,
    nofun, fun hpos => ?_⟩
  · simp only [World.initial, List.getElem?_mapIdx, Option.map_eq_some_iff] at ht
    obtain ⟨pc, -, rfl⟩ := ht
    rfl
  · simp only [World.initial, serverThreads, List.length_mapIdx, List.length_append,
      List.length_cons, List.length_replicate, List.length_nil]
    omega
  · simp only [World.initial, List.mem_append, List.mem_replicate, List.mem_map, List.mem_range,
      Option.some.injEq, exists_eq_right]
    exact or_iff_right nofun
  · have hpc := (initial_pc ht).1
    generalize t.pc = pc at hpc ⊢
    cases pc <;> simp_all [Pc.unstarted, Pc.Knows]
  · have hpc := (initial_pc ht).2 hid
    generalize t.pc = pc at hpc ⊢
    cases pc <;> simp_all [Pc.unstarted, Pc.caller]
  · simp [World.initial] at hpos

theorem Orderly.of_runs (h : Runs Shutdown.step ok (World.initial workers n) w) :
    Orderly workers w :=
  h.invariant (.initial workers n) fun ih hst _ => ih.step hst

/-- One worker and one thread outside: everybody starts, and the thread
outside calls `Stop`. -/
def startThenStop : List (ℕ × Event) :=
  [(5, .start), (5, .go), (0, .go), (0, .go), (0, .go), (2, .go), (3, .go), (4, .go), (5, .stop)]

/-- `Stop` posts, the threads end, and `Stop` returns. -/
def everybodyEnds : List (ℕ × Event) :=
  List.replicate 2 (5, .go) ++ List.replicate 2 (0, .go) ++ List.replicate 3 (1, .go) ++
    [(2, .go), (2, .go), (3, .go), (3, .go), (4, .go), (4, .go)] ++ List.replicate 9 (5, .go)

/-- **The empty completion is never lost.** In every run, as many empty
completions are at the port or in the hand of a worker as calls of `Stop` have
posted one. -/
theorem stop_never_lost (h : Runs Shutdown.step ok (World.initial workers n) w) :
    empties w.shared + w.total Thread.holds = w.shared.stops := by
  refine h.invariant (I := fun w => empties w.shared + w.total Thread.holds = w.shared.stops) ?_
    fun {v v' e} ih hst _ => ?_
  · have hzero : (World.initial workers n).total Thread.holds = 0 := by
      refine Pool.total_eq_zero fun t ht => holds_of_pc fun hpc => ?_
      have := (initial_pc ht).1
      rw [hpc] at this
      simp [Pc.unstarted] at this
    rw [hzero]
    rfl
  · obtain ⟨t, t', hpc, ht, -, ha⟩ := step_action hst
    have hempties := ha.empty_kept
    have htotal := Pool.total_step Thread.holds hpc ht
    omega

theorem stop_never_lost_ends : ∃ w,
    exec Shutdown.step (World.initial 1 1) (startThenStop ++ everybodyEnds) = some w ∧
      w.shared.stops = 1 ∧ empties w.shared + w.total Thread.holds = w.shared.stops := by
  have hrun : (exec Shutdown.step (World.initial 1 1) (startThenStop ++ everybodyEnds)).map
      (fun w => w.shared.stops) = some 1 := by rfl
  obtain ⟨w, hw, hstops⟩ := Option.map_eq_some_iff.1 hrun
  exact ⟨w, hw, hstops, stop_never_lost (Runs.of_exec hw)⟩

/-- **The server has ended when it says so.** Once `OnEnd` was called or a
call of `Wait` has returned, every thread of the server has ended, but at most
one, which has called `Stop`; where `Stop` was called from outside, all of them
have. -/
theorem ended_before_wait_returns (h : Runs Shutdown.step ok (World.initial workers n) w)
    (hsaid : 0 < w.shared.ends ∨ 0 < w.shared.waited) :
    (∃ m ∈ w.shared.stoppers, ∀ t ∈ w.threads, t.id < workers + 4 → t.id ≠ m → t.pc = .ended) ∧
      ((∀ m ∈ w.shared.stoppers, workers + 4 ≤ m) →
        ∀ t ∈ w.threads, t.id < workers + 4 → t.pc = .ended) := by
  have hw := Orderly.of_runs h
  obtain ⟨m, hstopper, -, hall⟩ := hw.all (hw.history hsaid)
  have hended : ∀ t ∈ w.threads, t.id < workers + 4 → t.id ≠ m → t.pc = .ended :=
    fun t ht hid hne => hw.ended t ht ((hall t.id hid).resolve_left hne)
  refine ⟨⟨m, hstopper, hended⟩, fun houtside t ht hid => hended t ht hid ?_⟩
  have := houtside m hstopper
  omega

/-- `GroupThread` calls `Stop` in a callback, everybody else ends. -/
def groupThreadStops : List (ℕ × Event) :=
  [(5, .start), (5, .go), (0, .go), (0, .go), (0, .go), (2, .go), (2, .go), (3, .go), (4, .go),
    (2, .stop)] ++ List.replicate 2 (2, .go) ++ List.replicate 2 (0, .go) ++
    List.replicate 3 (1, .go) ++ [(3, .go), (3, .go), (4, .go), (4, .go)] ++
    List.replicate 8 (2, .go)

/-- `Stop` from outside ends all five threads, and from `GroupThread` the other
four. -/
theorem ended_before_wait_returns_ends :
    (∃ w, exec Shutdown.step (World.initial 1 1) (startThenStop ++ everybodyEnds) = some w ∧
      w.shared.ends = 1 ∧ w.shared.stoppers = [5] ∧
      ∀ t ∈ w.threads, t.id < 5 → t.pc = .ended) ∧
    ∃ w, exec Shutdown.step (World.initial 1 1) groupThreadStops = some w ∧
      w.shared.ends = 1 ∧ w.shared.stoppers = [2] ∧
      (⟨2, .stopWake (.loop .group)⟩ : Thread) ∈ w.threads ∧
      ∀ t ∈ w.threads, t.id < 5 → t.id ≠ 2 → t.pc = .ended := by
  have hrun : (exec Shutdown.step (World.initial 1 1) (startThenStop ++ everybodyEnds)).map
      (fun w => (w.shared.ends, w.shared.stoppers)) = some (1, [5]) := by rfl
  have hrun' : (exec Shutdown.step (World.initial 1 1) groupThreadStops).map
      (fun w => (w.shared.ends, w.shared.stoppers, w.threads[2]?)) =
        some (1, [2], some ⟨2, .stopWake (.loop .group)⟩) := by rfl
  obtain ⟨w, hw, heq⟩ := Option.map_eq_some_iff.1 hrun
  obtain ⟨w', hw', heq'⟩ := Option.map_eq_some_iff.1 hrun'
  simp only [Prod.mk.injEq] at heq heq'
  obtain ⟨hends, hstoppers⟩ := heq
  obtain ⟨hends', hstoppers', hthread⟩ := heq'
  obtain ⟨-, hall⟩ := ended_before_wait_returns (Runs.of_exec hw) (.inl (by omega))
  obtain ⟨⟨m, hm, hall'⟩, -⟩ := ended_before_wait_returns (Runs.of_exec hw') (.inl (by omega))
  rw [hstoppers', List.mem_singleton] at hm
  refine ⟨⟨w, hw, hends, hstoppers, hall ?_⟩, w', hw', hends', hstoppers',
    List.mem_of_getElem? hthread, hm ▸ hall'⟩
  rw [hstoppers]
  simp

/-! ## Where `Stop` waits for ever -/

/-- Does the event go on with what the server has begun? -/
def Event.goesOn : Event → Bool
  | .go | .done | .wake _ => true
  | _ => false

/-- Nothing goes on, whatever else may happen from outside. -/
def Stuck (w : World) : Prop :=
  ∀ i (e : Event), e.goesOn = true → Shutdown.step w (i, e) = none

/-- Where a thread of the server may stay for ever. -/
def Pc.hangs : Pc → Bool
  | .startAsleep _ | .stopJoin _ _ | .waitAsleep _ | .broken => true
  | _ => false

theorem Stuck.next (h : Stuck w) (ht : t ∈ w.threads) {e : Event} (he : e.goesOn = true) :
    nextPc w.shared t.id t.pc e = none := by
  obtain ⟨i, hi⟩ := List.mem_iff_getElem?.1 ht
  have hnone := h i e he
  simp only [Shutdown.step, Pool.step, hi, Option.map_eq_none_iff] at hnone
  exact Option.map_eq_none_iff.1 hnone

/-- **Where nothing goes on**, with an empty completion about, a thread of the
server has ended or hangs. -/
theorem Stuck.ended_or_hangs (h : Stuck w) (hw : Orderly workers w)
    (hkept : empties w.shared + w.total Thread.holds = w.shared.stops)
    (hstops : 0 < w.shared.stops) (ht : t ∈ w.threads) (hid : t.id < workers + 4) :
    t.pc = .ended ∨ t.pc.hangs = true := by
  have hgo := h.next ht (e := .go) rfl
  have hdone := h.next ht (e := .done) rfl
  have hcaller := hw.callers t ht hid
  have hlisten := hw.closed hstops
  cases hpc : t.pc with
  | app c =>
    rw [hpc] at hdone hcaller
    cases c with
    | outside => exact absurd rfl hcaller
    | worker | loop => cases hdone
  | startWake | stopClose | stopPost | stopOnEnd | startRead | test | acceptCall | postAgain
  | leave =>
    rw [hpc] at hgo
    cases hgo
  | waitRead | waitOnAddress | startOnAddress =>
    rw [hpc] at hgo
    simp only [nextPc, nextCall, nextLoop] at hgo
    split at hgo <;> cases hgo
  | accepting =>
    rw [hpc] at hgo
    simp [nextPc, nextLoop, hlisten] at hgo
  | stopWake c =>
    rw [hpc] at hgo
    simp only [nextPc, nextCall] at hgo
    split at hgo
    · cases hgo
    · rename_i hne
      obtain ⟨other, hother⟩ := List.exists_mem_of_ne_nil _ hne
      have hwake := h.next ht (e := .wake other) rfl
      rw [hpc] at hwake
      simp [nextPc, nextCall, hother] at hwake
  | getStatus =>
    -- the empty completion is at the port, or in a hand that goes on
    rw [hpc] at hgo
    simp only [nextPc, nextLoop] at hgo
    split at hgo
    · rename_i hiocp
      have hzero : empties w.shared = 0 := by rw [empties, hiocp, List.countP_nil]
      obtain ⟨u, hu, hpos⟩ := Pool.exists_of_total_pos (w := w) (f := Thread.holds) (by omega)
      have hu' : u.pc = .postAgain := by
        by_contra hne
        rw [holds_of_pc hne] at hpos
        omega
      have hagain := h.next hu (e := .go) rfl
      rw [hu'] at hagain
      cases hagain
    · cases hgo
  | stopJoin | waitAsleep | startAsleep | broken => exact .inr rfl
  | ended => exact .inl rfl

/-- **What `Stop` can hang on.** If nothing goes on and a call of `Stop` has
not returned, then another thread of the server sleeps in `WaitStart`, is
itself in `Stop` or asleep in `Wait`, or is at the `__debugbreak` of
`AcceptThread`; and every thread of the server that does not hang like this
has ended. -/
theorem stop_hangs_on (h : Runs Shutdown.step ok (World.initial workers n) w) (hstuck : Stuck w)
    (ht : t ∈ w.threads) {c : Caller} {rest : List (Option ℕ)} (hjoin : t.pc = .stopJoin c rest) :
    (∃ u ∈ w.threads, u.id < workers + 4 ∧ u.id ≠ t.id ∧ u.pc.hangs = true) ∧
      ∀ u ∈ w.threads, u.id < workers + 4 → u.pc = .ended ∨ u.pc.hangs = true := by
  have hw := Orderly.of_runs h
  obtain ⟨hstops, -, hrest, -⟩ := hjoin ▸ hw.knows t ht
  have hall : ∀ u ∈ w.threads, u.id < workers + 4 → u.pc = .ended ∨ u.pc.hangs = true :=
    fun u hu hid => hstuck.ended_or_hangs hw (stop_never_lost h) hstops hu hid
  refine ⟨?_, hall⟩
  have hgo := hstuck.next ht (e := .go) rfl
  rw [hjoin] at hgo
  cases rest with
  | nil => cases hgo
  | cons x rest =>
    cases x with
    | none => cases hgo
    | some other =>
      simp only [nextPc, nextCall] at hgo
      split at hgo
      · cases hgo
      rename_i hout
      rw [not_or] at hout
      have hlt : other < workers + 4 := (hw.threadArray other).1 (hrest _ List.mem_cons_self)
      have hin := hlt.trans_le hw.enough
      have hu := List.getElem_mem hin
      have hid := hw.ids other _ (List.getElem?_eq_getElem hin)
      refine ⟨_, hu, by rw [hid]; exact hlt, by rw [hid]; exact hout.1, ?_⟩
      refine (hall _ hu (by rw [hid]; exact hlt)).resolve_left fun hend => hout.2 ?_
      have := hw.knows _ hu
      rw [hend] at this
      exact hid ▸ this

theorem Stuck.of_threads
    (h : ∀ t ∈ w.threads, ∀ e : Event, e.goesOn = true → nextPc w.shared t.id t.pc e = none) :
    Stuck w := by
  intro i e he
  unfold Shutdown.step Pool.step
  split
  · rfl
  · rename_i t ht
    exact Option.map_eq_none_iff.2 (Option.map_eq_none_iff.2 (h t (List.mem_of_getElem? ht) e he))

/-- No worker: `Stop` is called when the threads are asleep in `WaitStart`. -/
def stopUnstarted : List (ℕ × Event) :=
  [(0, .go), (0, .go), (1, .go), (1, .go), (2, .go), (2, .go), (3, .go), (3, .go), (4, .stop),
    (4, .go), (4, .go)]

theorem stop_hangs_on_unstarted : ∃ w,
    exec Shutdown.step (World.initial 0 1) stopUnstarted = some w ∧ Stuck w ∧
      ∃ u ∈ w.threads, u.id < 4 ∧ u.id ≠ 4 ∧ u.pc.hangs = true := by
  have hrun : (exec Shutdown.step (World.initial 0 1) stopUnstarted).map (fun w =>
      (w.threads, w.shared.startWaiters, w.shared.ended)) = some ([⟨0, .startAsleep .accept⟩,
        ⟨1, .startAsleep .group⟩, ⟨2, .startAsleep .timeout⟩, ⟨3, .startAsleep .monitor⟩,
        ⟨4, .stopJoin .outside [some 0, some 1, some 2, some 3]⟩], [3, 2, 1, 0], []) := by rfl
  obtain ⟨w, hw, heq⟩ := Option.map_eq_some_iff.1 hrun
  simp only [Prod.mk.injEq] at heq
  obtain ⟨hthreads, hwaiters, hended⟩ := heq
  have hstuck : Stuck w := by
    refine .of_threads fun t ht e he => ?_
    rw [hthreads] at ht
    simp only [List.mem_cons, List.not_mem_nil, or_false] at ht
    rcases ht with rfl | rfl | rfl | rfl | rfl <;>
      cases e <;> simp_all [Event.goesOn, nextPc, nextLoop, nextCall]
  refine ⟨w, hw, hstuck, ?_⟩
  have ht : (⟨4, .stopJoin .outside [some 0, some 1, some 2, some 3]⟩ : Thread) ∈ w.threads := by
    rw [hthreads]
    simp
  exact (stop_hangs_on (Runs.of_exec hw) hstuck ht rfl).1

/-! ## Where it is through, and where it never returns -/

/-- Is the thread about its work, past its start, and not in a call of
`Start`, `Stop` or `Wait`? -/
def Pc.busy : Pc → Bool
  | .app _ | .test _ | .accepting | .getStatus | .postAgain | .leave | .ended => true
  | _ => false

/-- Does the application call `Start`? -/
def Event.starts : Event → Bool
  | .start => true
  | _ => false

/-- Does the application call `Stop` or `Wait`? -/
def Event.calls : Event → Bool
  | .stop | .wait => true
  | _ => false

/-- Nobody calls `Start`, and no callback of the server calls `Stop` or
`Wait`. -/
abbrev Leaves (workers : ℕ) (_ : World) (e : ℕ × Event) (_ : World) : Prop :=
  e.2.starts = false ∧ (e.1 < workers + 4 → e.2.calls = false)

/-- Only `Start` sets `_isRunning`. -/
theorem Action.isRunning {e : Event} (h : Action s me pc e s' pc') (he : e.starts = false)
    (hrun : s.isRunning = false) : s'.isRunning = false := by
  cases h
  case start => cases he
  case stop => rfl
  all_goals exact hrun

/-- A thread that is about its work goes to its end. -/
theorem Action.busy {e : Event} (h : Action s me pc e s' pc') (hrun : s.isRunning = false)
    (hstart : e.starts = false) (hcall : e.calls = false) (hpc : pc.busy = true) :
    pc'.busy = true := by
  cases h
  case resume hc =>
    rename_i c
    cases c <;> cases hc <;> rfl
  case start => cases hstart
  case stop | wait => cases hcall
  case goesAccept hon | goesOn hon =>
    rw [hrun] at hon
    cases hon
  case post | stopped | interrupted | connected | takesStop | takes | postAgain | leave => rfl
  all_goals cases hpc

/-- Is the call of `Stop` before its post? -/
def Pc.posts : Pc → Bool
  | .stopClose _ | .stopPost _ => true
  | _ => false

/-- A call of `Stop` gets to its post. -/
theorem Action.posts {e : Event} (h : Action s me pc e s' pc') (hpc : pc.posts = true) :
    pc'.posts = true ∨ 0 < s'.stops := by
  cases h
  case stopClose => exact .inl rfl
  case stopPost => exact .inr (Nat.succ_pos _)
  all_goals cases hpc

/-- A server whose end has begun. -/
structure Ending (workers : ℕ) (w : World) : Prop where
  isRunning : w.shared.isRunning = false
  busy : ∀ t ∈ w.threads, t.id < workers + 4 → t.pc.busy = true
  stop : (∃ t ∈ w.threads, t.pc.posts = true) ∨ 0 < w.shared.stops

theorem Ending.step {e : ℕ × Event} (h : Ending workers w) (hw : Orderly workers w)
    (hst : Shutdown.step w e = some w') (hleaves : Leaves workers w e w') : Ending workers w' := by
  obtain ⟨t, t', hpc, ht, hid, ha⟩ := step_action hst
  obtain ⟨hstart, hcall⟩ := hleaves
  have hmem := List.mem_of_getElem? hpc
  refine ⟨ha.isRunning hstart h.isRunning, Pool.forall_threads ht h.busy fun hlt => ?_, ?_⟩
  · rw [hid] at hlt
    exact ha.busy h.isRunning hstart (hcall (hw.ids _ _ hpc ▸ hlt)) (h.busy t hmem hlt)
  · rcases h.stop with hposts | hpos
    · rcases Pool.exists_threads hpc ht hposts with hp | hothers
      · rcases ha.posts hp with hp' | hpos
        · exact .inl ⟨t', Pool.mem_threads hpc ht, hp'⟩
        · exact .inr hpos
      · exact .inl hothers
    · exact .inr (hpos.trans_le ha.kept.stops)

/-- **Where nothing goes on after `Stop`, the server has ended.** `Stop` is
called when every thread of the server is past its start and about its work,
`AcceptThread` not between its test and its `Accept`. If nobody calls `Start`
then, and no callback `Stop` or `Wait`, then in every state in which nothing
goes on any more every thread of the server has ended, and every call of
`Stop` has returned. -/
theorem stop_ends (h : Runs Shutdown.step ok (World.initial workers n) w) (hend : Ending workers w)
    (h' : Runs Shutdown.step (Leaves workers) w w') (hstuck : Stuck w') :
    (∀ t ∈ w'.threads, t.id < workers + 4 → t.pc = .ended) ∧
      ∀ t ∈ w'.threads, ∀ c rest, t.pc ≠ .stopJoin c rest := by
  have hrun : Runs Shutdown.step (fun _ _ _ => True) (World.initial workers n) w' :=
    (h.mono fun _ => trivial).trans (h'.mono fun _ => trivial)
  obtain ⟨hw, hend'⟩ := h'.invariant (I := fun v => Orderly workers v ∧ Ending workers v)
    ⟨.of_runs h, hend⟩ fun ih hst hok => ⟨ih.1.step hst, ih.2.step ih.1 hst hok⟩
  have hstops : 0 < w'.shared.stops := by
    rcases hend'.stop with ⟨t, ht, hposts⟩ | hpos
    · have hgo := hstuck.next ht (e := .go) rfl
      generalize t.pc = pc at hposts hgo
      cases pc with
      | stopClose | stopPost => cases hgo
      | _ => cases hposts
    · exact hpos
  have hended : ∀ t ∈ w'.threads, t.id < workers + 4 → t.pc = .ended := by
    intro t ht hid
    refine (hstuck.ended_or_hangs hw (stop_never_lost hrun) hstops ht hid).resolve_right ?_
    intro hhangs
    have hbusy := hend'.busy t ht hid
    generalize t.pc = pc at hhangs hbusy
    cases pc with
    | startAsleep | stopJoin | waitAsleep | broken => cases hbusy
    | _ => cases hhangs
  refine ⟨hended, fun t ht c rest hjoin => ?_⟩
  obtain ⟨⟨u, hu, hid, -, hhangs⟩, -⟩ := stop_hangs_on hrun hstuck ht hjoin
  rw [hended u hu hid] at hhangs
  cases hhangs

theorem stop_ends_all : ∃ w w',
    exec Shutdown.step (World.initial 1 1) startThenStop = some w ∧
      exec Shutdown.step w everybodyEnds = some w' ∧
      ∀ t ∈ w'.threads, t.id < 5 → t.pc = .ended := by
  have hstart : (exec Shutdown.step (World.initial 1 1) startThenStop).map (fun w =>
      (w.threads, w.shared.isRunning, execMeets Shutdown.step (Leaves 1) w everybodyEnds)) =
      some ([⟨0, .accepting⟩, ⟨1, .getStatus⟩, ⟨2, .test .group⟩, ⟨3, .test .timeout⟩,
        ⟨4, .test .monitor⟩, ⟨5, .stopClose .outside⟩], false, true) := by rfl
  have hend : (exec Shutdown.step (World.initial 1 1) (startThenStop ++ everybodyEnds)).map (fun w =>
      w.threads) = some [⟨0, .ended⟩, ⟨1, .ended⟩, ⟨2, .ended⟩, ⟨3, .ended⟩, ⟨4, .ended⟩,
        ⟨5, .app .outside⟩] := by rfl
  obtain ⟨w', hw', hthreads'⟩ := Option.map_eq_some_iff.1 hend
  obtain ⟨w, hw, hrest⟩ := exec_append_iff.1 hw'
  rw [hw, Option.map_some] at hstart
  simp only [Option.some.injEq, Prod.mk.injEq] at hstart
  obtain ⟨hthreads, hrun, hmeets⟩ := hstart
  have hbegun : Ending 1 w := by
    refine ⟨hrun, fun t ht hid => ?_, .inl ⟨⟨5, .stopClose .outside⟩, ?_, rfl⟩⟩
    · rw [hthreads] at ht
      simp only [List.mem_cons, List.not_mem_nil, or_false] at ht
      rcases ht with rfl | rfl | rfl | rfl | rfl | rfl
      all_goals first | rfl | exact absurd hid (by decide)
    · rw [hthreads]
      simp
  have hstuck : Stuck w' := by
    refine .of_threads fun t ht e he => ?_
    rw [hthreads'] at ht
    simp only [List.mem_cons, List.not_mem_nil, or_false] at ht
    rcases ht with rfl | rfl | rfl | rfl | rfl | rfl <;>
      cases e <;> simp_all [Event.goesOn, nextPc, nextLoop, nextApp, Caller.resume]
  exact ⟨w, w', hw, hrest,
    (stop_ends (Runs.of_exec hw) hbegun (runs_of_exec hrest hmeets) hstuck).1⟩

/-- A thread gets past its start only while the server runs. -/
theorem Action.stays_unstarted {e : Event} (h : Action s me pc e s' pc')
    (hrun : s.isRunning = false) (hpc : pc.unstarted = true) : pc'.unstarted = true := by
  cases h
  case unstarted | startSleep | startWoken | startSpurious => rfl
  case started hon | startBack hon =>
    rw [hrun] at hon
    cases hon
  all_goals cases hpc

/-- **A thread that `Stop` overtakes at its start never ends.** If a thread of
the server has not left `WaitStart` when `Stop` has cleared `_isRunning`, then
it never does, unless somebody calls `Start` again: no call of `Stop` ever gets
as far as `OnEnd`, and no call of `Wait` ever returns. -/
theorem overtaken_never_ends (h : Runs Shutdown.step ok (World.initial workers n) w)
    (hrun : w.shared.isRunning = false) (ht : t ∈ w.threads) (hid : t.id < workers + 4)
    (hun : t.pc.unstarted = true)
    (h' : Runs Shutdown.step (fun _ e _ => e.2.starts = false) w w') :
    w'.shared.ends = 0 ∧ w'.shared.waited = 0 ∧
      ∃ u ∈ w'.threads, u.id = t.id ∧ u.pc.unstarted = true := by
  have hall : Runs Shutdown.step (fun _ _ _ => True) (World.initial workers n) w' :=
    (h.mono fun _ => trivial).trans (h'.mono fun _ => trivial)
  obtain ⟨-, u, hu, huid, huun⟩ := h'.invariant (I := fun v => v.shared.isRunning = false ∧
      ∃ u ∈ v.threads, u.id = t.id ∧ u.pc.unstarted = true) ⟨hrun, t, ht, rfl, hun⟩
    fun {v v' e} ih hst hstart => by
      obtain ⟨q, q', hpc, hset, hqid, ha⟩ := step_action hst
      refine ⟨ha.isRunning hstart ih.1, ?_⟩
      rcases Pool.exists_threads hpc hset ih.2 with ⟨hsame, hq⟩ | hothers
      · exact ⟨q', Pool.mem_threads hpc hset, hqid.trans hsame, ha.stays_unstarted ih.1 hq⟩
      · exact hothers
  have hw := Orderly.of_runs hall
  -- all threads but one would have ended, and that one would have started
  have hgraceful : w'.shared.gracefulEnd = false := by
    rw [← Bool.not_eq_true]
    intro hg
    obtain ⟨m, -, hm, hended⟩ := hw.all hg
    rcases hended u.id (by omega) with heq | hin
    · rw [hm u hu heq] at huun
      cases huun
    · rw [hw.ended u hu hin] at huun
      cases huun
  have hhistory := hw.history
  rw [hgraceful] at hhistory
  refine ⟨?_, ?_, u, hu, huid, huun⟩
  · by_contra hne
    cases hhistory (.inl (Nat.pos_of_ne_zero hne))
  · by_contra hne
    cases hhistory (.inr (Nat.pos_of_ne_zero hne))

/-- `AcceptThread` is asleep when `Start` wakes it, and `Stop` comes before it
has looked at `_isRunning` again. -/
def overtakeAccept : List (ℕ × Event) :=
  [(0, .go), (0, .go), (4, .start), (4, .go), (4, .stop)]

theorem overtaken_never_ends_accept : ∃ w w',
    exec Shutdown.step (World.initial 0 1) overtakeAccept = some w ∧
      exec Shutdown.step w [(0, .go), (4, .go), (4, .go), (0, .go)] = some w' ∧
      w'.shared.stops = 1 ∧ w'.shared.ends = 0 ∧ w'.shared.waited = 0 := by
  have hrun : (exec Shutdown.step (World.initial 0 1) overtakeAccept).bind (fun w =>
      (exec Shutdown.step w [(0, .go), (4, .go), (4, .go), (0, .go)]).map fun w' =>
        (w.threads[0]?, w.shared.isRunning, w'.shared.stops, execMeets Shutdown.step
          (fun _ e _ => e.2.starts = false) w [(0, .go), (4, .go), (4, .go), (0, .go)])) =
      some (some ⟨0, .startAsleep .accept⟩, false, 1, true) := by rfl
  obtain ⟨w, hw, heq⟩ := Option.bind_eq_some_iff.1 hrun
  obtain ⟨w', hw', heq⟩ := Option.map_eq_some_iff.1 heq
  simp only [Prod.mk.injEq] at heq
  obtain ⟨hthread, hstopped, hstops, hmeets⟩ := heq
  obtain ⟨hends, hwaited, -⟩ := overtaken_never_ends (Runs.of_exec hw) hstopped
    (List.mem_of_getElem? hthread) (by decide) rfl (runs_of_exec hw' hmeets)
  exact ⟨w, w', hw, hw', hstops, hends, hwaited⟩

end Runs

end Shutdown

end NetLib
